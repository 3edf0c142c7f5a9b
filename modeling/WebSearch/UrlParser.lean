import WebSearch.GetDomainAndRegistry

/-! `web_util/url_parser/url_parser.cc`: `IsSameDomain`, beside `SameDomainOrHost` of
the registry service, and the domain that a `UrlParser` keeps. The parsing of URLs
and the canonical form of a host, which `thirdparty/googleurl` computes, are a
parameter. -/
namespace WebSearch.UrlParser
open RegistryControlledDomain

/-- `host` and `hostIsIPAddress` are of the `GURL` of a URL, with an empty host where
it has none. `canonicalizeHost` is `net::CanonicalizeHost`: the canonical host, empty
on failure, and whether `host_info` is that of an IP address. -/
structure GoogleUrl where
  host : Bytes → Bytes
  hostIsIPAddress : Bytes → Bool
  canonicalizeHost : Bytes → Bytes × Bool

/-- Both arguments are read as NUL-terminated strings. -/
def strncmp : Bytes → Bytes → Nat → Int
  | _, _, 0 => 0
  | s, t, n + 1 =>
    let x := s.headD 0
    let y := t.headD 0
    if x ≠ y then x.toNat - y.toNat else if x = 0 then 0 else strncmp s.tail t.tail n

/-- `NOTREACHED()` comes with an empty string. -/
def domainText : Option DomainReply → Bytes
  | some (.domain text) => text
  | _ => []

section Functions
variable (google : GoogleUrl) (findDomain : Bytes → Option DomainRule)

/-- `GetDomainAndRegistry` of a `GURL`. -/
def getDomainAndRegistryOfUrl (url : Bytes) : Bytes :=
  let host := google.host url
  if host.length = 0 ∨ google.hostIsIPAddress url then []
  else domainText (getDomainAndRegistryImpl findDomain host)

/-- `GetDomainAndRegistry` of a host. -/
def getDomainAndRegistry (host : Bytes) : Bytes :=
  let (canonHost,isIPAddress) := google.canonicalizeHost host
  if canonHost = [] ∨ isIPAddress then [] else domainText (getDomainAndRegistryImpl findDomain canonHost)

def sameDomainOrHost (url1 url2 : Bytes) : Bool :=
  let domain1 := getDomainAndRegistryOfUrl google findDomain url1
  let domain2 := getDomainAndRegistryOfUrl google findDomain url2
  if domain1 ≠ [] ∨ domain2 ≠ [] then domain1 == domain2
  else
    let host1 := google.host url1
    let host2 := google.host url2
    if host1.length = 0 ∨ host1.length ≠ host2.length then false else strncmp host1 host2 host1.length == 0

def getDomainFromHost (host : Bytes) : Bytes := getDomainAndRegistry google findDomain host

/-- `GetDomainFromHost(host, out)`: what it returns and what it assigns. -/
def getDomainFromHostOut (host : Bytes) : Bool × Bytes :=
  let out := getDomainAndRegistry google findDomain host
  (!out.isEmpty,out)

def getDomain (url : Bytes) : Bytes := getDomainFromHost google findDomain (google.host url)

def isSameDomain (url1 url2 : Bytes) : Bool := getDomain google findDomain url1 == getDomain google findDomain url2

end Functions

/-! A domain is found exactly where the host has a registry. -/
section Domains
variable {google : GoogleUrl} {findDomain : Bytes → Option DomainRule}

/-- The host of the URL is the work of the canonicalizer: to canonicalize it again changes
nothing, or fails as it did before. Only a valid URL says that its host is an IP address.
A host contains no NUL. -/
structure Canonical (google : GoogleUrl) (url : Bytes) : Prop where
  again : (google.canonicalizeHost (google.host url)).1 = google.host url ∨ (google.canonicalizeHost (google.host url)).1 = []
  address : google.hostIsIPAddress url = true → google.canonicalizeHost (google.host url) = (google.host url,true)
  noNul : 0 ∉ google.host url

/-- `CanonicalizeHost` fails, or finds an IP address. -/
def Refuses (google : GoogleUrl) (host : Bytes) : Prop :=
  (google.canonicalizeHost host).1 = [] ∨ (google.canonicalizeHost host).2 = true

instance (google : GoogleUrl) (host : Bytes) : Decidable (Refuses google host) :=
  inferInstanceAs (Decidable (_ ∨ _))

/-- A host with a registry and a label before it. -/
def HasRegistry (findDomain : Bytes → Option DomainRule) (host : Bytes) (isIPAddress : Bool) : Prop :=
  host ≠ [] ∧ isIPAddress = false ∧ getRegistryLengthImpl findDomain host true ≠ some 0

theorem domainText_ne_nil (host : Bytes) :
    domainText (getDomainAndRegistryImpl findDomain host) ≠ [] ↔ getRegistryLengthImpl findDomain host true ≠ some 0 := by
  obtain ⟨text,found⟩ := (getDomainAndRegistryImpl_returns findDomain host).1
  rw [found]
  exact not_congr (domain_eq_nil_iff findDomain host found)

theorem domain_if (host : Bytes) (isIPAddress : Bool) :
    (if host = [] ∨ isIPAddress then [] else domainText (getDomainAndRegistryImpl findDomain host)) ≠ [] ↔
      HasRegistry findDomain host isIPAddress := by
  unfold HasRegistry
  by_cases empty : host = []
  · simp [empty]
  · cases isIPAddress with
    | true => simp
    | false => simp [empty,domainText_ne_nil]

theorem getDomainAndRegistry_ne_nil (host : Bytes) : getDomainAndRegistry google findDomain host ≠ [] ↔
    HasRegistry findDomain (google.canonicalizeHost host).1 (google.canonicalizeHost host).2 :=
  domain_if _ _

theorem getDomainAndRegistryOfUrl_ne_nil (url : Bytes) : getDomainAndRegistryOfUrl google findDomain url ≠ [] ↔
    HasRegistry findDomain (google.host url) (google.hostIsIPAddress url) := by
  unfold getDomainAndRegistryOfUrl
  rw [← domain_if]
  simp only [List.length_eq_zero_iff]

/-- The two ways to the domain of a URL part where the host is refused. -/
theorem Canonical.getDomain_eq {url : Bytes} (canonical : Canonical google url) :
    getDomain google findDomain url =
      if Refuses google (google.host url) then [] else getDomainAndRegistryOfUrl google findDomain url := by
  have plain (accepted : ¬Refuses google (google.host url)) : google.hostIsIPAddress url = false := by
    rw [← Bool.not_eq_true]
    intro address
    exact accepted (.inr (by rw [canonical.address address]))
  simp only [getDomain,getDomainFromHost,getDomainAndRegistry,getDomainAndRegistryOfUrl,List.length_eq_zero_iff]
  by_cases refused : Refuses google (google.host url)
  · rw [if_pos refused]
    exact if_pos refused
  · rw [if_neg refused]
    obtain ⟨some_host,none⟩ := not_or.mp refused
    have same := canonical.again.resolve_right some_host
    rw [same] at some_host ⊢
    rw [if_neg (not_or.mpr ⟨some_host,none⟩),if_neg (not_or.mpr ⟨some_host,by rw [plain refused]; exact Bool.false_ne_true⟩)]

theorem strncmp_cons (c d : UInt8) (s t : Bytes) (n : Nat) : strncmp (c :: s) (d :: t) (n + 1) =
    if c = d then if c = 0 then 0 else strncmp s t n else c.toNat - d.toNat := by
  by_cases equal : c = d <;> simp [strncmp,equal]

theorem strncmp_eq_zero {s t : Bytes} (same : s.length = t.length) (noNul : 0 ∉ s) :
    strncmp s t s.length = 0 ↔ s = t := by
  induction s generalizing t with
  | nil => simp [strncmp,List.eq_nil_of_length_eq_zero same.symm]
  | cons c s ih =>
    cases t with
    | nil => exact absurd same (by simp)
    | cons d t =>
      obtain ⟨first,rest⟩ := not_or.mp (List.mem_cons.not.mp noNul)
      have tails := ih (Nat.succ.inj same) rest
      rw [List.length_cons,strncmp_cons,List.cons.injEq]
      by_cases equal : c = d
      · rw [if_pos equal,if_neg (Ne.symm first),tails]
        exact ⟨fun later => ⟨equal,later⟩,And.right⟩
      · rw [if_neg equal]
        have different : c.toNat ≠ d.toNat := fun bytes => equal (UInt8.toNat_inj.mp bytes)
        constructor
        · intro zero
          omega
        · intro both
          exact absurd both.1 equal

end Domains

/-! `IsSameDomain` against `SameDomainOrHost`. -/
section SameDomain
variable {google : GoogleUrl} {findDomain : Bytes → Option DomainRule} {url1 url2 : Bytes}

def SameSite (google : GoogleUrl) (findDomain : Bytes → Option DomainRule) (url1 url2 : Bytes) : Prop :=
  let domain1 := getDomainAndRegistryOfUrl google findDomain url1
  let domain2 := getDomainAndRegistryOfUrl google findDomain url2
  domain1 ≠ [] ∧ domain1 = domain2 ∨ domain1 = [] ∧ domain2 = [] ∧ google.host url1 = google.host url2

/-- The two functions give one answer, and it is true for the same site. -/
def Agree (google : GoogleUrl) (findDomain : Bytes → Option DomainRule) (url1 url2 : Bytes) : Prop :=
  isSameDomain google findDomain url1 url2 = sameDomainOrHost google findDomain url1 url2 ∧
    (isSameDomain google findDomain url1 url2 = true ↔ SameSite google findDomain url1 url2)

theorem sameDomainOrHost_iff (hosts : google.host url1 ≠ []) (canonical : Canonical google url1) :
    sameDomainOrHost google findDomain url1 url2 = true ↔ SameSite google findDomain url1 url2 := by
  unfold sameDomainOrHost SameSite
  generalize getDomainAndRegistryOfUrl google findDomain url1 = domain1
  generalize getDomainAndRegistryOfUrl google findDomain url2 = domain2
  dsimp only
  by_cases known : domain1 ≠ [] ∨ domain2 ≠ []
  · rw [if_pos known,beq_iff_eq]
    constructor
    · intro same
      refine .inl ⟨?_,same⟩
      rw [← same,or_self] at known
      exact known
    · intro site
      obtain ⟨_,same⟩ | ⟨none1,none2,_⟩ := site
      · exact same
      · rw [none1,none2]
  · obtain ⟨none1,none2⟩ := not_or.mp known
    have positive := List.length_pos_of_ne_nil hosts
    rw [if_neg known]
    simp only [not_not.mp none1,not_not.mp none2,ne_eq,not_true_eq_false,false_and,false_or,true_and]
    by_cases width : (google.host url1).length = (google.host url2).length
    · rw [if_neg (by omega),beq_iff_eq]
      exact strncmp_eq_zero width canonical.noNul
    · rw [if_pos (.inr width)]
      constructor
      · intro wrong
        exact absurd wrong Bool.false_ne_true
      · intro same
        exact absurd (congrArg List.length same) width

theorem isSameDomain_iff (canonical1 : Canonical google url1) (canonical2 : Canonical google url2) :
    isSameDomain google findDomain url1 url2 = true ↔
      (if Refuses google (google.host url1) then [] else getDomainAndRegistryOfUrl google findDomain url1) =
        if Refuses google (google.host url2) then [] else getDomainAndRegistryOfUrl google findDomain url2 := by
  rw [isSameDomain,beq_iff_eq,canonical1.getDomain_eq,canonical2.getDomain_eq]

/-- The URL has a registry, which `IsSameDomain` does not see. -/
def Loses (google : GoogleUrl) (findDomain : Bytes → Option DomainRule) (url : Bytes) : Prop :=
  HasRegistry findDomain (google.host url) (google.hostIsIPAddress url) ∧ Refuses google (google.host url)

/-- The URL has a registry, which `IsSameDomain` sees. -/
def Keeps (google : GoogleUrl) (findDomain : Bytes → Option DomainRule) (url : Bytes) : Prop :=
  HasRegistry findDomain (google.host url) (google.hostIsIPAddress url) ∧ ¬Refuses google (google.host url)

def SameRegistrable (google : GoogleUrl) (findDomain : Bytes → Option DomainRule) (url1 url2 : Bytes) : Prop :=
  getDomainAndRegistryImpl findDomain (google.host url1) = getDomainAndRegistryImpl findDomain (google.host url2)

/-- No registry is lost and there is one or the hosts are identical; or registries are lost,
of hosts that are in one domain just when both are lost. -/
def Matching (google : GoogleUrl) (findDomain : Bytes → Option DomainRule) (url1 url2 : Bytes) : Prop :=
  ¬Loses google findDomain url1 ∧ ¬Loses google findDomain url2 ∧
      (google.host url1 = google.host url2 ∨ Keeps google findDomain url1 ∨ Keeps google findDomain url2) ∨
    Loses google findDomain url1 ∧ Loses google findDomain url2 ∧ SameRegistrable google findDomain url1 url2 ∨
    (Loses google findDomain url1 ∧ Keeps google findDomain url2 ∨ Keeps google findDomain url1 ∧ Loses google findDomain url2) ∧
      ¬SameRegistrable google findDomain url1 url2

theorem sameRegistrable_iff
    (known1 : HasRegistry findDomain (google.host url1) (google.hostIsIPAddress url1))
    (known2 : HasRegistry findDomain (google.host url2) (google.hostIsIPAddress url2)) :
    SameRegistrable google findDomain url1 url2 ↔
      getDomainAndRegistryOfUrl google findDomain url1 = getDomainAndRegistryOfUrl google findDomain url2 := by
  have text {url : Bytes} (known : HasRegistry findDomain (google.host url) (google.hostIsIPAddress url)) :
      getDomainAndRegistryImpl findDomain (google.host url) =
        some (.domain (getDomainAndRegistryOfUrl google findDomain url)) := by
    obtain ⟨domain,found⟩ := (getDomainAndRegistryImpl_returns findDomain (google.host url)).1
    have reached : ¬((google.host url).length = 0 ∨ google.hostIsIPAddress url = true) := by
      rw [List.length_eq_zero_iff,known.2.1]
      exact not_or.mpr ⟨known.1,Bool.false_ne_true⟩
    simp only [getDomainAndRegistryOfUrl]
    rw [if_neg reached,found]
    rfl
  rw [SameRegistrable,text known1,text known2,Option.some.injEq,DomainReply.domain.injEq]

/-- `IsSameDomain` never compares the hosts, and canonicalizes a second time: it is right
exactly for matching URLs. -/
theorem same_domain_agrees_iff (hosts : google.host url1 ≠ [] ∧ google.host url2 ≠ [])
    (canonical : Canonical google url1 ∧ Canonical google url2) :
    Agree google findDomain url1 url2 ↔ Matching google findDomain url1 url2 := by
  have domains : isSameDomain google findDomain url1 url2 = true ↔ _ := isSameDomain_iff canonical.1 canonical.2
  have site : sameDomainOrHost google findDomain url1 url2 = true ↔ SameSite google findDomain url1 url2 :=
    sameDomainOrHost_iff hosts.1 canonical.1
  have one : getDomainAndRegistryOfUrl google findDomain url1 ≠ [] ↔ _ := getDomainAndRegistryOfUrl_ne_nil url1
  have two : getDomainAndRegistryOfUrl google findDomain url2 ≠ [] ↔ _ := getDomainAndRegistryOfUrl_ne_nil url2
  have same : _ → _ → (SameRegistrable google findDomain url1 url2 ↔ _) := sameRegistrable_iff
  rw [Agree,Bool.eq_iff_iff,site,domains,and_self,SameSite,Matching,Loses,Loses,Keeps,Keeps]
  rw [← one,← two] at *
  generalize getDomainAndRegistryOfUrl google findDomain url1 = domain1 at *
  generalize getDomainAndRegistryOfUrl google findDomain url2 = domain2 at *
  by_cases known1 : domain1 = []
  · by_cases known2 : domain2 = []
    · simp [known1,known2]
    · have other : [] ≠ domain2 := Ne.symm known2
      by_cases refused2 : Refuses google (google.host url2) <;> simp [known1,known2,other,refused2]
  · by_cases known2 : domain2 = []
    · by_cases refused1 : Refuses google (google.host url1) <;> simp [known1,known2,refused1]
    · rw [same known1 known2]
      have other : [] ≠ domain2 := Ne.symm known2
      by_cases refused1 : Refuses google (google.host url1) <;>
        by_cases refused2 : Refuses google (google.host url2) <;> simp [known1,known2,other,refused1,refused2]

/-- The URL `http://host/`. -/
def http (host : Bytes) : Bytes := [104,116,116,112,58,47,47] ++ host ++ [47]

/-- For these URLs, with a host of lower case letters and dots. -/
def plainGoogleUrl : GoogleUrl where
  host url := (url.drop 7).takeWhile (· != 47)
  hostIsIPAddress _ := false
  canonicalizeHost host := (host,false)

theorem canonical_plain (url : Bytes) (noNul : 0 ∉ plainGoogleUrl.host url) : Canonical plainGoogleUrl url :=
  ⟨.inl rfl,fun address => absurd address Bool.false_ne_true,noNul⟩

/-- `a.b` and `c.a.b` are both of the domain `a.b`. -/
theorem same_domain_agrees_subdomain :
    Agree plainGoogleUrl (fun _ => none) (http [97,46,98]) (http [99,46,97,46,98]) :=
  (same_domain_agrees_iff (by decide) ⟨canonical_plain _ (by decide),canonical_plain _ (by decide)⟩).mpr
    (.inl ⟨fun lost => absurd lost.2 (by decide),fun lost => absurd lost.2 (by decide),
      .inr (.inl ⟨⟨by decide,rfl,by decide⟩,by decide⟩)⟩)

/-- `http://cn/` and `http://uk/` have no domain, and are taken for the same. -/
theorem same_domain_of_registries : ¬∀ (google : GoogleUrl) (findDomain : Bytes → Option DomainRule) (url1 url2 : Bytes),
    google.host url1 ≠ [] ∧ google.host url2 ≠ [] → Canonical google url1 ∧ Canonical google url2 →
      Agree google findDomain url1 url2 := by
  intro all
  have agree := all plainGoogleUrl (fun _ => none) (http [99,110]) (http [117,107]) (by decide)
    ⟨canonical_plain _ (by decide),canonical_plain _ (by decide)⟩
  have said : isSameDomain plainGoogleUrl (fun _ => none) (http [99,110]) (http [117,107]) = true := by decide
  have other : sameDomainOrHost plainGoogleUrl (fun _ => none) (http [99,110]) (http [117,107]) = false := by decide
  rw [agree.1,other] at said
  exact Bool.false_ne_true said

end SameDomain

/-! The class `UrlParser`, which keeps the domain of its host once it was asked for it. -/

structure Parser where
  host : Bytes
  domain : Bytes
  domainParsed : Bool

/-- A call of a member; `getDomainOut` comes with what `*out` holds before it. -/
inductive Call
  | resetUrl (url : Bytes)
  | getDomain
  | getDomainOut (out : Bytes)

/-- `assigned` is the success flag and what `*out` holds afterwards. -/
inductive Reply
  | reset
  | domain (text : Bytes)
  | assigned (found : Bool) (out : Bytes)
  deriving DecidableEq

section Parser
variable (google : GoogleUrl) (findDomain : Bytes → Option DomainRule)

/-- `UrlParser()` and `UrlParser(url)`. -/
def construct : Option Bytes → Parser
  | none => ⟨[],[],false⟩
  | some url => ⟨google.host url,[],false⟩

def Parser.resetUrl (url : Bytes) : Parser := ⟨google.host url,[],false⟩

def Parser.getDomainOut (p : Parser) (out : Bytes) : Parser × Bool × Bytes :=
  if p.domainParsed then (p,true,p.domain)
  else
    let (found,domain) := getDomainFromHostOut google findDomain p.host
    let p := {p with domain,domainParsed := true}
    if found then (p,true,p.domain) else (p,false,out)

def Parser.getDomain (p : Parser) : Parser × Bytes :=
  if p.domainParsed then (p,p.domain)
  else
    let (found,domain) := getDomainFromHostOut google findDomain p.host
    let p := {p with domain,domainParsed := true}
    if found then (p,p.domain) else (p,[])

def Parser.call (p : Parser) : Call → Parser × Reply
  | .resetUrl url => (.resetUrl google url,.reset)
  | .getDomain =>
    let (p,text) := p.getDomain google findDomain
    (p,.domain text)
  | .getDomainOut out =>
    let (p,found,out) := p.getDomainOut google findDomain out
    (p,.assigned found out)

def Parser.replies (p : Parser) : List Call → List Reply
  | [] => []
  | call :: rest =>
    let (p,reply) := p.call google findDomain call
    reply :: p.replies rest

/-- The same calls answered by `GetDomainFromHost` for the host of the URL set last. -/
def uncachedReplies (host : Bytes) : List Call → List Reply
  | [] => []
  | .resetUrl url :: rest => .reset :: uncachedReplies (google.host url) rest
  | .getDomain :: rest => .domain (getDomainFromHost google findDomain host) :: uncachedReplies host rest
  | .getDomainOut _ :: rest =>
    let (found,out) := getDomainFromHostOut google findDomain host
    .assigned found out :: uncachedReplies host rest

/-- Every two-result call is for a host with a domain, or is the first question since
the URL was set and comes with an empty string. -/
def Careful (host : Bytes) (asked : Bool) : List Call → Prop
  | [] => True
  | .resetUrl url :: rest => Careful (google.host url) false rest
  | .getDomain :: rest => Careful host true rest
  | .getDomainOut out :: rest =>
    (HasRegistry findDomain (google.canonicalizeHost host).1 (google.canonicalizeHost host).2 ∨
      asked = false ∧ out = []) ∧ Careful host true rest

end Parser

section Cached
variable {google : GoogleUrl} {findDomain : Bytes → Option DomainRule}

/-- Once parsed, the kept domain is that of the host. -/
def Kept (google : GoogleUrl) (findDomain : Bytes → Option DomainRule) (p : Parser) : Prop :=
  p.domainParsed = true → p.domain = getDomainFromHost google findDomain p.host

theorem getDomain_kept {p : Parser} (kept : Kept google findDomain p) :
    p.getDomain google findDomain =
      (⟨p.host,getDomainFromHost google findDomain p.host,true⟩,getDomainFromHost google findDomain p.host) := by
  obtain ⟨host,domain,domainParsed⟩ := p
  cases domainParsed with
  | true =>
    have same : domain = getDomainFromHost google findDomain host := kept rfl
    rw [same]
    rfl
  | false =>
    by_cases none : getDomainAndRegistry google findDomain host = []
    · simp [Parser.getDomain,getDomainFromHostOut,getDomainFromHost,none]
    · simp [Parser.getDomain,getDomainFromHostOut,getDomainFromHost,none]

theorem getDomainOut_kept {p : Parser} (kept : Kept google findDomain p) (out : Bytes) :
    (p.getDomainOut google findDomain out).1 = ⟨p.host,getDomainFromHost google findDomain p.host,true⟩ ∧
      ((p.getDomainOut google findDomain out).2 = getDomainFromHostOut google findDomain p.host ↔
        getDomainAndRegistry google findDomain p.host ≠ [] ∨ p.domainParsed = false ∧ out = []) := by
  obtain ⟨host,domain,domainParsed⟩ := p
  cases domainParsed with
  | true =>
    have same : domain = getDomainFromHost google findDomain host := kept rfl
    rw [same]
    refine ⟨rfl,?_⟩
    by_cases none : getDomainAndRegistry google findDomain host = []
    · simp [Parser.getDomainOut,getDomainFromHostOut,none]
    · simp [Parser.getDomainOut,getDomainFromHostOut,getDomainFromHost,none]
  | false =>
    by_cases none : getDomainAndRegistry google findDomain host = []
    · simp [Parser.getDomainOut,getDomainFromHostOut,getDomainFromHost,none]
    · simp [Parser.getDomainOut,getDomainFromHostOut,getDomainFromHost,none]

theorem replies_iff (p : Parser) (kept : Kept google findDomain p) (calls : List Call) :
    p.replies google findDomain calls = uncachedReplies google findDomain p.host calls ↔
      Careful google findDomain p.host p.domainParsed calls := by
  induction calls generalizing p with
  | nil => simp [Parser.replies,uncachedReplies,Careful]
  | cons call rest ih =>
    have after : Kept google findDomain ⟨p.host,getDomainFromHost google findDomain p.host,true⟩ := fun _ => rfl
    cases call with
    | resetUrl url =>
      have fresh : Kept google findDomain ⟨google.host url,[],false⟩ := fun parsed => absurd parsed Bool.false_ne_true
      simp only [Parser.replies,Parser.call,uncachedReplies,Careful,List.cons.injEq,true_and]
      exact ih _ fresh
    | getDomain =>
      simp only [Parser.replies,Parser.call,getDomain_kept kept,uncachedReplies,Careful,List.cons.injEq,true_and]
      exact ih _ after
    | getDomainOut out =>
      obtain ⟨next,right⟩ := getDomainOut_kept kept out
      simp only [Parser.replies,Parser.call,uncachedReplies,Careful,List.cons.injEq,Reply.assigned.injEq,next,
        ← getDomainAndRegistry_ne_nil,← Prod.ext_iff,right]
      exact and_congr_right fun _ => ih _ after

/-- The replies of a parser are the uncached ones exactly for careful calls. -/
theorem replies_uncached_iff (url : Option Bytes) (calls : List Call) :
    (construct google url).replies google findDomain calls =
        uncachedReplies google findDomain (construct google url).host calls ↔
      Careful google findDomain (construct google url).host false calls := by
  have unparsed : (construct google url).domainParsed = false := by cases url <;> rfl
  have kept : Kept google findDomain (construct google url) := by
    intro parsed
    rw [unparsed] at parsed
    exact absurd parsed Bool.false_ne_true
  rw [replies_iff _ kept,unparsed]

/-- Asked twice for the domain of `http://cn/`, the parser fails and then succeeds. -/
theorem replies_asked_twice : ¬∀ (google : GoogleUrl) (findDomain : Bytes → Option DomainRule) (url : Option Bytes)
    (calls : List Call), (construct google url).replies google findDomain calls =
      uncachedReplies google findDomain (construct google url).host calls := by
  intro all
  exact absurd (all plainGoogleUrl (fun _ => none) (some (http [99,110])) [.getDomainOut [],.getDomainOut []]) (by decide)

end Cached

end WebSearch.UrlParser
