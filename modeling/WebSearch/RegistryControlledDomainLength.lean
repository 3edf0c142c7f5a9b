import WebSearch.RegistryControlledDomain

/-! The walk over the label starts of a host computes its registry: position by
position, `walk` looks up the suffix of the labels that begins there. -/
namespace WebSearch.RegistryControlledDomain

theorem strncasecmp_self (s t : Bytes) : strncasecmp (s ++ t) s s.length = 0 := by
  induction s with
  | nil => rfl
  | cons c s ih =>
    simp only [List.cons_append,List.length_cons,strncasecmp,List.headD_cons,List.tail_cons,ih,ne_eq,
      not_true_eq_false,if_false,ite_self]

theorem findFrom_append (before label rest : Bytes) (plain : dot ∉ label) :
    findFrom dot (before ++ (label ++ rest)) before.length =
      (rest.findIdx? (· == dot)).map (before.length + label.length + ·) := by
  have absent : label.findIdx? (· == dot) = none := by
    apply List.findIdx?_eq_none_iff.mpr
    intro c member
    exact beq_eq_false_iff_ne.mpr fun same => plain (same ▸ member)
  unfold findFrom
  rw [List.drop_left,List.findIdx?_append,absent,Option.none_or,Option.map_map]
  apply congrArg (fun f => Option.map f _)
  funext i
  simp only [Function.comp_apply]
  omega

theorem domainName_cons (label : Bytes) {rest : List Bytes} (more : rest ≠ []) :
    domainName (label :: rest) = label ++ dot :: domainName rest := by
  cases rest with
  | nil => exact absurd rfl more
  | cons => rfl

theorem domainName_singleton (label : Bytes) : domainName [label] = label := rfl

/-- Where the labels from index `i` on begin in the name. -/
def offset : List Bytes → Nat → Nat
  | label :: rest, i + 1 => label.length + 1 + offset rest i
  | _, _ => 0

theorem domainName_split (labels : List Bytes) (i : Nat) (inside : i < labels.length) :
    ∃ before, domainName labels = before ++ domainName (labels.drop i) ∧ before.length = offset labels i := by
  induction labels generalizing i with
  | nil => exact absurd inside (Nat.not_lt_zero i)
  | cons label rest ih =>
    cases i with
    | zero => exact ⟨[],rfl,rfl⟩
    | succ i =>
      have inner : i < rest.length := Nat.lt_of_succ_lt_succ inside
      obtain ⟨before,split,long⟩ := ih i inner
      have more : rest ≠ [] := List.ne_nil_of_length_pos (Nat.zero_lt_of_lt inner)
      refine ⟨label ++ dot :: before,?_,?_⟩
      · rw [domainName_cons label more,split,List.drop_succ_cons,List.append_assoc,List.cons_append]
      · simp only [List.length_append,List.length_cons,offset,long]
        omega

theorem offset_succ (labels : List Bytes) (i : Nat) (inside : i < labels.length) :
    offset labels (i + 1) = offset labels i + labels[i].length + 1 := by
  induction labels generalizing i with
  | nil => exact absurd inside (Nat.not_lt_zero i)
  | cons label rest ih =>
    cases i with
    | zero =>
      cases rest <;> simp [offset]
    | succ i =>
      have step := ih i (Nat.lt_of_succ_lt_succ inside)
      simp only [offset,List.getElem_cons_succ] at step ⊢
      omega

theorem le_offset (labels : List Bytes) (i : Nat) (inside : i < labels.length) : i ≤ offset labels i := by
  induction i with
  | zero => exact Nat.zero_le _
  | succ i ih =>
    have before := ih (Nat.lt_of_succ_lt inside)
    rw [offset_succ labels i (Nat.lt_of_succ_lt inside)]
    omega

namespace Host
variable (host : Host)

def start (i : Nat) : Nat := host.leadingDots + offset host.labels i

theorem text_split (i : Nat) (inside : i < host.labels.length) : ∃ before, before.length = host.start i ∧
    host.text = before ++ (domainName (host.labels.drop i) ++ host.tail) := by
  obtain ⟨before,split,long⟩ := domainName_split host.labels i inside
  refine ⟨List.replicate host.leadingDots dot ++ before,?_,?_⟩
  · simp only [List.length_append,List.length_replicate,long,start]
  · simp only [text,split,List.append_assoc]

theorem drop_start (i : Nat) (inside : i < host.labels.length) :
    host.text.drop (host.start i) = domainName (host.labels.drop i) ++ host.tail := by
  obtain ⟨before,long,split⟩ := host.text_split i inside
  rw [split,← long,List.drop_left]

theorem length_start (i : Nat) (inside : i < host.labels.length) :
    host.text.length = host.start i + ((domainName (host.labels.drop i)).length + host.tail.length) := by
  obtain ⟨before,long,split⟩ := host.text_split i inside
  rw [split,List.length_append,List.length_append,long]

/-- The length of the host without its trailing dot. -/
def checkLen : Nat := host.text.length - host.tail.length

theorem checkLen_start (i : Nat) (inside : i < host.labels.length) :
    host.checkLen = host.start i + (domainName (host.labels.drop i)).length := by
  have long := host.length_start i inside
  unfold checkLen
  omega

theorem findFrom_inner (i : Nat) (inside : i + 1 < host.labels.length) :
    findFrom dot host.text (host.start i) = some (host.start (i + 1) - 1) ∧
      host.start (i + 1) - 1 + 1 = host.start (i + 1) ∧ host.start (i + 1) - 1 < host.checkLen := by
  have here : i < host.labels.length := Nat.lt_of_succ_lt inside
  obtain ⟨before,long,split⟩ := host.text_split i here
  have next : host.start (i + 1) = host.start i + host.labels[i].length + 1 := by
    unfold start
    rw [offset_succ host.labels i here]
    omega
  have more : host.labels.drop (i + 1) ≠ [] := by
    apply List.ne_nil_of_length_pos
    rw [List.length_drop]
    omega
  have plain := host.label_no_dot _ (List.getElem_mem here)
  refine ⟨?_,?_,?_⟩
  · rw [List.drop_eq_getElem_cons here,domainName_cons _ more,List.append_assoc] at split
    rw [split,← long,findFrom_append before _ _ plain]
    simp only [List.cons_append,List.findIdx?_cons,beq_self_eq_true,if_true,Option.map_some,long,next]
    rfl
  · omega
  · have bound := host.checkLen_start (i + 1) inside
    omega

/-- From the last label on there is no dot but the trailing one. -/
theorem findFrom_last (i : Nat) (inside : i + 1 = host.labels.length) (position : Nat)
    (found : findFrom dot host.text (host.start i) = some position) : host.checkLen ≤ position := by
  have here : i < host.labels.length := by omega
  obtain ⟨before,long,split⟩ := host.text_split i here
  have plain := host.label_no_dot _ (List.getElem_mem here)
  have last : host.labels.drop (i + 1) = [] := List.drop_of_length_le (by omega)
  have bound := host.checkLen_start i here
  rw [List.drop_eq_getElem_cons here,last,domainName_singleton] at split bound
  rw [split,← long,findFrom_append before _ _ plain] at found
  obtain ⟨skipped,_,same⟩ := Option.map_eq_some_iff.mp found
  omega

theorem start_ne (i : Nat) (inside : i < host.labels.length) (later : i ≠ 0) : host.start i ≠ host.start 0 := by
  have beyond := le_offset host.labels i inside
  have zero : offset host.labels 0 = 0 := by cases host.labels <;> rfl
  unfold start
  omega

end Host

section Walk
variable {rules : List DomainRule} {findDomain : Bytes → Option DomainRule}

theorem lookup_eq (exact : ExactLookup rules findDomain) (name : Bytes) :
    findDomain name = rules.find? fun rule => rule.name = name := by
  cases found : rules.find? fun rule => rule.name = name with
  | some rule =>
    have named : rule.name = name := by simpa using List.find?_some found
    exact (exact.exact name rule).mpr ⟨List.mem_of_find?_eq_some found,named⟩
  | none =>
    cases other : findDomain name with
    | none => rfl
    | some rule =>
      obtain ⟨member,named⟩ := (exact.exact name rule).mp other
      have different := List.find?_eq_none.mp found rule member
      exact absurd (decide_eq_true named) different

/-- At the start of a label the code looks up the suffix of the labels from there. -/
theorem matchingRule_start (exact : ExactLookup rules findDomain) (host : Host) (fits : host.text.length < 2^31)
    (i : Nat) (inside : i < host.labels.length) :
    matchingRule findDomain host.text host.checkLen (host.start i) = ruleFor rules host.labels i := by
  have long := host.length_start i inside
  have width : host.checkLen - host.start i = (domainName (host.labels.drop i)).length := by
    have bound := host.checkLen_start i inside
    omega
  have small : (domainName (host.labels.drop i)).length < 2^31 := by omega
  have low : ((domainName (host.labels.drop i)).length : Int) % 2^32 = (domainName (host.labels.drop i)).length := by
    omega
  have wide : ((domainName (host.labels.drop i)).length : Int) % 2^64 = (domainName (host.labels.drop i)).length := by
    omega
  simp only [matchingRule,width,toInt32_small small,low,wide,Int.toNat_natCast,host.drop_start i inside,List.take_left,
    lookup_eq exact]
  cases found : rules.find? fun rule => rule.name = domainName (host.labels.drop i) with
  | none => simp only [ruleFor,found,Option.filter_none]
  | some rule =>
    have named : rule.name = domainName (host.labels.drop i) := by simpa using List.find?_some found
    have same := strncasecmp_self rule.name host.tail
    rw [named] at same
    simp only [ruleFor,found,Option.filter_some,named,same,decide_true,if_true]

theorem prevailing_some {labels : List Bytes} {i : Nat} {rule : DomainRule} (inside : i < labels.length)
    (found : ruleFor rules labels i = some rule) (longer : ∀ j < i, ruleFor rules labels j = none) :
    prevailing rules labels = some (i,rule) := by
  have first : (List.range labels.length).find? (fun i => (ruleFor rules labels i).isSome) = some i := by
    apply List.find?_range_eq_some.mpr
    refine ⟨by rw [found]; rfl,List.mem_range.mpr inside,fun j before => ?_⟩
    rw [longer j before]
    rfl
  simp only [prevailing,first,Option.bind_eq_bind,Option.bind_some,found,Option.pure_def]

theorem prevailing_none {labels : List Bytes} (absent : ∀ i < labels.length, ruleFor rules labels i = none) :
    prevailing rules labels = none := by
  have nothing : (List.range labels.length).find? (fun i => (ruleFor rules labels i).isSome) = none := by
    apply List.find?_eq_none.mpr
    intro i member
    rw [absent i (List.mem_range.mp member)]
    exact Bool.false_ne_true
  simp only [prevailing,nothing,Option.bind_eq_bind,Option.bind_none]

/-- The length that stands for the registry from label `j` on. -/
def lengthFrom (host : Host) (j : Nat) : Nat :=
  if j = 0 then 0 else (domainName (host.labels.drop j)).length + host.tail.length

theorem whole_start (host : Host) (i : Nat) (inside : i < host.labels.length) :
    (if host.start i = host.start 0 then 0 else host.text.length - host.start i) = lengthFrom host i := by
  unfold lengthFrom
  by_cases first : i = 0
  · rw [first,if_pos rfl,if_pos rfl]
  · have long := host.length_start i inside
    rw [if_neg (host.start_ne i inside first),if_neg first]
    omega

theorem singleton_no_dot (host : Host) (i : Nat) (last : i + 1 = host.labels.length) :
    dot ∉ domainName (host.labels.drop i) := by
  have here : i < host.labels.length := by omega
  have nothing : host.labels.drop (i + 1) = [] := List.drop_of_length_le (by omega)
  rw [List.drop_eq_getElem_cons here,nothing,domainName_singleton]
  exact host.label_no_dot _ (List.getElem_mem here)

def prevStart (host : Host) (i : Nat) : Option Nat := if i = 0 then none else some (host.start (i - 1))

def registryLengthOf (rules : List DomainRule) (allowUnknownRegistries : Bool) (host : Host) : Nat :=
  match registryStart rules allowUnknownRegistries host.labels with
  | none => 0
  | some j => lengthFrom host j

/-- The walk stops at the first label start with a rule, where the rule's kind
shifts the registry by at most one label. -/
theorem walk_found (exact : ExactLookup rules findDomain) (host : Host) (fits : host.text.length < 2^31)
    (allow : Bool) (i fuel : Nat) (inside : i < host.labels.length) (rule : DomainRule)
    (found : ruleFor rules host.labels i = some rule) (longer : ∀ j < i, ruleFor rules host.labels j = none) :
    walk findDomain host.text allow (host.start 0) host.checkLen (fuel + 1) (prevStart host i) (host.start i)
      (findFrom dot host.text (host.start i)) = some (registryLengthOf rules allow host) := by
  have member := List.mem_of_find?_eq_some found
  have named : rule.name = domainName (host.labels.drop i) := by simpa using List.find?_some found
  simp only [walk,matchingRule_start exact host fits i inside,found,registryLengthOf,registryStart,
    prevailing_some inside found longer,whole_start host i inside]
  by_cases wildcard : rule.type = kWildcardRule
  · simp only [wildcard,decide_true,if_true]
    cases i with
    | zero => simp [prevStart,kWildcardRule,kExceptionRule]
    | succ i => simp [prevStart,whole_start host i (Nat.lt_of_succ_lt inside)]
  · simp only [wildcard,decide_false,if_false]
    by_cases exception : rule.type = kExceptionRule
    · have parent : i + 1 < host.labels.length := by
        by_contra last
        exact singleton_no_dot host i (by omega) (named ▸ exact.parent rule member exception)
      obtain ⟨position,next,_⟩ := host.findFrom_inner i parent
      have long := host.length_start (i + 1) parent
      simp only [exception,if_true,position,lengthFrom,Nat.succ_ne_zero,if_false]
      congr 1
      omega
    · simp only [exception,if_false]

theorem walk_start (exact : ExactLookup rules findDomain) (host : Host) (fits : host.text.length < 2^31)
    (allow : Bool) (several : host.labels.length ≠ 1) (fuel i : Nat) (inside : i < host.labels.length)
    (enough : host.labels.length - i ≤ fuel) (longer : ∀ j < i, ruleFor rules host.labels j = none) :
    walk findDomain host.text allow (host.start 0) host.checkLen fuel (prevStart host i) (host.start i)
      (findFrom dot host.text (host.start i)) = some (registryLengthOf rules allow host) := by
  induction fuel generalizing i with
  | zero => omega
  | succ fuel ih =>
    cases found : ruleFor rules host.labels i with
    | some rule => exact walk_found exact host fits allow i fuel inside rule found longer
    | none =>
      have longer : ∀ j < i + 1, ruleFor rules host.labels j = none := by
        intro j before
        obtain earlier | same := Nat.lt_succ_iff_lt_or_eq.mp before
        · exact longer j earlier
        · rw [same,found]
      simp only [walk,matchingRule_start exact host fits i inside,found]
      by_cases more : i + 1 < host.labels.length
      · obtain ⟨position,next,early⟩ := host.findFrom_inner i more
        have rest := ih (i + 1) more (by omega) longer
        simp only [prevStart,Nat.succ_ne_zero,if_false,Nat.add_sub_cancel] at rest
        simp only [position,Nat.not_le.mpr early,if_false,next]
        exact rest
      · have last : i + 1 = host.labels.length := by omega
        have long := host.length_start i inside
        have nothing : prevailing rules host.labels = none := prevailing_none fun j before => longer j (by omega)
        have rest : (if allow then host.text.length - host.start i else 0) = registryLengthOf rules allow host := by
          cases allow with
          | false => simp [registryLengthOf,registryStart,nothing]
          | true =>
            have index : host.labels.length - 1 = i := by omega
            have later : i ≠ 0 := by omega
            simp only [registryLengthOf,registryStart,nothing,index,if_true,lengthFrom,later,if_false]
            omega
        cases located : findFrom dot host.text (host.start i) with
        | none => simp only [rest]
        | some position => simp only [host.findFrom_last i last position located,if_true,rest]

end Walk

/-! The prologue of the function finds the ends of the labels. -/

theorem head_ne_dot (host : Host) : ∃ c rest, domainName host.labels = c :: rest ∧ c ≠ dot := by
  obtain ⟨label,more,same⟩ := List.exists_cons_of_ne_nil host.labelled
  have inside : label ∈ host.labels := by simp [same]
  obtain ⟨c,rest,split⟩ := List.exists_cons_of_ne_nil (host.label_ne_nil label inside)
  have other : c ≠ dot := by
    intro equal
    exact host.label_no_dot label inside (by simp [split,equal])
  cases more with
  | nil => exact ⟨c,rest,by rw [same,domainName_singleton,split],other⟩
  | cons second more =>
    exact ⟨c,_,by rw [same,domainName_cons label (List.cons_ne_nil second more),split,List.cons_append],other⟩

theorem findFirstNotOf_text (host : Host) : findFirstNotOf dot host.text = some (host.start 0) := by
  obtain ⟨c,rest,split,other⟩ := head_ne_dot host
  have zero : offset host.labels 0 = 0 := by cases host.labels <;> rfl
  have dots : (List.replicate host.leadingDots dot).findIdx? (· != dot) = none := by
    apply List.findIdx?_eq_none_iff.mpr
    intro d member
    simp [List.eq_of_mem_replicate member]
  simp [findFirstNotOf,Host.text,split,List.findIdx?_append,dots,List.findIdx?_cons,other,Host.start,zero]

theorem text_last (host : Host) : ∃ before c, c ≠ dot ∧ host.text = before ++ c :: host.tail := by
  have positive : 0 < host.labels.length := List.length_pos_of_ne_nil host.labelled
  have inside : host.labels.length - 1 < host.labels.length := by omega
  have nothing : host.labels.drop (host.labels.length - 1 + 1) = [] := List.drop_of_length_le (by omega)
  obtain ⟨before,_,split⟩ := host.text_split _ inside
  rw [List.drop_eq_getElem_cons inside,nothing,domainName_singleton] at split
  have member := List.getElem_mem inside
  obtain ⟨rest,c,same⟩ := (List.eq_nil_or_concat' _).resolve_left (host.label_ne_nil _ member)
  refine ⟨before ++ rest,c,?_,?_⟩
  · intro equal
    exact host.label_no_dot _ member (by rw [same,equal]; simp)
  · rw [split,same]
    simp

theorem getD_last (before rest : Bytes) (c : UInt8) :
    (before ++ c :: rest).getD ((before ++ c :: rest).length - 1 - rest.length) 0 = c := by
  have index : (before ++ c :: rest).length - 1 - rest.length = before.length := by
    simp only [List.length_append,List.length_cons]
    omega
  rw [index]
  simp

/-- The test for a trailing dot, and for a second one, sees the ends of the labels. -/
theorem trailing_text (host : Host) :
    (host.text.getD (host.text.length - 1) 0 = dot ↔ host.trailingDot = true) ∧
      host.text.getD (host.checkLen - 1) 0 ≠ dot := by
  obtain ⟨before,c,other,split⟩ := text_last host
  have end_ne : host.text.getD (host.text.length - 1 - host.tail.length) 0 ≠ dot := by
    rw [split,getD_last]
    exact other
  have index : host.checkLen - 1 = host.text.length - 1 - host.tail.length := by
    unfold Host.checkLen
    omega
  refine ⟨?_,by rwa [index]⟩
  cases trailing : host.trailingDot with
  | false =>
    have nothing : host.tail = [] := by simp [Host.tail,trailing]
    simp only [nothing,List.length_nil,Nat.sub_zero] at end_ne
    exact ⟨fun last => absurd last end_ne,fun wrong => absurd wrong Bool.false_ne_true⟩
  | true =>
    have single : host.tail = [dot] := by simp [Host.tail,trailing]
    have last := getD_last (before ++ [c]) [] dot
    rw [single] at split
    rw [split]
    simp only [List.append_assoc,List.singleton_append,List.length_nil,Nat.sub_zero] at last
    exact ⟨fun _ => rfl,fun _ => last⟩

theorem getRegistryLengthImpl_eq {rules : List DomainRule} {findDomain : Bytes → Option DomainRule}
    (exact : ExactLookup rules findDomain) (host : Host) (fits : host.text.length < 2^31) (allow : Bool) :
    getRegistryLengthImpl findDomain host.text allow = some (registryLength rules allow host) := by
  obtain ⟨trailing,single⟩ := trailing_text host
  have checkLen : (if host.text.getD (host.text.length - 1) 0 = dot then host.text.length - 1
      else host.text.length) = host.checkLen := by
    unfold Host.checkLen Host.tail
    cases dots : host.trailingDot with
    | false => rw [if_neg fun last => absurd (dots ▸ trailing.mp last) Bool.false_ne_true]; rfl
    | true => rw [if_pos (trailing.mpr dots)]; rfl
  have positive : 0 < host.labels.length := List.length_pos_of_ne_nil host.labelled
  simp only [getRegistryLengthImpl,findFirstNotOf_text host,checkLen,single,and_false,if_false]
  by_cases one : host.labels.length = 1
  · simp only [registryLength,one,if_true]
    cases located : findFrom dot host.text (host.start 0) with
    | none => rfl
    | some position => simp only [host.findFrom_last 0 one.symm position located,if_true]
  · have more : 0 + 1 < host.labels.length := by omega
    obtain ⟨position,_,early⟩ := host.findFrom_inner 0 more
    have last : host.labels.length - 1 < host.labels.length := by omega
    have long := host.length_start _ last
    have enough : host.labels.length - 0 ≤ host.text.length + 1 := by
      have index := le_offset host.labels _ last
      unfold Host.start at long
      omega
    have walked := walk_start exact host fits allow one (host.text.length + 1) 0 positive enough (by simp)
    rw [position] at walked ⊢
    simp only [Nat.not_le.mpr early,if_false,registryLength,one]
    exact walked

theorem getRegistryLengthImpl_dots (findDomain : Bytes → Option DomainRule) (n : Nat) (allow : Bool) :
    getRegistryLengthImpl findDomain (List.replicate n dot) allow = some 0 := by
  have nothing : findFirstNotOf dot (List.replicate n dot) = none := by
    apply List.findIdx?_eq_none_iff.mpr
    intro c member
    simp [List.eq_of_mem_replicate member]
  simp only [getRegistryLengthImpl,nothing]

theorem getRegistryLengthImpl_trailing (findDomain : Bytes → Option DomainRule) (before : Bytes) (allow : Bool) :
    getRegistryLengthImpl findDomain (before ++ [dot,dot]) allow = some 0 := by
  have last : (before ++ [dot,dot]).getD ((before ++ [dot,dot]).length - 1) 0 = dot := by simp
  unfold getRegistryLengthImpl
  split
  · rfl
  · simp only [last,if_true,true_and]
    rw [if_pos (by simp)]

/-- The registry length of a host is the one its rules declare. Every caller
passes the host component of a URL, whose length is an `int`. -/
theorem registry_length_correct {rules : List DomainRule} {findDomain : Bytes → Option DomainRule}
    (exact : ExactLookup rules findDomain) (allow : Bool) :
    (∀ host : Host, host.text.length < 2^31 →
      getRegistryLengthImpl findDomain host.text allow = some (registryLength rules allow host)) ∧
    (∀ n, getRegistryLengthImpl findDomain (List.replicate n dot) allow = some 0) ∧
    ∀ before, getRegistryLengthImpl findDomain (before ++ [dot,dot]) allow = some 0 :=
  ⟨fun host fits => getRegistryLengthImpl_eq exact host fits allow,
    fun n => getRegistryLengthImpl_dots findDomain n allow,
    fun before => getRegistryLengthImpl_trailing findDomain before allow⟩

/-- The rules `*.c` and `!b.c`. -/
def wildcardRules : List DomainRule := [⟨[99],kWildcardRule⟩,⟨[98,46,99],kExceptionRule⟩]

/-- The host `.a.a.c.`. -/
def wildcardHost : Host where
  leadingDots := 1
  labels := [[97],[97],[99]]
  trailingDot := true
  labelled := by decide
  label_ne_nil := by decide
  label_no_dot := by decide

theorem wildcardRules_exact : ExactLookup wildcardRules fun name => wildcardRules.find? fun rule => rule.name = name := by
  refine ⟨fun name rule => ?_,by decide⟩
  constructor
  · intro found
    exact ⟨List.mem_of_find?_eq_some found,by simpa using List.find?_some found⟩
  · intro named
    simp only [wildcardRules,List.mem_cons,List.not_mem_nil,or_false] at named
    obtain ⟨rfl | rfl,rfl⟩ := named <;> rfl

theorem registry_length_wildcard :
    getRegistryLengthImpl (fun name => wildcardRules.find? fun rule => rule.name = name) wildcardHost.text false =
      some 4 :=
  (registry_length_correct wildcardRules_exact false).1 wildcardHost (by decide)

end WebSearch.RegistryControlledDomain
