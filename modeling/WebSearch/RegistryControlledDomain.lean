import WebSearch.Base.Bytes

/-! `web_util/url_parser/registry_controlled_domain.cc`: the length of the
registry of a host. The perfect hash `find_domain_function_` is a parameter. A
position that may be `std::string::npos` is an `Option`. -/
namespace WebSearch.RegistryControlledDomain

def dot : UInt8 := 46

structure DomainRule where
  name : Bytes
  type : Int
  deriving DecidableEq

def kExceptionRule : Int := 1
def kWildcardRule : Int := 2

def tolower (c : UInt8) : UInt8 := if 65 ≤ c ∧ c ≤ 90 then c + 32 else c

/-- Both arguments are read as NUL-terminated strings. -/
def strncasecmp : Bytes → Bytes → Nat → Int
  | _, _, 0 => 0
  | s, t, n + 1 =>
    let x := tolower (s.headD 0)
    let y := tolower (t.headD 0)
    if x ≠ y then x.toNat - y.toNat else if x = 0 then 0 else strncasecmp s.tail t.tail n

def findFirstNotOf (c : UInt8) (s : Bytes) : Option Nat := s.findIdx? (· != c)

def findFrom (c : UInt8) (s : Bytes) (pos : Nat) : Option Nat :=
  ((s.drop pos).findIdx? (· == c)).map (pos + ·)

/-- The rule that matches the domain from `currStart` on. `domain_length` is an
`int`, read as `unsigned int` by the lookup and as `size_t` by the comparison. -/
def matchingRule (findDomain : Bytes → Option DomainRule) (host : Bytes) (hostCheckLen currStart : Nat) :
    Option DomainRule :=
  let domain := host.drop currStart
  let domainLength := toInt32 (hostCheckLen - currStart)
  (findDomain (domain.take (domainLength % 2^32).toNat)).filter fun rule =>
    strncasecmp domain rule.name (domainLength % 2^64).toNat = 0

/-- The `while (1)` loop; `none` when the fuel runs out. -/
def walk (findDomain : Bytes → Option DomainRule) (host : Bytes) (allowUnknownRegistries : Bool)
    (hostCheckBegin hostCheckLen : Nat) : Nat → Option Nat → Nat → Option Nat → Option Nat
  | 0, _, _, _ => none
  | fuel + 1, prevStart, currStart, nextDot =>
    let whole := fun start => if start = hostCheckBegin then 0 else host.length - start
    match matchingRule findDomain host hostCheckLen currStart with
    | some rule => match decide (rule.type = kWildcardRule), prevStart with
      | true, some prevStart => some (whole prevStart)
      | _, _ =>
        if rule.type = kExceptionRule then match nextDot with
          | none => some 0
          | some nextDot => some (host.length - nextDot - 1)
        else some (whole currStart)
    | none => match nextDot with
      | some nextDot =>
        if hostCheckLen ≤ nextDot then some (if allowUnknownRegistries then host.length - currStart else 0)
        else walk findDomain host allowUnknownRegistries hostCheckBegin hostCheckLen fuel
          (some currStart) (nextDot + 1) (findFrom dot host (nextDot + 1))
      | none => some (if allowUnknownRegistries then host.length - currStart else 0)

def getRegistryLengthImpl (findDomain : Bytes → Option DomainRule) (host : Bytes)
    (allowUnknownRegistries : Bool) : Option Nat :=
  match findFirstNotOf dot host with
  | none => some 0
  | some hostCheckBegin =>
    let trailing := host.getD (host.length - 1) 0 = dot
    let hostCheckLen := if trailing then host.length - 1 else host.length
    if trailing ∧ host.getD (hostCheckLen - 1) 0 = dot then some 0
    else
      let walk := walk findDomain host allowUnknownRegistries hostCheckBegin hostCheckLen (host.length + 1)
        none hostCheckBegin
      match findFrom dot host hostCheckBegin with
      | none => some 0
      | some nextDot => if hostCheckLen ≤ nextDot then some 0 else walk (some nextDot)

/-! What the registry of a host is, from the rules alone. -/

def domainName : List Bytes → Bytes
  | [] => []
  | [label] => label
  | label :: rest => label ++ dot :: domainName rest

/-- A host is made of non-empty labels without dots, after any number of leading
dots and before at most one trailing dot. -/
structure Host where
  leadingDots : Nat
  labels : List Bytes
  trailingDot : Bool
  labelled : labels ≠ []
  label_ne_nil : ∀ label ∈ labels, label ≠ []
  label_no_dot : ∀ label ∈ labels, dot ∉ label

def Host.tail (host : Host) : Bytes := if host.trailingDot then [dot] else []

def Host.text (host : Host) : Bytes :=
  List.replicate host.leadingDots dot ++ domainName host.labels ++ host.tail

def ruleFor (rules : List DomainRule) (labels : List Bytes) (i : Nat) : Option DomainRule :=
  rules.find? fun rule => rule.name = domainName (labels.drop i)

/-- The longest suffix of the labels that the table has a rule for: the number of
labels before it, and the rule. -/
def prevailing (rules : List DomainRule) (labels : List Bytes) : Option (Nat × DomainRule) := do
  let i ← (List.range labels.length).find? fun i => (ruleFor rules labels i).isSome
  return (i,← ruleFor rules labels i)

/-- The number of labels before the registry. -/
def registryStart (rules : List DomainRule) (allowUnknownRegistries : Bool) (labels : List Bytes) : Option Nat :=
  match prevailing rules labels with
  | some (i,rule) =>
    if rule.type = kWildcardRule then some (i - 1)
    else if rule.type = kExceptionRule then some (i + 1)
    else some i
  | none => if allowUnknownRegistries then some (labels.length - 1) else none

def registryLength (rules : List DomainRule) (allowUnknownRegistries : Bool) (host : Host) : Nat :=
  if host.labels.length = 1 then 0
  else match registryStart rules allowUnknownRegistries host.labels with
    | none => 0
    | some start =>
      if start = 0 then 0 else (domainName (host.labels.drop start)).length + host.tail.length

/-- What the service relies on: the perfect hash finds exactly the rules of its
table, by name, and the name of an exception has at least two labels. -/
structure ExactLookup (rules : List DomainRule) (findDomain : Bytes → Option DomainRule) : Prop where
  exact : ∀ name rule, findDomain name = some rule ↔ rule ∈ rules ∧ rule.name = name
  parent : ∀ rule ∈ rules, rule.type = kExceptionRule → dot ∈ rule.name

end WebSearch.RegistryControlledDomain
