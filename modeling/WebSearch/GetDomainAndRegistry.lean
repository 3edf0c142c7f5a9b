import WebSearch.RegistryControlledDomainLength

/-! `GetDomainAndRegistryImpl` of `web_util/url_parser/registry_controlled_domain.cc`:
the registry of a host together with the label before it. -/
namespace WebSearch.RegistryControlledDomain

/-- The difference of two `size_t` values. -/
def sizeSub (a b : Nat) : Nat := if b ≤ a then a - b else a + 2^64 - b

theorem sizeSub_of_le {a b : Nat} (le : b ≤ a) : sizeSub a b = a - b := if_pos le

/-- The last position of `c` that is not beyond `pos`. -/
def rfind (c : UInt8) (s : Bytes) (pos : Nat) : Option Nat :=
  let head := s.take (pos + 1)
  (head.reverse.findIdx? (· == c)).map (head.length - 1 - ·)

/-- `notReached` is the branch with `NOTREACHED()`, which returns an empty string. -/
inductive DomainReply
  | domain (text : Bytes)
  | notReached
  deriving DecidableEq

def getDomainAndRegistryImpl (findDomain : Bytes → Option DomainRule) (host : Bytes) : Option DomainReply :=
  (getRegistryLengthImpl findDomain host true).map fun registryLength =>
    if registryLength = 0 then .domain []
    else if sizeSub host.length 2 < registryLength then .notReached
    else match rfind dot host (sizeSub (sizeSub host.length registryLength) 2) with
      | none => .domain host
      | some position => .domain (host.drop (position + 1))

/-- The registry and the label before it, from the rules alone. -/
def registrableDomain (rules : List DomainRule) (host : Host) : Bytes :=
  match registryStart rules true host.labels with
  | some (i + 1) => if host.labels.length = 1 then [] else domainName (host.labels.drop i) ++ host.tail
  | _ => []

/-- Dots stand alone between the labels of the host. -/
def NoEmptyInner (host : Bytes) : Prop :=
  ∃ leadingDots labels trailingDots, (∀ label ∈ labels, label ≠ [] ∧ dot ∉ label) ∧
    host = List.replicate leadingDots dot ++ domainName labels ++ List.replicate trailingDots dot

/-! Whatever the table, the registry starts two characters into the host or later. -/

theorem findFrom_some {c : UInt8} {s : Bytes} {pos found : Nat} (located : findFrom c s pos = some found) :
    pos ≤ found ∧ s[found]? = some c := by
  obtain ⟨skipped,first,rfl⟩ := Option.map_eq_some_iff.mp located
  obtain ⟨inside,same,_⟩ := List.findIdx?_eq_some_iff_getElem.mp first
  refine ⟨Nat.le_add_right _ _,?_⟩
  rw [← List.getElem?_drop,List.getElem?_eq_getElem inside]
  exact congrArg some (eq_of_beq same)

theorem findFirstNotOf_some {c : UInt8} {s : Bytes} {found : Nat} (located : findFirstNotOf c s = some found) :
    s[found]? ≠ some c := by
  obtain ⟨inside,other,_⟩ := List.findIdx?_eq_some_iff_getElem.mp located
  rw [List.getElem?_eq_getElem inside]
  intro same
  exact absurd (Option.some.inj same) (ne_of_beq_false (by simpa using other))

section AnyTable
variable (findDomain : Bytes → Option DomainRule) (host : Bytes) (allow : Bool)

/-- `start` is the first label, or comes after a label and a dot. -/
def Later (hostCheckBegin start : Nat) : Prop := start = hostCheckBegin ∨ hostCheckBegin + 2 ≤ start

theorem whole_fits {hostCheckBegin start : Nat} (later : Later hostCheckBegin start) :
    ∃ len, (if start = hostCheckBegin then 0 else host.length - start) = len ∧ (len = 0 ∨ len + 2 ≤ host.length) := by
  refine ⟨_,rfl,?_⟩
  unfold Later at later
  split <;> omega

theorem walk_returns {hostCheckBegin hostCheckLen fuel currStart : Nat} {prevStart nextDot : Option Nat}
    (inside : currStart ≤ host.length) (enough : host.length < fuel + currStart)
    (prev : ∀ p, prevStart = some p → Later hostCheckBegin p) (curr : Later hostCheckBegin currStart)
    (first : currStart = hostCheckBegin → ∃ d, nextDot = some d ∧ d < hostCheckLen)
    (next : ∀ d, nextDot = some d → hostCheckBegin < d ∧ currStart ≤ d ∧ d < host.length) :
    ∃ len, walk findDomain host allow hostCheckBegin hostCheckLen fuel prevStart currStart nextDot = some len ∧
      (len = 0 ∨ len + 2 ≤ host.length) := by
  induction fuel generalizing prevStart currStart nextDot with
  | zero => omega
  | succ fuel ih =>
    -- With no rule at the last label the registry is that label, and it is not the first.
    have unknown (last : ∀ d, nextDot = some d → hostCheckLen ≤ d) :
        ∃ len, some (if allow then host.length - currStart else 0) = some len ∧ (len = 0 ∨ len + 2 ≤ host.length) := by
      have moved : currStart ≠ hostCheckBegin := by
        intro same
        obtain ⟨d,dots,early⟩ := first same
        exact absurd (last d dots) (Nat.not_le.mpr early)
      obtain ⟨len,same,fits⟩ := whole_fits host curr
      rw [if_neg moved] at same
      cases allow with
      | true => exact ⟨len,congrArg some same,fits⟩
      | false => exact ⟨0,rfl,.inl rfl⟩
    cases nextDot with
    | none =>
      cases matched : matchingRule findDomain host hostCheckLen currStart with
      | none =>
        simp only [walk,matched]
        exact unknown (by simp)
      | some rule =>
        simp only [walk,matched]
        split
        · obtain ⟨len,same,fits⟩ := whole_fits host (prev _ rfl)
          exact ⟨len,congrArg some same,fits⟩
        · split
          · exact ⟨0,rfl,.inl rfl⟩
          · obtain ⟨len,same,fits⟩ := whole_fits host curr
            exact ⟨len,congrArg some same,fits⟩
    | some d =>
      obtain ⟨after,beyond,short⟩ := next d rfl
      cases matched : matchingRule findDomain host hostCheckLen currStart with
      | none =>
        simp only [walk,matched]
        split
        · rename_i last
          exact unknown fun e same => Option.some.inj same ▸ last
        · apply ih
          · omega
          · omega
          · intro p same
            exact Option.some.inj same ▸ curr
          · exact .inr (by omega)
          · intro same
            omega
          · intro e located
            obtain ⟨later,found⟩ := findFrom_some located
            obtain ⟨bound,_⟩ := List.getElem?_eq_some_iff.mp found
            exact ⟨by omega,later,bound⟩
      | some rule =>
        simp only [walk,matched]
        split
        · obtain ⟨len,same,fits⟩ := whole_fits host (prev _ rfl)
          exact ⟨len,congrArg some same,fits⟩
        · split
          · exact ⟨_,rfl,by omega⟩
          · obtain ⟨len,same,fits⟩ := whole_fits host curr
            exact ⟨len,congrArg some same,fits⟩

theorem getRegistryLengthImpl_returns :
    ∃ len, getRegistryLengthImpl findDomain host allow = some len ∧ (len = 0 ∨ len + 2 ≤ host.length) := by
  cases located : findFirstNotOf dot host with
  | none => exact ⟨0,by simp [getRegistryLengthImpl,located],.inl rfl⟩
  | some hostCheckBegin =>
    have other := findFirstNotOf_some located
    obtain ⟨inside,_⟩ := List.findIdx?_eq_some_iff_getElem.mp located
    simp only [getRegistryLengthImpl,located]
    generalize (if host.getD (host.length - 1) 0 = dot then host.length - 1 else host.length) = hostCheckLen
    split
    · exact ⟨0,rfl,.inl rfl⟩
    · cases dots : findFrom dot host hostCheckBegin with
      | none => exact ⟨0,rfl,.inl rfl⟩
      | some d =>
        obtain ⟨later,found⟩ := findFrom_some dots
        obtain ⟨bound,_⟩ := List.getElem?_eq_some_iff.mp found
        have after : hostCheckBegin ≠ d := fun same => other (same ▸ found)
        dsimp only
        split
        · exact ⟨0,rfl,.inl rfl⟩
        · rename_i early
          apply walk_returns
          · omega
          · omega
          · simp
          · exact .inl rfl
          · exact fun _ => ⟨d,rfl,Nat.not_le.mp early⟩
          · intro e same
            obtain rfl := Option.some.inj same
            omega

theorem rfind_le {c : UInt8} {s : Bytes} {pos found : Nat} (located : rfind c s pos = some found) : found ≤ pos := by
  obtain ⟨skipped,_,rfl⟩ := Option.map_eq_some_iff.mp located
  have short := List.length_take_le (pos + 1) s
  omega

/-- A registry leaves room for a label and a dot before it, so the branch with
`NOTREACHED()` is never taken, and the domain is not empty. -/
theorem getDomainAndRegistryImpl_cases : ∃ len text, getRegistryLengthImpl findDomain host true = some len ∧
    getDomainAndRegistryImpl findDomain host = some (.domain text) ∧ (len ≠ 0 → 2 ≤ host.length) ∧
      (text = [] ↔ len = 0) := by
  obtain ⟨len,computed,fits⟩ := getRegistryLengthImpl_returns findDomain host true
  simp only [getDomainAndRegistryImpl,computed,Option.map_some,Option.some.injEq]
  by_cases zero : len = 0
  · exact ⟨len,[],rfl,by rw [if_pos zero],fun some => absurd zero some,fun _ => zero,fun _ => rfl⟩
  · have long : len + 2 ≤ host.length := fits.resolve_left zero
    have room : ¬sizeSub host.length 2 < len := by
      rw [sizeSub_of_le (by omega)]
      omega
    have width : sizeSub (sizeSub host.length len) 2 = host.length - len - 2 := by
      rw [sizeSub_of_le (by omega : len ≤ host.length),sizeSub_of_le (by omega)]
    have nonempty {text : Bytes} (short : 0 < text.length) : text = [] ↔ len = 0 := by
      constructor
      · intro empty
        rw [empty] at short
        exact absurd short (Nat.lt_irrefl 0)
      · intro none
        exact absurd none zero
    rw [if_neg zero,if_neg room,width]
    cases located : rfind dot host (host.length - len - 2) with
    | none => exact ⟨len,host,rfl,rfl,fun _ => by omega,nonempty (by omega)⟩
    | some position =>
      have before := rfind_le located
      have short : 0 < (host.drop (position + 1)).length := by
        rw [List.length_drop]
        omega
      exact ⟨len,host.drop (position + 1),rfl,rfl,fun _ => by omega,nonempty short⟩

theorem getDomainAndRegistryImpl_returns :
    (∃ text, getDomainAndRegistryImpl findDomain host = some (.domain text)) ∧
      ∀ len, getRegistryLengthImpl findDomain host true = some len → len ≠ 0 → 2 ≤ host.length := by
  obtain ⟨len,text,computed,found,long,_⟩ := getDomainAndRegistryImpl_cases findDomain host
  refine ⟨⟨text,found⟩,fun other same => ?_⟩
  rw [computed] at same
  exact Option.some.inj same ▸ long

theorem domain_eq_nil_iff {text : Bytes} (found : getDomainAndRegistryImpl findDomain host = some (.domain text)) :
    text = [] ↔ getRegistryLengthImpl findDomain host true = some 0 := by
  obtain ⟨len,other,computed,same,_,empty⟩ := getDomainAndRegistryImpl_cases findDomain host
  rw [found,Option.some.injEq,DomainReply.domain.injEq] at same
  rw [same,computed,Option.some.injEq]
  exact empty

end AnyTable

/-! The search back from the registry stops at the start of the label before it. -/

theorem reverse_findIdx?_none {c : UInt8} {s : Bytes} (absent : c ∉ s) : s.reverse.findIdx? (· == c) = none := by
  apply List.findIdx?_eq_none_iff.mpr
  intro d member
  apply beq_false_of_ne
  intro same
  exact absent (same ▸ List.mem_reverse.mp member)

theorem take_label (before label rest : Bytes) (labelled : label ≠ []) :
    (before ++ (label ++ rest)).take (before.length + label.length - 1 + 1) = before ++ label := by
  have positive := List.length_pos_of_ne_nil labelled
  have width : before.length + label.length - 1 + 1 = (before ++ label).length := by
    rw [List.length_append]
    omega
  rw [width,← List.append_assoc,List.take_left]

theorem drop_rfind {before label : Bytes} (rest : Bytes) (labelled : label ≠ []) (plain : dot ∉ label)
    (separated : before = [] ∨ ∃ earlier, before = earlier ++ [dot]) :
    (match rfind dot (before ++ (label ++ rest)) (before.length + label.length - 1) with
      | none => before ++ (label ++ rest)
      | some position => (before ++ (label ++ rest)).drop (position + 1)) = label ++ rest := by
  have absent := reverse_findIdx?_none plain
  simp only [rfind,take_label before label rest labelled]
  obtain rfl | ⟨earlier,rfl⟩ := separated
  · simp only [List.nil_append,absent,Option.map_none]
  · have position : (earlier ++ [dot] ++ label).length - 1 - label.length + 1 = (earlier ++ [dot]).length := by
      simp only [List.length_append,List.length_singleton]
      omega
    have found : (earlier ++ [dot] ++ label).reverse.findIdx? (· == dot) = some label.length := by
      simp only [List.reverse_append,List.findIdx?_append,absent,Option.none_or,List.reverse_singleton]
      simp
    simp only [found,Option.map_some,position,List.drop_left]

theorem domainName_separated (labels : List Bytes) (i : Nat) (inside : i < labels.length) :
    ∃ before, domainName labels = before ++ domainName (labels.drop i) ∧
      (before = [] ∨ ∃ earlier, before = earlier ++ [dot]) := by
  induction labels generalizing i with
  | nil => exact absurd inside (Nat.not_lt_zero i)
  | cons label rest ih =>
    cases i with
    | zero => exact ⟨[],rfl,.inl rfl⟩
    | succ i =>
      have inner : i < rest.length := Nat.lt_of_succ_lt_succ inside
      obtain ⟨before,split,separated⟩ := ih i inner
      have more : rest ≠ [] := List.ne_nil_of_length_pos (Nat.zero_lt_of_lt inner)
      refine ⟨label ++ dot :: before,?_,.inr ?_⟩
      · rw [domainName_cons label more,split,List.drop_succ_cons,List.append_assoc,List.cons_append]
      · obtain rfl | ⟨earlier,rfl⟩ := separated
        · exact ⟨label,rfl⟩
        · exact ⟨label ++ dot :: earlier,by rw [List.append_assoc,List.cons_append]⟩

namespace Host
variable (host : Host)

theorem text_separated (i : Nat) (inside : i < host.labels.length) : ∃ before,
    host.text = before ++ (domainName (host.labels.drop i) ++ host.tail) ∧
      (before = [] ∨ ∃ earlier, before = earlier ++ [dot]) := by
  obtain ⟨before,split,separated⟩ := domainName_separated host.labels i inside
  refine ⟨List.replicate host.leadingDots dot ++ before,?_,?_⟩
  · simp only [text,split,List.append_assoc]
  · obtain rfl | ⟨earlier,rfl⟩ := separated
    · cases dots : host.leadingDots with
      | zero => exact .inl rfl
      | succ n => exact .inr ⟨List.replicate n dot,by rw [List.replicate_succ',List.append_nil]⟩
    · exact .inr ⟨List.replicate host.leadingDots dot ++ earlier,(List.append_assoc ..).symm⟩

theorem domainName_next (i : Nat) (inside : i + 1 < host.labels.length) :
    domainName (host.labels.drop i) ++ host.tail =
      host.labels[i] ++ dot :: (domainName (host.labels.drop (i + 1)) ++ host.tail) := by
  have more : host.labels.drop (i + 1) ≠ [] := by
    apply List.ne_nil_of_length_pos
    rw [List.length_drop]
    omega
  rw [List.drop_eq_getElem_cons (Nat.lt_of_succ_lt inside),domainName_cons _ more,List.append_assoc,List.cons_append]

def fromLabel (i : Nat) (inside : i < host.labels.length) : Host where
  leadingDots := 0
  labels := host.labels.drop i
  trailingDot := host.trailingDot
  labelled := List.ne_nil_of_length_pos (by rw [List.length_drop]; omega)
  label_ne_nil := fun label member => host.label_ne_nil label (List.mem_of_mem_drop member)
  label_no_dot := fun label member => host.label_no_dot label (List.mem_of_mem_drop member)

theorem fromLabel_text (i : Nat) (inside : i < host.labels.length) :
    (host.fromLabel i inside).text = domainName (host.labels.drop i) ++ host.tail := rfl

end Host

section Rules
variable {rules : List DomainRule}

theorem prevailing_eq_some {labels : List Bytes} {i : Nat} {rule : DomainRule}
    (found : prevailing rules labels = some (i,rule)) : i < labels.length ∧ ruleFor rules labels i = some rule ∧
      ∀ j < i, ruleFor rules labels j = none := by
  simp only [prevailing,Option.bind_eq_bind,Option.pure_def] at found
  obtain ⟨k,first,rest⟩ := Option.bind_eq_some_iff.mp found
  obtain ⟨other,named,same⟩ := Option.bind_eq_some_iff.mp rest
  cases same
  obtain ⟨_,member,earlier⟩ := List.find?_range_eq_some.mp first
  refine ⟨List.mem_range.mp member,named,fun j before => ?_⟩
  simpa using earlier j before

theorem prevailing_eq_none {labels : List Bytes} (nothing : prevailing rules labels = none) :
    ∀ i < labels.length, ruleFor rules labels i = none := by
  intro i inside
  by_contra present
  obtain ⟨rule,named⟩ := Option.ne_none_iff_exists'.mp present
  cases first : (List.range labels.length).find? (fun i => (ruleFor rules labels i).isSome) with
  | none =>
    have absent := List.find?_eq_none.mp first i (List.mem_range.mpr inside)
    rw [named] at absent
    exact absent rfl
  | some k =>
    have found := List.find?_some first
    obtain ⟨other,same⟩ := Option.isSome_iff_exists.mp found
    simp [prevailing,first,same] at nothing

theorem ruleFor_drop (labels : List Bytes) (i j : Nat) :
    ruleFor rules (labels.drop i) j = ruleFor rules labels (i + j) := by
  simp only [ruleFor,List.drop_drop]

/-- The registry begins inside the host: an exception has a parent. -/
theorem registryStart_lt {findDomain : Bytes → Option DomainRule} (exact : ExactLookup rules findDomain) (host : Host)
    {start : Nat} (begins : registryStart rules true host.labels = some start) : start < host.labels.length := by
  unfold registryStart at begins
  cases prevails : prevailing rules host.labels with
  | none =>
    have positive := List.length_pos_of_ne_nil host.labelled
    simp only [prevails,if_true,Option.some.injEq] at begins
    omega
  | some found =>
    obtain ⟨i,rule⟩ := found
    obtain ⟨inside,named,_⟩ := prevailing_eq_some prevails
    simp only [prevails] at begins
    by_cases wildcard : rule.type = kWildcardRule
    · rw [if_pos wildcard,Option.some.injEq] at begins
      omega
    · rw [if_neg wildcard] at begins
      by_cases exception : rule.type = kExceptionRule
      · rw [if_pos exception,Option.some.injEq] at begins
        have last : i + 1 ≠ host.labels.length := by
          intro last
          have name : rule.name = domainName (host.labels.drop i) := by simpa using List.find?_some named
          have dots := exact.parent rule (List.mem_of_find?_eq_some named) exception
          exact singleton_no_dot host i last (name ▸ dots)
        omega
      · rw [if_neg exception,Option.some.injEq] at begins
        omega

/-- In the labels from the one before the registry on, the registry is found again. -/
theorem registryStart_drop {labels : List Bytes} {i : Nat} (begins : registryStart rules true labels = some (i + 1))
    (inside : i + 1 < labels.length) : registryStart rules true (labels.drop i) = some 1 := by
  have again {k : Nat} {rule : DomainRule} (found : prevailing rules labels = some (i + k,rule)) :
      prevailing rules (labels.drop i) = some (k,rule) := by
    obtain ⟨within,named,longer⟩ := prevailing_eq_some found
    apply prevailing_some
    · rw [List.length_drop]
      omega
    · rw [ruleFor_drop,named]
    · intro j before
      rw [ruleFor_drop]
      exact longer _ (by omega)
  unfold registryStart at begins
  cases prevails : prevailing rules labels with
  | none =>
    have nothing : prevailing rules (labels.drop i) = none := by
      apply prevailing_none
      intro j before
      rw [List.length_drop] at before
      rw [ruleFor_drop]
      exact prevailing_eq_none prevails _ (by omega)
    simp only [prevails,if_true,Option.some.injEq] at begins
    simp only [registryStart,nothing,if_true,List.length_drop,Option.some.injEq]
    omega
  | some found =>
    obtain ⟨k,rule⟩ := found
    simp only [prevails] at begins
    by_cases wildcard : rule.type = kWildcardRule
    · rw [if_pos wildcard,Option.some.injEq] at begins
      obtain rfl : k = i + 2 := by omega
      simp only [registryStart,again prevails,if_pos wildcard]
    · rw [if_neg wildcard] at begins
      by_cases exception : rule.type = kExceptionRule
      · rw [if_pos exception,Option.some.injEq] at begins
        obtain rfl : k = i := by omega
        simp only [registryStart,@again 0 rule prevails,if_neg wildcard,if_pos exception]
      · rw [if_neg exception,Option.some.injEq] at begins
        obtain rfl : k = i + 1 := by omega
        simp only [registryStart,again prevails,if_neg wildcard,if_neg exception]

end Rules

section Domain
variable {rules : List DomainRule} {findDomain : Bytes → Option DomainRule}

theorem getDomainAndRegistryImpl_eq (exact : ExactLookup rules findDomain) (host : Host)
    (fits : host.text.length < 2^31) :
    getDomainAndRegistryImpl findDomain host.text = some (.domain (registrableDomain rules host)) := by
  simp only [getDomainAndRegistryImpl,getRegistryLengthImpl_eq exact host fits,Option.map_some,Option.some.injEq,
    registryLength,registrableDomain]
  by_cases single : host.labels.length = 1
  · rw [if_pos single,if_pos rfl]
    split
    · rw [if_pos single]
    · rfl
  · rw [if_neg single]
    cases begins : registryStart rules true host.labels with
    | none => rfl
    | some start =>
      cases start with
      | zero => rfl
      | succ i =>
        have inside := registryStart_lt exact host begins
        have here := Nat.lt_of_succ_lt inside
        obtain ⟨before,split,separated⟩ := host.text_separated i here
        rw [host.domainName_next i inside] at split
        have member := List.getElem_mem here
        have positive := List.length_pos_of_ne_nil (host.label_ne_nil _ member)
        have long := congrArg List.length split
        simp only [List.length_append,List.length_cons] at long
        have registry : (domainName (host.labels.drop (i + 1))).length ≠ 0 := by
          obtain ⟨c,rest,same,_⟩ := head_ne_dot (host.fromLabel (i + 1) inside)
          change domainName (host.labels.drop (i + 1)) = c :: rest at same
          simp [same]
        have width : sizeSub (sizeSub host.text.length
            ((domainName (host.labels.drop (i + 1))).length + host.tail.length)) 2 =
              before.length + host.labels[i].length - 1 := by
          rw [sizeSub_of_le (by omega : _ ≤ host.text.length),sizeSub_of_le (by omega)]
          omega
        have room : ¬sizeSub host.text.length 2 <
            (domainName (host.labels.drop (i + 1))).length + host.tail.length := by
          rw [sizeSub_of_le (by omega)]
          omega
        simp only [Nat.succ_ne_zero,if_false,if_neg single,if_neg room,width]
        rw [if_neg (by omega),host.domainName_next i inside]
        have found := drop_rfind (dot :: (domainName (host.labels.drop (i + 1)) ++ host.tail))
          (host.label_ne_nil _ member) (host.label_no_dot _ member) separated
        rw [← split] at found
        rw [← found]
        split <;> rfl

theorem registrableDomain_label (exact : ExactLookup rules findDomain) (host : Host)
    (found : registrableDomain rules host ≠ []) : ∃ i, ∃ inside : i + 1 < host.labels.length,
      registryStart rules true host.labels = some (i + 1) ∧ host.labels.length ≠ 1 ∧
        registrableDomain rules host = (host.fromLabel i (Nat.lt_of_succ_lt inside)).text := by
  cases begins : registryStart rules true host.labels with
  | none => simp [registrableDomain,begins] at found
  | some start =>
    cases start with
    | zero => simp [registrableDomain,begins] at found
    | succ i =>
      have inside := registryStart_lt exact host begins
      have several : host.labels.length ≠ 1 := by omega
      refine ⟨i,inside,rfl,several,?_⟩
      simp only [registrableDomain,begins,if_neg several,host.fromLabel_text]

theorem registrableDomain_fromLabel (host : Host) {i : Nat} (inside : i + 1 < host.labels.length)
    (begins : registryStart rules true host.labels = some (i + 1)) :
    registrableDomain rules (host.fromLabel i (Nat.lt_of_succ_lt inside)) =
      (host.fromLabel i (Nat.lt_of_succ_lt inside)).text := by
  have again : registryStart rules true (host.fromLabel i (Nat.lt_of_succ_lt inside)).labels = some 1 :=
    registryStart_drop begins inside
  have several : (host.fromLabel i (Nat.lt_of_succ_lt inside)).labels.length ≠ 1 := by
    change (host.labels.drop i).length ≠ 1
    rw [List.length_drop]
    omega
  simp only [registrableDomain,again,if_neg several]
  rfl

theorem domain_of_host (exact : ExactLookup rules findDomain) (host : Host) (fits : host.text.length < 2^31)
    {value : Bytes} (nonempty : value ≠ [])
    (found : getDomainAndRegistryImpl findDomain host.text = some (.domain value)) : value <:+ host.text ∧
      (∃ label registry, (label ≠ [] ∧ dot ∉ label) ∧ value = label ++ dot :: registry ∧
        getRegistryLengthImpl findDomain host.text true = some registry.length) ∧
      getDomainAndRegistryImpl findDomain value = some (.domain value) := by
  rw [getDomainAndRegistryImpl_eq exact host fits,Option.some.injEq,DomainReply.domain.injEq] at found
  obtain ⟨i,inside,begins,several,same⟩ := registrableDomain_label exact host (found ▸ nonempty)
  have here := Nat.lt_of_succ_lt inside
  have member := List.getElem_mem here
  rw [found] at same
  obtain ⟨before,split,_⟩ := host.text_separated i here
  have suffix : value <:+ host.text := ⟨before,by rw [same,split,host.fromLabel_text]⟩
  refine ⟨suffix,⟨host.labels[i],domainName (host.labels.drop (i + 1)) ++ host.tail,
    ⟨host.label_ne_nil _ member,host.label_no_dot _ member⟩,?_,?_⟩,?_⟩
  · rw [same,host.fromLabel_text,host.domainName_next i inside]
  · rw [getRegistryLengthImpl_eq exact host fits,registryLength,if_neg several,begins]
    simp only [Nat.succ_ne_zero,if_false,List.length_append]
  · have shorter := suffix.length_le
    rw [same] at shorter
    have again := getDomainAndRegistryImpl_eq exact (host.fromLabel i here) (Nat.lt_of_le_of_lt shorter fits)
    rw [registrableDomain_fromLabel host inside begins] at again
    rw [same]
    exact again

theorem domain_of_dots (host : Bytes) (none : getRegistryLengthImpl findDomain host true = some 0) :
    getDomainAndRegistryImpl findDomain host = some (.domain []) := by
  simp only [getDomainAndRegistryImpl,none,Option.map_some,if_true]

theorem noEmptyInner_cases {host : Bytes} (proper : NoEmptyInner host) : (∃ n, host = List.replicate n dot) ∨
    (∃ before, host = before ++ [dot,dot]) ∨ ∃ made : Host, host = made.text := by
  obtain ⟨leadingDots,labels,trailingDots,labelled,rfl⟩ := proper
  by_cases some : labels = []
  · refine .inl ⟨leadingDots + trailingDots,?_⟩
    simp [some,domainName]
  · right
    let made (trailingDot : Bool) : Host := {
      leadingDots,labels,trailingDot
      labelled := some
      label_ne_nil := fun label member => (labelled label member).1
      label_no_dot := fun label member => (labelled label member).2}
    rcases trailingDots with _ | _ | n
    · exact .inr ⟨made false,rfl⟩
    · exact .inr ⟨made true,rfl⟩
    · refine .inl ⟨List.replicate leadingDots dot ++ domainName labels ++ List.replicate n dot,?_⟩
      rw [List.replicate_add,List.replicate_add,List.append_assoc (List.replicate n dot),← List.append_assoc]
      rfl

/-- The function always returns a domain, never by `NOTREACHED()`; a domain that is
not empty is one label before the registry, and is its own domain. The length of a
host is an `int`, as every caller has it from a component of a URL. -/
theorem domain_and_registry (exact : ExactLookup rules findDomain) :
    (∀ host, host ≠ [] → (∃ text, getDomainAndRegistryImpl findDomain host = some (.domain text)) ∧
      ∀ len, getRegistryLengthImpl findDomain host true = some len → len ≠ 0 → 2 ≤ host.length) ∧
    ∀ host value, NoEmptyInner host → host.length < 2^31 → value ≠ [] →
      getDomainAndRegistryImpl findDomain host = some (.domain value) → value <:+ host ∧
        (∃ label registry, (label ≠ [] ∧ dot ∉ label) ∧ value = label ++ dot :: registry ∧
          getRegistryLengthImpl findDomain host true = some registry.length) ∧
        getDomainAndRegistryImpl findDomain value = some (.domain value) := by
  refine ⟨fun host _ => getDomainAndRegistryImpl_returns findDomain host,fun host value proper fits nonempty found => ?_⟩
  have nothing (none : getRegistryLengthImpl findDomain host true = some 0) : False := by
    rw [domain_of_dots host none,Option.some.injEq,DomainReply.domain.injEq] at found
    exact nonempty found.symm
  obtain ⟨n,rfl⟩ | ⟨before,rfl⟩ | ⟨made,rfl⟩ := noEmptyInner_cases proper
  · exact absurd (getRegistryLengthImpl_dots findDomain n true) nothing
  · exact absurd (getRegistryLengthImpl_trailing findDomain before true) nothing
  · exact domain_of_host exact made fits nonempty found

/-- The host `.a.a.c.` under `*.c` and `!b.c`. -/
theorem domain_and_registry_wildcard :
    getDomainAndRegistryImpl (fun name => wildcardRules.find? fun rule => rule.name = name) [97,46,97,46,99,46] =
      some (.domain [97,46,97,46,99,46]) := by
  have found : getDomainAndRegistryImpl (fun name => wildcardRules.find? fun rule => rule.name = name)
      wildcardHost.text = some (.domain [97,46,97,46,99,46]) := by decide
  exact ((domain_and_registry wildcardRules_exact).2 wildcardHost.text _ ⟨1,[[97],[97],[99]],1,by decide,rfl⟩
    (by decide) (by decide) found).2.2

end Domain

end WebSearch.RegistryControlledDomain
