import WebSearch.PrefixTreeRuns

/-! `SuffixCommonMatchAll` and `SuffixFirstCommonMatch` after one build, for any strings
of the dictionary and any content of the output vector. -/
namespace WebSearch
open Darts

namespace PrefixTree

/-- What is reported for a C string: a string of the dictionary with that C string, and the
C string itself when the dictionary has it. -/
structure Shown (words : List Bytes) (s str : Bytes) : Prop where
  member : str ∈ words
  text : cString str = s
  own : s ∈ words → str = s

/-- What the dictionary has with a NUL is found as a string of its own. -/
def Clean (words : List Bytes) (key : Bytes) : Prop := ∀ str ∈ words, cString str <+: key → cString str ∈ words

section Ready
variable {tree : PrefixTree} {words : List Bytes} (ready : Ready tree words)
include ready

/-- Of the strings with one C string the least comes first, and that is the C string itself. -/
theorem shown_ready {s : Bytes} {pair : ResultPair} (named : FirstNames ((sorted words).map cString) s pair) :
    Shown words s (tree.data.getD pair.value.toNat []) := by
  obtain ⟨_,member,text⟩ := entry_ready ready named.toNames
  refine ⟨member,text,fun own => ?_⟩
  obtain ⟨v,value,found⟩ := named.value_eq
  obtain ⟨later,data⟩ := ready.data
  rw [List.getElem?_map] at found
  obtain ⟨str,at_v,same⟩ := Option.map_eq_some_iff.mp found
  have shown : tree.data.getD pair.value.toNat [] = str := by
    rw [value,Int.toNat_natCast,data,List.getD_append _ _ _ _ (List.getElem?_eq_some_iff.mp at_v).1,
      List.getD_eq_getElem?_getD,at_v,Option.getD_some]
  have own_sorted : s ∈ sorted words := (List.perm_insertionSort (· ≤ ·) words).mem_iff.mpr own
  obtain ⟨j,at_j⟩ := List.mem_iff_getElem?.mp own_sorted
  have not_before : v ≤ j := by
    by_contra before
    apply named.first j (by omega)
    have whole : cString s = s := cString_eq (same ▸ zero_not_mem_cString str)
    rw [List.getElem?_map,at_j,Option.map_some,whole]
  rw [shown]
  have ascending : (sorted words).Pairwise (· ≤ ·) := List.pairwise_insertionSort (· ≤ ·) words
  apply List.le_antisymm
  · obtain equal | less := Nat.eq_or_lt_of_le not_before
    · rw [equal,at_j] at at_v
      rw [Option.some.inj at_v]
      exact List.le_refl str
    · obtain ⟨v_inside,v_value⟩ := List.getElem?_eq_some_iff.mp at_v
      obtain ⟨j_inside,j_value⟩ := List.getElem?_eq_some_iff.mp at_j
      have order := List.pairwise_iff_getElem.mp ascending v j v_inside j_inside less
      rwa [v_value,j_value] at order
  · rw [← same]
    exact (cString_begins str).le

/-- One search, in strings: as many as the C strings that match, and those of the dictionary
that are prefixes just when it is clean. -/
theorem commonMatch_shown (key : Bytes) : ∃ strings, List.Forall₂ (Shown words) (matching words key) strings ∧
    tree.commonMatch key [] = if kMaxMatchNumber < (matching words key).length then .error .outsideResult
      else .ok (!strings.isEmpty,strings) := by
  obtain ⟨pairs,named,collected⟩ := collect_ready ready key
  refine ⟨pairs.map fun pair => tree.data.getD pair.value.toNat [],?_,?_⟩
  · rw [List.forall₂_map_right_iff]
    exact named.imp fun s pair name => shown_ready ready name
  · rw [commonMatch,collected,named.length_eq,List.nil_append,List.isEmpty_map]

end Ready

/-! Which strings these are. -/

theorem prefixesIn_eq {key : Bytes} (plain : 0 ∉ key) (words : List Bytes) :
    prefixesIn words key = (matching words key).filter (· ∈ words) := by
  rw [matching,cString_eq plain,List.filter_filter]
  apply List.filter_congr
  intro s member
  have start : s <+: key := (List.mem_inits _ _).mp member
  have whole : cString s = s := cString_eq fun nul => plain (start.subset nul)
  rw [Bool.eq_iff_iff,Bool.and_eq_true,decide_eq_true_eq,decide_eq_true_eq]
  exact ⟨fun own => ⟨own,List.mem_map.mpr ⟨s,own,whole⟩⟩,And.left⟩

theorem clean_iff {words : List Bytes} {key : Bytes} (plain : 0 ∉ key) :
    Clean words key ↔ ∀ s ∈ matching words key, s ∈ words := by
  simp only [matching,cString_eq plain,List.mem_filter,List.mem_inits,decide_eq_true_eq,List.mem_map]
  constructor
  · rintro clean s ⟨start,str,member,rfl⟩
    exact clean str member start
  · intro all str member start
    exact all (cString str) ⟨start,str,member,rfl⟩

theorem prefixesIn_length {words : List Bytes} {key : Bytes} (plain : 0 ∉ key) :
    (prefixesIn words key).length ≤ (matching words key).length ∧
      ((prefixesIn words key).length = (matching words key).length ↔ Clean words key) := by
  rw [prefixesIn_eq plain,clean_iff plain,List.length_filter_eq_length_iff]
  exact ⟨List.length_filter_le _ _,by simp⟩

theorem shown_clean {words : List Bytes} {key : Bytes} (plain : 0 ∉ key) (clean : Clean words key) {strings : List Bytes}
    (shown : List.Forall₂ (Shown words) (matching words key) strings) : strings = prefixesIn words key := by
  have all := (clean_iff plain).mp clean
  have same : prefixesIn words key = matching words key := by
    rw [prefixesIn_eq plain,List.filter_eq_self]
    exact fun s member => decide_eq_true (all s member)
  rw [same]
  clear same
  generalize matching words key = found at shown all
  induction shown with
  | nil => rfl
  | cons first _ ih =>
    rw [first.own (all _ List.mem_cons_self),ih fun s member => all s (List.mem_cons_of_mem _ member)]

/-- The dictionary is clean for this place, and not too many strings match. -/
def Fits (words : List Bytes) (key : Bytes) : Prop :=
  Clean words key ∧ (prefixesIn words key).length ≤ kMaxMatchNumber

theorem commonMatch_fits {tree : PrefixTree} {words : List Bytes} (ready : Ready tree words) {key : Bytes} (plain : 0 ∉ key)
    (fits : Fits words key) : tree.commonMatch key [] = .ok (!(prefixesIn words key).isEmpty,prefixesIn words key) := by
  obtain ⟨strings,shown,found⟩ := commonMatch_shown ready key
  have few : (matching words key).length ≤ kMaxMatchNumber := by
    rw [← (prefixesIn_length plain).2.mpr fits.1]
    exact fits.2
  rw [found,if_neg (Nat.not_lt.mpr few),shown_clean plain fits.1 shown]

/-- No fewer strings are appended than match, and just as many only if every place fits. -/
theorem suffixMatches_long {tree : PrefixTree} {words : List Bytes} (ready : Ready tree words) {key : Bytes} (plain : 0 ∉ key)
    {result after : List Bytes} (ran : tree.suffixMatches key result = .ok after) :
    result.length + (allIn words key).length ≤ after.length ∧
      (after.length = result.length + (allIn words key).length → ∀ rest, rest <:+ key → rest ≠ [] → Fits words rest) := by
  induction key generalizing result with
  | nil =>
    obtain rfl := Except.ok.inj ran
    exact ⟨Nat.le_refl _,fun _ rest ends some_char => absurd (List.suffix_nil.mp ends) some_char⟩
  | cons c key ih =>
    have later_plain : 0 ∉ key := fun nul => plain (List.mem_cons_of_mem c nul)
    obtain ⟨strings,shown,found⟩ := commonMatch_shown ready (c :: key)
    have count := shown.length_eq
    obtain ⟨fewer,clean⟩ := @prefixesIn_length words _ plain
    have turn : tree.suffixMatches (c :: key) result = tree.commonMatch (c :: key) [] >>= fun found =>
        tree.suffixMatches key (if found.1 then result ++ found.2 else result) := rfl
    rw [turn,found] at ran
    by_cases many : kMaxMatchNumber < (matching words (c :: key)).length
    · rw [if_pos many] at ran
      cases ran
    · rw [if_neg many] at ran
      have pushed : (if !strings.isEmpty then result ++ strings else result) = result ++ strings := by
        cases strings <;> simp
      change tree.suffixMatches key (if !strings.isEmpty then result ++ strings else result) = .ok after at ran
      rw [pushed] at ran
      obtain ⟨bound,exact_count⟩ := ih later_plain ran
      rw [List.length_append] at bound exact_count
      rw [allIn,List.length_append]
      refine ⟨by omega,fun equal rest ends some_char => ?_⟩
      obtain whole | later := List.suffix_cons_iff.mp ends
      · rw [whole]
        exact ⟨clean.mp (by omega),by omega⟩
      · exact exact_count (by omega) rest later some_char

/-- What the two searches are for. -/
structure Searched (tree : PrefixTree) (words : List Bytes) (key : Bytes) (result : List Bytes) : Prop where
  all : tree.suffixCommonMatchAll key result = .ok (!(allIn words key).isEmpty,result ++ allIn words key)
  first : tree.suffixFirstCommonMatch key = .ok (firstIn words key)

/-- The flag is that of the whole vector. -/
theorem suffixCommonMatchAll_iff (tree : PrefixTree) (words : List Bytes) (key : Bytes) (result : List Bytes) :
    tree.suffixCommonMatchAll key result = .ok (!(allIn words key).isEmpty,result ++ allIn words key) ↔
      tree.suffixMatches key result = .ok (result ++ allIn words key) ∧ (result = [] ∨ allIn words key ≠ []) := by
  have flags : (!(result ++ allIn words key).isEmpty) = (!(allIn words key).isEmpty) ↔ result = [] ∨ allIn words key ≠ [] := by
    cases result <;> cases allIn words key <;> simp
  unfold suffixCommonMatchAll
  cases ran : tree.suffixMatches key result with
  | error fault =>
    refine iff_of_false (fun same => ?_) fun same => ?_
    · cases same
    · cases same.1
  | ok after =>
    rw [← flags,Except.ok.injEq]
    change Except.ok (!after.isEmpty,after) = _ ↔ _
    rw [Except.ok.injEq,Prod.mk.injEq]
    constructor
    · rintro ⟨flag,rfl⟩
      exact ⟨rfl,flag⟩
    · rintro ⟨rfl,flag⟩
      exact ⟨flag,rfl⟩

theorem searched_unbuilt {tree : PrefixTree} (null : tree.doubleArray.array = none) (key : Bytes) (result : List Bytes) :
    Searched tree [] key result ↔ key = [] ∧ result = [] := by
  cases key with
  | nil =>
    constructor
    · intro searched
      have flag := ((suffixCommonMatchAll_iff tree [] [] result).mp searched.all).2
      exact ⟨rfl,flag.resolve_right fun some_string => some_string rfl⟩
    · rintro ⟨_,rfl⟩
      exact ⟨rfl,rfl⟩
  | cons c key =>
    have failed : tree.suffixFirstCommonMatch (c :: key) = .error .nullArray := by
      rw [suffixFirstCommonMatch,commonMatch,collect_unbuilt null]
      rfl
    refine iff_of_false (fun searched => ?_) fun empty => absurd empty.1 (List.cons_ne_nil c key)
    have first := searched.first
    rw [failed] at first
    cases first

theorem searched_ready {tree : PrefixTree} {words : List Bytes} (ready : Ready tree words) {key : Bytes} (plain : 0 ∉ key)
    (result : List Bytes) : Searched tree words key result ↔
      (∀ rest, rest <:+ key → rest ≠ [] → Fits words rest) ∧ (result = [] ∨ allIn words key ≠ []) := by
  constructor
  · intro searched
    obtain ⟨ran,flag⟩ := (suffixCommonMatchAll_iff tree words key result).mp searched.all
    exact ⟨(suffixMatches_long ready plain ran).2 List.length_append,flag⟩
  · rintro ⟨fits,flag⟩
    have found : ∀ rest, rest <:+ key → rest ≠ [] →
        tree.commonMatch rest [] = .ok (!(prefixesIn words rest).isEmpty,prefixesIn words rest) :=
      fun rest ends some_char => commonMatch_fits ready (fun nul => plain (ends.subset nul)) (fits rest ends some_char)
    exact ⟨(suffixCommonMatchAll_iff tree words key result).mpr ⟨suffixMatches_found found result,flag⟩,
      suffixFirst_found found⟩

/-- After one build the two searches do what they are for exactly when there is an array to
search in, the strings with a NUL and the bound of `result_pair` do not interfere at any
place of the key, and an output vector with a content is not left as it was. -/
theorem searched_iff (stable : Bool) (words : List Bytes) {key : Bytes} (plain : 0 ∉ key) : ∃ tree,
    (fresh.addStrings words).build stable = .ok (true,tree) ∧ ∀ result, Searched tree words key result ↔
      (words ≠ [] ∨ key = []) ∧ (∀ rest, rest <:+ key → rest ≠ [] → Fits words rest) ∧
        (result = [] ∨ allIn words key ≠ []) := by
  obtain ⟨tree,built,empty,full⟩ := build_fresh stable words
  refine ⟨tree,built,fun result => ?_⟩
  by_cases none : words = []
  · subst none
    rw [searched_unbuilt (empty rfl)]
    constructor
    · rintro ⟨rfl,rfl⟩
      exact ⟨.inr rfl,fun rest ends some_char => absurd (List.suffix_nil.mp ends) some_char,.inl rfl⟩
    · rintro ⟨some_word,_,flag⟩
      obtain rfl := some_word.resolve_left fun some_word => some_word rfl
      exact ⟨rfl,flag.resolve_right fun some_string => some_string rfl⟩
  · rw [searched_ready (full none) plain]
    exact ⟨fun both => ⟨.inl none,both⟩,And.right⟩

/-- The strings `ab` and `b` in the key `ab`, appended to a vector with a string in it. -/
theorem searched_ab : ∃ tree, (fresh.addStrings [[97,98],[98]]).build false = .ok (true,tree) ∧
    Searched tree [[97,98],[98]] [97,98] [[120]] := by
  have plain : (0 : UInt8) ∉ ([97,98] : Bytes) := by decide
  obtain ⟨tree,built,searched⟩ := searched_iff false [[97,98],[98]] plain
  refine ⟨tree,built,(searched [[120]]).mpr ⟨.inl (by decide),fun rest ends some_char => ⟨?_,?_⟩,.inr (by decide)⟩⟩
  · intro str member _
    rw [cString_eq ((by decide : ∀ str ∈ [[97,98],[98]], (0 : UInt8) ∉ str) str member)]
    exact member
  · exact Nat.le_trans (List.length_filter_le _ _) (by
      have short := ends.length_le
      rw [List.length_inits]
      exact Nat.le_trans (Nat.succ_le_succ short) (by decide))

/-- Without a match a vector with a string in it is left as it was, and the result is true. -/
theorem searched_unmatched : (∃ tree, (fresh.addStrings [[98]]).build false = .ok (true,tree) ∧
      tree.suffixCommonMatchAll [97] [[120]] = .ok (true,[[120]])) ∧
    ¬∀ stable words key, 0 ∉ key → ∀ tree, (fresh.addStrings words).build stable = .ok (true,tree) →
      ∀ result, Searched tree words key result := by
  have plain : (0 : UInt8) ∉ ([97] : Bytes) := by decide
  have computed : ((fresh.addStrings [[98]]).build false >>= fun built => built.2.suffixCommonMatchAll [97] [[120]]) =
      .ok (true,[[120]]) := rfl
  obtain ⟨tree,built,searched⟩ := searched_iff false [[98]] plain
  refine ⟨⟨tree,built,?_⟩,fun all => ?_⟩
  · rw [built] at computed
    exact computed
  · have wrong := ((searched [[120]]).mp (all false [[98]] [97] (by decide) tree built [[120]])).2.2
    exact absurd wrong (by decide)

end PrefixTree
end WebSearch
