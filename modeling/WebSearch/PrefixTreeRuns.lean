import WebSearch.PrefixTreeMatch

/-! What `PrefixTree` answers after one build, and after any calls of `AddString` and
`Build`. -/
namespace WebSearch
open Darts

namespace PrefixTree

/-! The answers for a set of words. -/

def prefixesIn (words : List Bytes) (key : Bytes) : List Bytes := key.inits.filter (· ∈ words)

/-- The shortest word at the first place of the key where a word begins. -/
def firstIn (words : List Bytes) : Bytes → Option Bytes
  | [] => none
  | c :: key => match prefixesIn words (c :: key) with
    | str :: _ => some str
    | [] => firstIn words key

/-- The words that begin at each place of the key. -/
def allIn (words : List Bytes) : Bytes → List Bytes
  | [] => []
  | c :: key => prefixesIn words (c :: key) ++ allIn words key

theorem mem_prefixesIn {words : List Bytes} {key str : Bytes} : str ∈ prefixesIn words key ↔ str ∈ words ∧ str <+: key := by
  rw [prefixesIn,List.mem_filter,List.mem_inits,decide_eq_true_eq]
  exact And.comm

theorem inits_ascending (key : Bytes) : key.inits.Pairwise fun s t => s.length < t.length := by
  induction key with
  | nil => exact List.pairwise_singleton _ _
  | cons c key ih =>
    rw [List.inits_cons,List.pairwise_cons,List.pairwise_map]
    refine ⟨?_,ih.imp Nat.succ_lt_succ⟩
    intro s member
    obtain ⟨rest,_,same⟩ := List.mem_map.mp member
    rw [← same]
    exact Nat.succ_pos _

theorem prefixesIn_ascending (words : List Bytes) (key : Bytes) :
    (prefixesIn words key).Pairwise fun s t => s.length < t.length :=
  (inits_ascending key).sublist List.filter_sublist

section NoNul
variable {words : List Bytes} (noNul : ∀ str ∈ words, 0 ∉ str)
include noNul

theorem map_cString : words.map cString = words :=
  (List.map_congr_left fun str member => cString_eq (noNul str member)).trans (List.map_id _)

/-- What comes after a NUL cannot be part of a word. -/
theorem prefixes_cString (pre key : Bytes) : prefixes words pre (cString key) = prefixes words pre key := by
  induction key generalizing pre with
  | nil => rfl
  | cons c key ih =>
    rw [cString_cons]
    by_cases nul : c = 0
    · have absent : ∀ str ∈ words, ¬pre ++ [c] <+: str := by
        intro str member start
        apply noNul str member
        rw [← nul]
        exact start.subset (List.mem_append_right _ (List.mem_singleton_self c))
      rw [if_pos nul,prefixes_cons,prefixes_nil,prefixes_absent absent,List.append_nil]
    · rw [if_neg nul,prefixes_cons,prefixes_cons,ih]

theorem matching_eq (key : Bytes) : matching words key = prefixesIn words key := by
  have same (s : Bytes) : s.inits.filter (· ∈ words) = prefixes words [] s := by
    rw [prefixes]
    exact congrArg _ (List.map_id _).symm
  rw [matching,map_cString noNul,prefixesIn,same,same,prefixes_cString noNul]

end NoNul

/-- The tree answers for these words. -/
structure Answers (tree : PrefixTree) (words : List Bytes) : Prop where
  commonMatch : ∀ key, (prefixesIn words key).length ≤ kMaxMatchNumber →
    tree.commonMatch key [] = .ok (!(prefixesIn words key).isEmpty,prefixesIn words key)
  exactMatch : ∀ key, 0 ∉ key ∨ cString key ∉ words → tree.exactMatch key = .ok (decide (key ∈ words))
  exactMatchKeyValue : ∀ key, 0 ∉ key ∨ cString key ∉ words →
    tree.exactMatchKeyValue key = .ok (if key ∈ words then some key else none)
  suffixFirst : ∀ key, (∀ rest, rest <:+ key → (prefixesIn words rest).length ≤ kMaxMatchNumber) →
    tree.suffixFirstCommonMatch key = .ok (firstIn words key)
  suffixAll : ∀ key, (∀ rest, rest <:+ key → (prefixesIn words rest).length ≤ kMaxMatchNumber) →
    tree.suffixCommonMatchAll key [] = .ok (!(allIn words key).isEmpty,allIn words key)

section Suffixes
variable {tree : PrefixTree} {words : List Bytes}

theorem suffixFirst_found {key : Bytes} (found : ∀ rest, rest <:+ key → rest ≠ [] →
    tree.commonMatch rest [] = .ok (!(prefixesIn words rest).isEmpty,prefixesIn words rest)) :
    tree.suffixFirstCommonMatch key = .ok (firstIn words key) := by
  induction key with
  | nil => rfl
  | cons c key ih =>
    have later := ih fun rest ends => found rest (ends.trans (List.suffix_cons c key))
    rw [suffixFirstCommonMatch,found _ (List.suffix_refl _) (List.cons_ne_nil c key),firstIn]
    cases prefixesIn words (c :: key) with
    | nil => exact later
    | cons str strings => rfl

theorem suffixMatches_found {key : Bytes} (found : ∀ rest, rest <:+ key → rest ≠ [] →
    tree.commonMatch rest [] = .ok (!(prefixesIn words rest).isEmpty,prefixesIn words rest)) (result : List Bytes) :
    tree.suffixMatches key result = .ok (result ++ allIn words key) := by
  induction key generalizing result with
  | nil => rw [suffixMatches,allIn,List.append_nil]
  | cons c key ih =>
    have later := ih fun rest ends => found rest (ends.trans (List.suffix_cons c key))
    rw [suffixMatches,found _ (List.suffix_refl _) (List.cons_ne_nil c key),allIn,← List.append_assoc]
    cases prefixesIn words (c :: key) with
    | nil =>
      rw [List.append_nil]
      exact later result
    | cons str strings => exact later (result ++ (str :: strings))

end Suffixes

section Answers
variable {tree : PrefixTree} {words : List Bytes} (ready : Ready tree words) (noNul : ∀ str ∈ words, 0 ∉ str)
include ready noNul

theorem named_strings {strings : List Bytes} {pairs : List ResultPair}
    (named : List.Forall₂ (FirstNames ((sorted words).map cString)) strings pairs) :
    pairs.map (fun pair => tree.data.getD pair.value.toNat []) = strings := by
  induction named with
  | nil => rfl
  | cons name _ ih =>
    obtain ⟨_,member,same⟩ := entry_ready ready name.toNames
    rw [cString_eq (noNul _ member)] at same
    rw [List.map_cons,same,ih]

theorem commonMatch_ready {key : Bytes} (short : (prefixesIn words key).length ≤ kMaxMatchNumber) :
    tree.commonMatch key [] = .ok (!(prefixesIn words key).isEmpty,prefixesIn words key) := by
  obtain ⟨pairs,named,collected⟩ := collect_ready ready key
  rw [matching_eq noNul] at named
  have strings := named_strings ready noNul named
  have length := named.length_eq
  rw [commonMatch,collected,if_neg (by omega),← strings,List.isEmpty_map,List.nil_append]

theorem exactMatchSearch_ready {key : Bytes} (exact_key : 0 ∉ key ∨ cString key ∉ words) :
    (key ∈ words ∧ ∃ pair, tree.doubleArray.exactMatchSearch (cString key) = .ok pair ∧ pair.value ≠ -1 ∧
      tree.entry pair.value = .ok key) ∨
    key ∉ words ∧ tree.doubleArray.exactMatchSearch (cString key) = .ok ⟨-1,0⟩ := by
  obtain ⟨v,found,searched⟩ | ⟨absent,searched⟩ := exactMatchSearch_built (cStrings_sorted words) ready.built (cString key)
  · have name : Names ((sorted words).map cString) (cString key) ⟨v,(cString key).length⟩ := ⟨rfl,v,rfl,found⟩
    obtain ⟨entered,member,same⟩ := entry_ready ready name
    rw [cString_eq (noNul _ member)] at same
    rw [same] at entered member
    have plain : 0 ∉ key := exact_key.resolve_right fun other => other member
    rw [cString_eq plain] at member entered
    refine .inl ⟨member,_,searched,?_,entered⟩
    change (v : Int) ≠ -1
    omega
  · refine .inr ⟨?_,searched⟩
    intro member
    apply absent
    exact mem_sorted_cStrings.mpr (List.mem_map_of_mem member)

theorem suffixFirst_ready {key : Bytes} (short : ∀ rest, rest <:+ key → (prefixesIn words rest).length ≤ kMaxMatchNumber) :
    tree.suffixFirstCommonMatch key = .ok (firstIn words key) :=
  suffixFirst_found fun rest ends _ => commonMatch_ready ready noNul (short rest ends)

theorem suffixMatches_ready {key : Bytes} (short : ∀ rest, rest <:+ key → (prefixesIn words rest).length ≤ kMaxMatchNumber)
    (result : List Bytes) : tree.suffixMatches key result = .ok (result ++ allIn words key) :=
  suffixMatches_found (fun rest ends _ => commonMatch_ready ready noNul (short rest ends)) result

theorem answers_ready : Answers tree words where
  commonMatch _ short := commonMatch_ready ready noNul short
  exactMatch key exact_key := by
    rw [exactMatch]
    obtain ⟨member,pair,searched,value,_⟩ | ⟨absent,searched⟩ := exactMatchSearch_ready ready noNul exact_key
    · rw [searched,decide_eq_true member]
      exact congrArg Except.ok (bne_iff_ne.mpr value)
    · rw [searched,decide_eq_false absent]
      rfl
  exactMatchKeyValue key exact_key := by
    rw [exactMatchKeyValue]
    obtain ⟨member,pair,searched,value,entered⟩ | ⟨absent,searched⟩ := exactMatchSearch_ready ready noNul exact_key
    · rw [searched,if_pos member]
      change (if pair.value = -1 then _ else _) = _
      rw [if_neg value,entered]
      rfl
    · rw [searched,if_neg absent]
      rfl
  suffixFirst _ short := suffixFirst_ready ready noNul short
  suffixAll key short := by
    rw [suffixCommonMatchAll,suffixMatches_ready ready noNul short,List.nil_append]
    rfl

end Answers

/-- After one build of NUL-free strings every NUL-free key is answered by what was
added, with at most `kMaxMatchNumber` results. -/
theorem build_answers (stable : Bool) {words : List Bytes} (some_word : words ≠ []) (noNul : ∀ str ∈ words, 0 ∉ str) :
    ∃ tree, (fresh.addStrings words).build stable = .ok (true,tree) ∧ ∀ key, 0 ∉ key →
      ((prefixesIn words key).length ≤ kMaxMatchNumber → ∃ matched out, tree.commonMatch key [] = .ok (matched,out) ∧
        (matched = true ↔ ∃ str ∈ words, str <+: key) ∧ (∀ str, str ∈ out ↔ str ∈ words ∧ str <+: key) ∧
        out.Pairwise fun s t => s.length < t.length) ∧
      tree.exactMatch key = .ok (decide (key ∈ words)) ∧
      tree.exactMatchKeyValue key = .ok (if key ∈ words then some key else none) := by
  obtain ⟨tree,built,_,full⟩ := build_fresh stable words
  have answers := answers_ready (full some_word) noNul
  refine ⟨tree,built,?_⟩
  intro key plain
  refine ⟨?_,answers.exactMatch key (.inl plain),answers.exactMatchKeyValue key (.inl plain)⟩
  intro short
  refine ⟨_,_,answers.commonMatch key short,?_,fun str => mem_prefixesIn,prefixesIn_ascending words key⟩
  rw [Bool.not_eq_true',List.isEmpty_eq_false_iff_exists_mem]
  simp only [mem_prefixesIn]

theorem build_answers_abab : ∃ tree, (fresh.addStrings [[97,98],[97],[97,98],[98]]).build false = .ok (true,tree) ∧
    ∀ key, 0 ∉ key →
      ((prefixesIn [[97,98],[97],[97,98],[98]] key).length ≤ kMaxMatchNumber →
        ∃ matched out, tree.commonMatch key [] = .ok (matched,out) ∧
          (matched = true ↔ ∃ str ∈ ([[97,98],[97],[97,98],[98]] : List Bytes), str <+: key) ∧
          (∀ str, str ∈ out ↔ str ∈ ([[97,98],[97],[97,98],[98]] : List Bytes) ∧ str <+: key) ∧
          out.Pairwise fun s t => s.length < t.length) ∧
      tree.exactMatch key = .ok (decide (key ∈ ([[97,98],[97],[97,98],[98]] : List Bytes))) ∧
      tree.exactMatchKeyValue key = .ok (if key ∈ ([[97,98],[97],[97,98],[98]] : List Bytes) then some key else none) :=
  build_answers false (by decide) (by decide)

/-! Calls in any order. -/

inductive Op
  | addString (str : Bytes)
  | build
  deriving DecidableEq

def call (stable : Bool) (tree : PrefixTree) : Op → Except Fault PrefixTree
  | .addString str => .ok (tree.addString str)
  | .build => do return (← tree.build stable).2

def run (stable : Bool) (ops : List Op) : Except Fault PrefixTree := ops.foldlM (call stable) fresh

/-- All strings added so far, and those added before the last build. -/
structure Dictionary where
  added : List Bytes
  words : List Bytes

def Dictionary.call (dict : Dictionary) : Op → Dictionary
  | .addString str => { dict with added := dict.added ++ [str] }
  | .build => { dict with words := dict.added }

def Dictionary.after (ops : List Op) : Dictionary := ops.foldl Dictionary.call ⟨[],[]⟩

/-- A string is added without a NUL, and a build comes before any other build that had
strings. -/
def Meets (dict : Dictionary) : Op → Prop
  | .addString str => 0 ∉ str
  | .build => dict.words = []

instance (dict : Dictionary) (op : Op) : Decidable (Meets dict op) :=
  match op with
  | .addString str => inferInstanceAs (Decidable (0 ∉ str))
  | .build => inferInstanceAs (Decidable (dict.words = []))

/-- Every call meets the condition. -/
def Admitted : Dictionary → List Op → Prop
  | _, [] => True
  | dict, op :: ops => Meets dict op ∧ Admitted (dict.call op) ops

structure Tracks (tree : PrefixTree) (dict : Dictionary) : Prop where
  perm : tree.data.Perm dict.added
  added_noNul : ∀ str ∈ dict.added, 0 ∉ str
  words_noNul : ∀ str ∈ dict.words, 0 ∉ str
  no_error : tree.doubleArray.error = 0
  unbuilt : dict.words = [] → tree.keys = []
  ready : dict.words ≠ [] → Ready tree dict.words

theorem sorted_perm {words others : List Bytes} (perm : words.Perm others) : sorted words = sorted others := by
  have same : (sorted words).Perm (sorted others) :=
    (List.perm_insertionSort _ _).trans (perm.trans (List.perm_insertionSort _ _).symm)
  exact same.eq_of_pairwise (fun _ _ _ _ below above => List.le_antisymm below above)
    (List.pairwise_insertionSort _ words) (List.pairwise_insertionSort _ others)

theorem call_tracks (stable : Bool) {tree : PrefixTree} {dict : Dictionary} {op : Op} (tracks : Tracks tree dict)
    (meets : Meets dict op) : ∃ after, call stable tree op = .ok after ∧ Tracks after (dict.call op) := by
  cases op with
  | addString str =>
    refine ⟨_,rfl,tracks.perm.append_right [str],?_,tracks.words_noNul,tracks.no_error,tracks.unbuilt,?_⟩
    · intro other member
      obtain old | last := List.mem_append.mp member
      · exact tracks.added_noNul other old
      · rw [List.mem_singleton.mp last]
        exact meets
    · intro some_word
      obtain ⟨⟨later,data⟩,built⟩ := tracks.ready some_word
      refine ⟨⟨later ++ [str],?_⟩,built⟩
      change tree.data ++ [str] = sorted dict.words ++ (later ++ [str])
      rw [data,List.append_assoc]
  | build =>
    obtain ⟨after,built,no_error,data,empty,full⟩ := build_ready stable tree (tracks.unbuilt meets) tracks.no_error
    have perm : after.data.Perm tree.data := by
      rw [data]
      exact List.perm_insertionSort _ _
    refine ⟨after,?_,perm.trans tracks.perm,tracks.added_noNul,tracks.added_noNul,no_error,?_,?_⟩
    · rw [call,built]
      rfl
    · intro none
      have none : dict.added = [] := none
      exact (empty (by rw [← List.perm_nil,← none]; exact tracks.perm)).1
    · intro some_word
      have some_string : tree.data ≠ [] := by
        intro none
        apply some_word
        have perm := tracks.perm
        rw [none] at perm
        exact perm.nil_eq.symm
      have built := full some_string
      rw [sorted_perm tracks.perm] at built data
      exact ⟨⟨[],by rw [data,List.append_nil]; rfl⟩,built⟩

theorem run_tracks (stable : Bool) {ops : List Op} {tree : PrefixTree} {dict : Dictionary} (tracks : Tracks tree dict)
    (admitted : Admitted dict ops) :
    ∃ after, ops.foldlM (call stable) tree = .ok after ∧ Tracks after (ops.foldl Dictionary.call dict) := by
  induction ops generalizing tree dict with
  | nil => exact ⟨tree,rfl,tracks⟩
  | cons op ops ih =>
    obtain ⟨meets,admitted⟩ := admitted
    obtain ⟨middle,called,tracks⟩ := call_tracks stable tracks meets
    obtain ⟨after,ran,tracks⟩ := ih tracks admitted
    refine ⟨after,?_,tracks⟩
    rw [List.foldlM_cons,called]
    exact ran

theorem fresh_tracks : Tracks fresh ⟨[],[]⟩ where
  perm := List.Perm.refl _
  added_noNul _ member := absurd member List.not_mem_nil
  words_noNul _ member := absurd member List.not_mem_nil
  no_error := rfl
  unbuilt _ := rfl
  ready some_word := absurd rfl some_word

def lateBuild : List Op := [.build,.addString [98],.addString [97],.build,.addString [99]]

def rebuilt : List Op := [.addString [98],.build,.addString [97],.build]

end PrefixTree
end WebSearch
