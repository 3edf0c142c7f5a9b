import WebSearch.PrefixTree
import WebSearch.DartsSearch
import WebSearch.Library.Loop
import Mathlib.Data.List.Lex

/-! Queries of a built `PrefixTree`. -/
namespace WebSearch
open Darts

namespace PrefixTree

/-- The C strings of the words that the C string of the key begins with. -/
def matching (words : List Bytes) (key : Bytes) : List Bytes :=
  (cString key).inits.filter (· ∈ words.map cString)

def sorted (words : List Bytes) : List Bytes := words.insertionSort (· ≤ ·)

theorem cStrings_sorted (words : List Bytes) : ((sorted words).map cString).Pairwise (· ≤ ·) := by
  rw [List.pairwise_map]
  exact (List.pairwise_insertionSort (· ≤ ·) words).imp cString_le

theorem mem_sorted_cStrings {words : List Bytes} {s : Bytes} : s ∈ (sorted words).map cString ↔ s ∈ words.map cString :=
  ((List.perm_insertionSort (· ≤ ·) words).map cString).mem_iff

theorem prefixes_matching (words : List Bytes) (key : Bytes) :
    prefixes ((sorted words).map cString) [] (cString key) = matching words key := by
  have same : (cString key).inits.map ([] ++ ·) = (cString key).inits := List.map_id _
  rw [prefixes,same,matching]
  apply List.filter_congr
  intro s _
  rw [Bool.eq_iff_iff,decide_eq_true_eq,decide_eq_true_eq,mem_sorted_cStrings]

/-- The tree after a build for these words, and perhaps later additions. -/
structure Ready (tree : PrefixTree) (words : List Bytes) : Prop where
  data : ∃ later, tree.data = sorted words ++ later
  built : Built ((sorted words).map cString) tree.doubleArray

theorem named_of_mem {keys strings : List Bytes} {pairs : List ResultPair}
    (named : List.Forall₂ (FirstNames keys) strings pairs) {pair : ResultPair} (member : pair ∈ pairs) :
    ∃ s, Names keys s pair := by
  induction named with
  | nil => exact absurd member List.not_mem_nil
  | cons first _ ih =>
    obtain here | later := List.mem_cons.mp member
    · exact ⟨_,here ▸ first.toNames⟩
    · exact ih later

section Ready
variable {tree : PrefixTree} {words : List Bytes} (ready : Ready tree words)
include ready

/-- The index of a pair leads to a string with the C string that was found. -/
theorem names_data {s : Bytes} {pair : ResultPair} (named : Names ((sorted words).map cString) s pair) :
    ∃ v str, pair.value = (v : Nat) ∧ tree.data[v]? = some str ∧ str ∈ words ∧ cString str = s := by
  obtain ⟨v,value,found⟩ := named.value_eq
  obtain ⟨later,data⟩ := ready.data
  rw [List.getElem?_map] at found
  obtain ⟨str,here,same⟩ := Option.map_eq_some_iff.mp found
  refine ⟨v,str,value,?_,?_,same⟩
  · rw [data,List.getElem?_append_left (List.getElem?_eq_some_iff.mp here).1,here]
  · exact (List.perm_insertionSort (· ≤ ·) words).mem_iff.mp (List.mem_of_getElem? here)

theorem search_ready (key : Bytes) : ∃ pairs,
    List.Forall₂ (FirstNames ((sorted words).map cString)) (matching words key) pairs ∧
    tree.search key = .ok ⟨pairs.length,pairs.take (kMaxMatchNumber * sizeofResultPair)⟩ := by
  rw [← prefixes_matching]
  exact commonPrefixSearch_built (cStrings_sorted words) ready.built (cString key) _

theorem entry_ready {s : Bytes} {pair : ResultPair} (named : Names ((sorted words).map cString) s pair) :
    tree.entry pair.value = .ok (tree.data.getD pair.value.toNat []) ∧ tree.data.getD pair.value.toNat [] ∈ words ∧
      cString (tree.data.getD pair.value.toNat []) = s := by
  obtain ⟨v,str,value,found,member,same⟩ := names_data ready named
  have here : tree.data.getD v [] = str := by
    rw [List.getD_eq_getElem?_getD,found,Option.getD_some]
  rw [value,Int.toNat_natCast,here]
  refine ⟨?_,member,same⟩
  rw [entry,if_neg (by omega),Int.toNat_natCast,found]

theorem matchAt_ready {strings : List Bytes} {pairs : List ResultPair}
    (named : List.Forall₂ (FirstNames ((sorted words).map cString)) strings pairs) (short : pairs.length ≤ kMaxMatchNumber)
    {α : Type} (push : Nat → Bytes → α) {i : Nat} {pair : ResultPair} (here : pairs[i]? = some pair) :
    tree.matchAt ⟨pairs.length,pairs⟩ push i = .ok (push pair.value.toNat (tree.data.getD pair.value.toNat [])) := by
  have inside := (List.getElem?_eq_some_iff.mp here).1
  obtain ⟨s,name⟩ := named_of_mem named (List.mem_of_getElem? here)
  rw [matchAt,if_pos (by omega),here]
  simp only [(entry_ready ready name).1]
  rfl

/-- The searches stay inside `result_pair` when at most `kMaxMatchNumber` strings match. -/
theorem collect_ready (key : Bytes) : ∃ pairs,
    List.Forall₂ (FirstNames ((sorted words).map cString)) (matching words key) pairs ∧
    ∀ {α : Type} (push : Nat → Bytes → α) (result : List α), tree.collect push key result =
      if kMaxMatchNumber < pairs.length then .error .outsideResult
      else .ok (!pairs.isEmpty,result ++ pairs.map fun pair =>
        push pair.value.toNat (tree.data.getD pair.value.toNat [])) := by
  obtain ⟨pairs,named,found⟩ := search_ready ready key
  refine ⟨pairs,named,?_⟩
  intro α push result
  rw [collect,found]
  change (if kMaxMatchNumber < (pairs.take (kMaxMatchNumber * sizeofResultPair)).length then _ else _) = _
  have enough : kMaxMatchNumber < kMaxMatchNumber * sizeofResultPair := by decide
  by_cases long : kMaxMatchNumber < pairs.length
  · rw [if_pos long,if_pos (by rw [List.length_take]; omega)]
  · have whole : pairs.take (kMaxMatchNumber * sizeofResultPair) = pairs := List.take_of_length_le (by omega)
    rw [whole,if_neg long,if_neg long]
    cases pairs with
    | nil => rw [List.map_nil,List.append_nil]; rfl
    | cons pair pairs =>
      have each (i : Nat) (x : α) (here : ((pair :: pairs).map fun pair =>
          push pair.value.toNat (tree.data.getD pair.value.toNat []))[i]? = some x) :
          tree.matchAt ⟨(pair :: pairs).length,pair :: pairs⟩ push i = pure x := by
        rw [List.getElem?_map] at here
        obtain ⟨found_pair,found_here,same⟩ := Option.map_eq_some_iff.mp here
        rw [← same]
        exact matchAt_ready ready named (Nat.le_of_not_lt long) push found_here
      have all := Library.mapM_range_ok each
      rw [List.length_map] at all
      have some_pair : (pair :: pairs).length ≠ 0 := Nat.succ_ne_zero _
      rw [if_neg some_pair]
      change ((List.range (pair :: pairs).length).mapM _ >>= fun found => pure (true,result ++ found)) = _
      rw [all]
      rfl

end Ready

/-! Building. -/

def addStrings (tree : PrefixTree) (words : List Bytes) : PrefixTree := words.foldl addString tree

theorem addStrings_eq (tree : PrefixTree) (words : List Bytes) :
    (tree.addStrings words).data = tree.data ++ words ∧ (tree.addStrings words).keys = tree.keys ∧
      (tree.addStrings words).doubleArray = tree.doubleArray := by
  induction words generalizing tree with
  | nil => exact ⟨(List.append_nil _).symm,rfl,rfl⟩
  | cons str words ih =>
    obtain ⟨data,keys,array⟩ := ih (tree.addString str)
    refine ⟨?_,keys,array⟩
    change ((tree.addString str).addStrings words).data = _
    rw [data]
    change tree.data ++ [str] ++ words = _
    rw [List.append_assoc,List.singleton_append]

/-- A build on a tree without keys reads the strings that were added. -/
theorem build_ready (stable : Bool) (tree : PrefixTree) (no_keys : tree.keys = []) (no_error : tree.doubleArray.error = 0) :
    ∃ after, tree.build stable = .ok (true,after) ∧ after.doubleArray.error = 0 ∧ after.data = sorted tree.data ∧
      (tree.data = [] → after.keys = [] ∧ after.doubleArray.array = none) ∧
      (tree.data ≠ [] → Built ((sorted tree.data).map cString) after.doubleArray) := by
  have texts : ((sorted tree.data).map fun str => (⟨str,tree.epoch + 1⟩ : Pointer)).mapM
      (fun key => readKey key stable (tree.epoch + 1)) = Except.ok ((sorted tree.data).map cString) := by
    apply Library.mapM_map_ok
    intro str _
    rw [readKey,beq_self_eq_true,Bool.or_true,if_pos rfl]
    rfl
  have cleared : tree.doubleArray.clear.error = 0 := no_error
  have step (doubleArray : DoubleArray)
      (built : tree.doubleArray.clear.build ((sorted tree.data).map cString) = some (0,doubleArray)) :
      tree.build stable = .ok (true,⟨doubleArray,sorted tree.data,
        (sorted tree.data).map fun str => ⟨str,tree.epoch + 1⟩,tree.epoch + 1⟩) := by
    have not_failed : ¬tree.doubleArray.error < 0 := by
      rw [no_error]
      exact Int.lt_irrefl 0
    simp only [build,no_keys,List.nil_append,if_neg not_failed]
    change (List.mapM (fun key => readKey key stable (tree.epoch + 1))
      ((sorted tree.data).map fun str => (⟨str,tree.epoch + 1⟩ : Pointer)) >>= _) = _
    rw [texts]
    dsimp only [bind,Except.bind]
    rw [built]
    rfl
  by_cases none : tree.data = []
  · have empty : sorted tree.data = [] := by
      rw [none]
      rfl
    have built : tree.doubleArray.clear.build ((sorted tree.data).map cString) = some (0,tree.doubleArray.clear) := by
      rw [empty]
      rfl
    refine ⟨_,step _ built,cleared,rfl,?_,fun some_string => absurd none some_string⟩
    intro _
    refine ⟨?_,rfl⟩
    change (sorted tree.data).map _ = []
    rw [empty,List.map_nil]
  · have some_key : (sorted tree.data).map cString ≠ [] := by
      intro empty
      have length := congrArg List.length empty
      rw [List.length_map,sorted,List.length_insertionSort] at length
      exact none (List.eq_nil_of_length_eq_zero length)
    obtain ⟨doubleArray,built,error,array⟩ := build_built (cStrings_sorted tree.data) some_key cleared
    exact ⟨_,step _ built,error,rfl,fun empty => absurd empty none,fun _ => array⟩

theorem build_fresh (stable : Bool) (words : List Bytes) : ∃ tree, (fresh.addStrings words).build stable = .ok (true,tree) ∧
    (words = [] → tree.doubleArray.array = none) ∧ (words ≠ [] → Ready tree words) := by
  obtain ⟨data,keys,array⟩ := addStrings_eq fresh words
  have data : (fresh.addStrings words).data = words := data
  obtain ⟨tree,built,_,tree_data,empty,full⟩ := build_ready stable (fresh.addStrings words) keys (by rw [array]; rfl)
  rw [data] at tree_data empty full
  exact ⟨tree,built,fun none => (empty none).2,fun some_word => ⟨⟨[],by rw [tree_data,List.append_nil]⟩,full some_word⟩⟩

/-! The bound of `result_pair`. -/

theorem collect_unbuilt {tree : PrefixTree} (null : tree.doubleArray.array = none) {α : Type} (push : Nat → Bytes → α)
    (key : Bytes) (result : List α) : tree.collect push key result = .error .nullArray := by
  rw [collect,search,DoubleArray.commonPrefixSearch,DoubleArray.read,null]
  rfl

theorem search_inside {tree : PrefixTree} {words : List Bytes} (ready : Ready tree words) (key : Bytes) :
    ∃ found, tree.search key = .ok found ∧ (found.result.length ≤ kMaxMatchNumber ∧ found.num ≤ kMaxMatchNumber ↔
      (matching words key).length ≤ kMaxMatchNumber) := by
  obtain ⟨pairs,named,searched⟩ := search_ready ready key
  refine ⟨_,searched,?_⟩
  have enough : kMaxMatchNumber < kMaxMatchNumber * sizeofResultPair := by decide
  rw [named.length_eq]
  change (pairs.take _).length ≤ _ ∧ pairs.length ≤ _ ↔ _
  rw [List.length_take]
  omega

theorem collect_inside {tree : PrefixTree} {words : List Bytes} (ready : Ready tree words) {α : Type}
    (push : Nat → Bytes → α) (key : Bytes) (result : List α) :
    tree.collect push key result ≠ .error .outsideResult ↔ (matching words key).length ≤ kMaxMatchNumber := by
  obtain ⟨pairs,named,collected⟩ := collect_ready ready key
  rw [collected,named.length_eq]
  split
  · next long => exact ⟨fun same => absurd rfl same,fun short => absurd short (Nat.not_le.mpr long)⟩
  · next short =>
    refine ⟨fun _ => Nat.le_of_not_lt short,?_⟩
    intro _ same
    exact nomatch same

/-- No access outside `result_pair` exactly when at most `kMaxMatchNumber` C strings of
the dictionary are prefixes of the key. -/
theorem result_pair_inside_iff (stable : Bool) (words : List Bytes) (key : Bytes) : ∃ tree,
    (fresh.addStrings words).build stable = .ok (true,tree) ∧
    (words ≠ [] → ∃ found, tree.search key = .ok found ∧
      (found.result.length ≤ kMaxMatchNumber ∧ found.num ≤ kMaxMatchNumber ↔
        (matching words key).length ≤ kMaxMatchNumber)) ∧
    (∀ result, tree.commonMatch key result ≠ .error .outsideResult ↔ (matching words key).length ≤ kMaxMatchNumber) ∧
    (∀ result, tree.commonMatchCString key result ≠ .error .outsideResult ↔
      (matching words key).length ≤ kMaxMatchNumber) ∧
    (∀ result, tree.commonMatchKeyValue key result ≠ .error .outsideResult ↔
      (matching words key).length ≤ kMaxMatchNumber) := by
  obtain ⟨tree,built,empty,full⟩ := build_fresh stable words
  refine ⟨tree,built,fun some_word => search_inside (full some_word) key,?_⟩
  have inside {α : Type} (push : Nat → Bytes → α) (result : List α) : tree.collect push key result ≠ .error .outsideResult ↔
      (matching words key).length ≤ kMaxMatchNumber := by
    by_cases none : words = []
    · have unmatched : matching [] key = [] := List.filter_eq_nil_iff.mpr fun s _ => by simp
      rw [collect_unbuilt (empty none),none,unmatched]
      exact ⟨fun _ => Nat.zero_le _,fun _ same => nomatch same⟩
    · exact collect_inside (full none) push key result
  exact ⟨inside _,inside _,inside _⟩

/-- The strings of up to `n` bytes `a`. -/
def nested (n : Nat) : List Bytes := (List.range (n + 1)).map fun m => List.replicate m 97

theorem nested_ne_nil (n : Nat) : nested n ≠ [] := by
  intro none
  have length := congrArg List.length none
  rw [nested,List.length_map,List.length_range] at length
  exact Nat.succ_ne_zero n length

theorem cString_replicate (n : Nat) : cString (List.replicate n 97) = List.replicate n 97 := by
  apply cString_eq
  intro member
  exact absurd (List.eq_of_mem_replicate member) (by decide)

theorem nested_matching (n : Nat) : (matching (nested n) (List.replicate n 97)).length = n + 1 := by
  have all : matching (nested n) (List.replicate n 97) = (List.replicate n (97 : UInt8)).inits := by
    rw [matching,cString_replicate,List.filter_eq_self]
    intro s member
    have start : s <+: List.replicate n 97 := (List.mem_inits _ _).mp member
    have same : s = List.replicate s.length 97 :=
      List.eq_replicate_iff.mpr ⟨rfl,fun c inside => List.eq_of_mem_replicate (start.subset inside)⟩
    have bound := start.length_le
    rw [List.length_replicate] at bound
    rw [decide_eq_true_eq,same]
    apply List.mem_map.mpr
    refine ⟨_,?_,cString_replicate s.length⟩
    exact List.mem_map_of_mem (List.mem_range.mpr (Nat.lt_succ_of_le bound))
  rw [all,List.length_inits,List.length_replicate]

/-- All prefixes of a string of 1024 bytes. -/
theorem nested_outside : ∃ tree found, (fresh.addStrings (nested 1024)).build false = .ok (true,tree) ∧
    tree.search (List.replicate 1024 97) = .ok found ∧
    ¬(found.result.length ≤ kMaxMatchNumber ∧ found.num ≤ kMaxMatchNumber) ∧
    tree.commonMatch (List.replicate 1024 97) [] = .error .outsideResult ∧
    tree.commonMatchCString (List.replicate 1024 97) [] = .error .outsideResult ∧
    tree.commonMatchKeyValue (List.replicate 1024 97) [] = .error .outsideResult := by
  obtain ⟨tree,built,_,full⟩ := build_fresh false (nested 1024)
  have ready := full (nested_ne_nil 1024)
  have long : ¬(matching (nested 1024) (List.replicate 1024 97)).length ≤ kMaxMatchNumber := by
    rw [nested_matching]
    decide
  obtain ⟨found,searched,inside⟩ := search_inside ready (List.replicate 1024 97)
  have outside {α : Type} (push : Nat → Bytes → α) :
      tree.collect push (List.replicate 1024 97) [] = .error .outsideResult :=
    Classical.not_not.mp fun inside => long ((collect_inside ready push _ _).mp inside)
  exact ⟨tree,found,built,searched,fun short => long (inside.mp short),outside _,outside _,outside _⟩

end PrefixTree
end WebSearch
