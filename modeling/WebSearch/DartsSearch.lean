import WebSearch.DartsInsert
import Mathlib.Data.List.Infix
import Mathlib.Data.List.Forall2

/-! The searches on a built array. The cell of a code belongs to a place exactly when a
key goes on with that code, so a search follows the prefixes of its key. -/
namespace WebSearch.Darts

/-- The keys with a prefix of `pre ++ key` that has `pre` as a prefix, shortest first. -/
def prefixes (keys : List Bytes) (pre key : Bytes) : List Bytes := (key.inits.map (pre ++ ·)).filter (· ∈ keys)

/-- The pair names this string: its length and an index at which it is a key. -/
structure Names (keys : List Bytes) (s : Bytes) (pair : ResultPair) : Prop where
  length_eq : pair.length = s.length
  value_eq : ∃ v : Nat, pair.value = v ∧ keys[v]? = some s

/-- The first index at which the string is a key. -/
structure FirstNames (keys : List Bytes) (s : Bytes) (pair : ResultPair) : Prop extends Names keys s pair where
  first : ∀ i : Nat, (i : Int) < pair.value → keys[i]? ≠ some s

theorem prefixes_cons (keys : List Bytes) (pre : Bytes) (c : UInt8) (key : Bytes) : prefixes keys pre (c :: key) =
    (if pre ∈ keys then [pre] else []) ++ prefixes keys (pre ++ [c]) key := by
  have later : (key.inits.map (c :: ·)).map (pre ++ ·) = key.inits.map (pre ++ [c] ++ ·) := by
    rw [List.map_map]
    apply List.map_congr_left
    intro s _
    change pre ++ c :: s = pre ++ [c] ++ s
    rw [List.append_assoc,List.singleton_append]
  unfold prefixes
  rw [List.inits_cons,List.map_cons,List.append_nil,later,List.filter_cons]
  split
  · next present => rw [if_pos (of_decide_eq_true present),List.singleton_append]
  · next missing => rw [if_neg fun present => missing (decide_eq_true present),List.nil_append]

theorem prefixes_nil (keys : List Bytes) (pre : Bytes) : prefixes keys pre [] = if pre ∈ keys then [pre] else [] := by
  change [pre ++ []].filter (· ∈ keys) = _
  rw [List.append_nil,List.filter_cons]
  simp only [decide_eq_true_eq,List.filter_nil]

theorem prefixes_absent {keys : List Bytes} {pre : Bytes} (absent : ∀ key ∈ keys, ¬pre <+: key) (key : Bytes) :
    prefixes keys pre key = [] := by
  unfold prefixes
  rw [List.filter_eq_nil_iff]
  intro s member present
  obtain ⟨rest,_,same⟩ := List.mem_map.mp member
  rw [← same] at present
  exact absent _ (of_decide_eq_true present) (List.prefix_append pre rest)

def Found.addAll (found : Found) (resultLen : Nat) (pairs : List ResultPair) : Found :=
  pairs.foldl (fun found pair => found.add resultLen pair) found

theorem addAll_eq (resultLen num : Nat) (stored pairs : List ResultPair) :
    (⟨num,stored⟩ : Found).addAll resultLen pairs = ⟨num + pairs.length,stored ++ pairs.take (resultLen - num)⟩ := by
  induction pairs generalizing num stored with
  | nil =>
    rw [List.take_nil,List.append_nil]
    rfl
  | cons pair pairs ih =>
    have counted : num + 1 + pairs.length = num + (pair :: pairs).length := by
      rw [List.length_cons]
      omega
    change (Found.add ⟨num,stored⟩ resultLen pair).addAll resultLen pairs = _
    rw [Found.add,ih,counted]
    congr 1
    split
    · next room =>
      have room : num < resultLen := room
      rw [show resultLen - num = resultLen - (num + 1) + 1 by omega,List.take_succ_cons,List.append_assoc,
        List.singleton_append]
    · next full =>
      have full : ¬num < resultLen := full
      rw [show resultLen - num = 0 by omega,show resultLen - (num + 1) = 0 by omega,List.take_zero,List.take_zero]

theorem addAll_append (found : Found) (resultLen : Nat) (first second : List ResultPair) :
    found.addAll resultLen (first ++ second) = (found.addAll resultLen first).addAll resultLen second :=
  List.foldl_append

section Node
variable {keys : List Bytes} {pre : Bytes} {left right : Nat} {nodes : List Node} {w : Units} {S : Nat → Prop}
  {fuel begin : Nat} {d : DoubleArray} (array : d.array = some w.array) (range : Range keys pre left right)
  (groups : Groups (keyCode keys pre.length) pre.length left right nodes)
  (placed : Placed keys S w (fuel + 1) begin nodes)

include array in
theorem read_cell (p : Nat) : d.read p = .ok (w.array p) := by
  rw [DoubleArray.read,array]
  simp only [Int.toNat_natCast]
  rw [if_neg (by omega)]

include range groups placed in
theorem end_cell : (∃ v : Nat, (w.array begin).check = begin ∧ (w.array begin).base = -v - 1 ∧ keys[v]? = some pre ∧
      ∀ i < v, keys[i]? ≠ some pre) ∨
    (w.array begin).check ≠ begin ∧ pre ∉ keys := by
  obtain ⟨_,_,cells,links⟩ := placed
  have inside := range.inside
  by_cases ends : ∃ node ∈ nodes, node.code = 0
  · obtain ⟨node,member,zero⟩ := ends
    obtain ⟨lower,nonempty,upper⟩ := groups.bounds node member
    have key := groups.leaf range member zero (Nat.le_refl _) nonempty
    have short : ∀ i, node.left ≤ i → i < node.right → (keys.getD i []).length < node.depth := by
      intro i lower upper
      rw [groups.leaf range member zero lower upper,groups.depth_eq node member]
      exact Nat.lt_succ_self _
    have link := links node member
    rw [Linked,fetch_leaf short,if_pos rfl,zero] at link
    refine .inl ⟨node.left,(cells begin).mpr ?_,link,?_,?_⟩
    · rw [List.map_map]
      exact List.mem_map.mpr ⟨node,member,by change begin + node.code = begin; rw [zero,Nat.add_zero]⟩
    · rw [List.getD_eq_getElem _ _ (by omega)] at key
      exact List.getElem?_eq_some_iff.mpr ⟨_,key⟩
    · intro i before same
      obtain ⟨small,value⟩ := List.getElem?_eq_some_iff.mp same
      have at_i : keys.getD i [] = pre := by rw [List.getD_eq_getElem _ _ small,value]
      obtain ⟨after,within⟩ := (range.mem i small).mp (at_i ▸ List.prefix_refl pre)
      have coded : keyCode keys pre.length i = node.code := by rw [keyCode,at_i,zero,code_eq_zero]
      have own := (groups.range node member i after within).mp coded
      omega
  · refine .inr ⟨?_,?_⟩
    · intro owned
      obtain ⟨c,coded,same⟩ := List.mem_map.mp ((cells begin).mp owned)
      obtain ⟨node,member,code⟩ := List.mem_map.mp coded
      exact ends ⟨node,member,by omega⟩
    · intro present
      obtain ⟨i,small,same⟩ := List.mem_iff_getElem.mp present
      have at_i : keys.getD i [] = pre := by rw [List.getD_eq_getElem _ _ small,same]
      obtain ⟨lower,upper⟩ := (range.mem i small).mp (at_i ▸ List.prefix_refl pre)
      obtain ⟨node,member,code⟩ := groups.covers i lower upper
      apply ends
      refine ⟨node,member,?_⟩
      rw [code,keyCode,code_eq_zero,at_i]

include range groups placed in
theorem byte_cell (sorted : keys.Pairwise (· ≤ ·)) (c : UInt8) :
    (∃ (node : Node) (children : List Node) (h : Nat), (w.array (begin + (c.toNat + 1))).check = begin ∧
      (w.array (begin + (c.toNat + 1))).base = h ∧ Range keys (pre ++ [c]) node.left node.right ∧
      Groups (keyCode keys (pre ++ [c]).length) (pre ++ [c]).length node.left node.right children ∧
      Placed keys S w fuel h children) ∨
    (w.array (begin + (c.toNat + 1))).check ≠ begin ∧ ∀ key ∈ keys, ¬pre ++ [c] <+: key := by
  obtain ⟨_,_,cells,links⟩ := placed
  by_cases goes_on : ∃ node ∈ nodes, node.code = c.toNat + 1
  · obtain ⟨node,member,coded⟩ := goes_on
    have owned : (w.array (begin + (c.toNat + 1))).check = begin := by
      rw [cells,← coded]
      exact List.mem_map_of_mem (List.mem_map_of_mem member)
    obtain ⟨zero,_⟩ | ⟨d,children,other,fetched,some_child,child,below⟩ := groups.fetch_child sorted range member
    · omega
    · have same : d = c := UInt8.toNat_inj.mp (by omega)
      rw [same] at child below
      have link := links node member
      rw [Linked,fetched,if_neg some_child,coded] at link
      obtain ⟨h,base,placed⟩ := link
      exact .inl ⟨node,children,h,owned,base,child,below,placed⟩
  · refine .inr ⟨?_,?_⟩
    · intro owned
      obtain ⟨code,coded,same⟩ := List.mem_map.mp ((cells _).mp owned)
      obtain ⟨node,member,is_code⟩ := List.mem_map.mp coded
      exact goes_on ⟨node,member,by omega⟩
    · intro key present
      obtain ⟨i,small,same⟩ := List.mem_iff_getElem.mp present
      have absent := groups.absent range (fun node member coded => goes_on ⟨node,member,coded⟩) small
      rwa [List.getD_eq_getElem _ _ small,same] at absent

include range groups placed array in
theorem visit_eq (resultLen : Nat) : ∃ pairs,
    List.Forall₂ (FirstNames keys) (if pre ∈ keys then [pre] else []) pairs ∧
    ∀ found, d.visit resultLen pre.length begin found = .ok (found.addAll resultLen pairs) := by
  obtain ⟨v,owned,base,key,first⟩ | ⟨other,absent⟩ := end_cell range groups placed
  · refine ⟨[⟨v,pre.length⟩],?_,?_⟩
    · rw [if_pos (List.mem_of_getElem? key)]
      exact .cons ⟨⟨rfl,v,rfl,key⟩,fun i before => first i (Int.ofNat_lt.mp before)⟩ .nil
    · intro found
      have negative : (w.array begin).base < 0 := by omega
      have value : -(w.array begin).base - 1 = v := by omega
      rw [DoubleArray.visit,read_cell array]
      change Except.ok (if (begin : Int) = (w.array begin).check ∧ (w.array begin).base < 0 then _ else _) = _
      rw [if_pos ⟨by rw [owned],negative⟩,value]
      rfl
  · refine ⟨[],?_,?_⟩
    · rw [if_neg absent]
      exact .nil
    · intro found
      rw [DoubleArray.visit,read_cell array]
      change Except.ok (if (begin : Int) = (w.array begin).check ∧ (w.array begin).base < 0 then _ else _) = _
      rw [if_neg]
      · rfl
      · omega

end Node

section Search
variable {keys : List Bytes} {d : DoubleArray} (sorted : keys.Pairwise (· ≤ ·)) {w : Units} {S : Nat → Prop}
  (array : d.array = some w.array)
include sorted array

theorem commonPrefixLoop_eq (resultLen : Nat) (key : Bytes) {pre : Bytes} {left right fuel begin : Nat} {nodes : List Node}
    (range : Range keys pre left right) (groups : Groups (keyCode keys pre.length) pre.length left right nodes)
    (placed : Placed keys S w fuel begin nodes) : ∃ pairs, List.Forall₂ (FirstNames keys) (prefixes keys pre key) pairs ∧
      ∀ found, d.commonPrefixLoop resultLen key pre.length begin found = .ok (found.addAll resultLen pairs) := by
  induction key generalizing pre left right fuel begin nodes with
  | nil =>
    cases fuel with
    | zero => exact placed.elim
    | succ fuel =>
      rw [prefixes_nil]
      exact visit_eq array range groups placed resultLen
  | cons c key ih =>
    cases fuel with
    | zero => exact placed.elim
    | succ fuel =>
      obtain ⟨first,named,visited⟩ := visit_eq array range groups placed resultLen
      have next : d.read (begin + c.toNat + 1) = .ok (w.array (begin + (c.toNat + 1))) :=
        read_cell array (begin + (c.toNat + 1))
      have step (found : Found) : d.commonPrefixLoop resultLen (c :: key) pre.length begin found =
          if (begin : Int) = (w.array (begin + (c.toNat + 1))).check then
            d.commonPrefixLoop resultLen key (pre.length + 1) (w.array (begin + (c.toNat + 1))).base (found.addAll resultLen first)
          else .ok (found.addAll resultLen first) := by
        rw [DoubleArray.commonPrefixLoop,visited]
        simp only [next,Except.bind,bind]
        rfl
      rw [prefixes_cons]
      obtain ⟨node,children,h,owned,base,child,below,placed⟩ | ⟨other,absent⟩ := byte_cell range groups placed sorted c
      · obtain ⟨later,later_named,looped⟩ := ih child below placed
        refine ⟨first ++ later,List.rel_append named later_named,?_⟩
        intro found
        have depth : pre.length + 1 = (pre ++ [c]).length := by rw [List.length_append,List.length_singleton]
        rw [step,if_pos (by rw [owned]),base,depth,looped,addAll_append]
      · refine ⟨first,?_,?_⟩
        · rw [prefixes_absent absent,List.append_nil]
          exact named
        · intro found
          have different : (begin : Int) ≠ (w.array (begin + (c.toNat + 1))).check := by omega
          rw [step,if_neg different]

/-- The exact search finds the key with an index at which it was given, or nothing. -/
theorem exactMatchLoop_eq (len : Nat) {key pre : Bytes} {left right fuel begin : Nat} {nodes : List Node}
    (range : Range keys pre left right) (groups : Groups (keyCode keys pre.length) pre.length left right nodes)
    (placed : Placed keys S w fuel begin nodes) :
    (∃ v : Nat, keys[v]? = some (pre ++ key) ∧ d.exactMatchLoop len key begin = .ok ⟨v,len⟩) ∨
      pre ++ key ∉ keys ∧ d.exactMatchLoop len key begin = .ok ⟨-1,0⟩ := by
  induction key generalizing pre left right fuel begin nodes with
  | nil =>
    cases fuel with
    | zero => exact placed.elim
    | succ fuel =>
      have step : d.exactMatchLoop len [] begin =
          if (begin : Int) = (w.array begin).check ∧ (w.array begin).base < 0 then .ok ⟨-(w.array begin).base - 1,len⟩
          else .ok ⟨-1,0⟩ := by
        rw [DoubleArray.exactMatchLoop,read_cell array]
        change Except.ok (if (begin : Int) = (w.array begin).check ∧ (w.array begin).base < 0 then _ else _) = _
        split <;> rfl
      rw [step,List.append_nil]
      obtain ⟨v,owned,base,key,_⟩ | ⟨other,absent⟩ := end_cell range groups placed
      · have value : -(w.array begin).base - 1 = v := by omega
        exact .inl ⟨v,key,by rw [if_pos (by omega),value]⟩
      · exact .inr ⟨absent,by rw [if_neg (by omega)]⟩
  | cons c key ih =>
    cases fuel with
    | zero => exact placed.elim
    | succ fuel =>
      have next : d.read (begin + c.toNat + 1) = .ok (w.array (begin + (c.toNat + 1))) :=
        read_cell array (begin + (c.toNat + 1))
      have step : d.exactMatchLoop len (c :: key) begin =
          if (begin : Int) = (w.array (begin + (c.toNat + 1))).check then
            d.exactMatchLoop len key (w.array (begin + (c.toNat + 1))).base
          else .ok ⟨-1,0⟩ := by
        rw [DoubleArray.exactMatchLoop,next]
        rfl
      have path : pre ++ c :: key = pre ++ [c] ++ key := by rw [List.append_assoc,List.singleton_append]
      rw [step,path]
      obtain ⟨node,children,h,owned,base,child,below,placed⟩ | ⟨other,absent⟩ := byte_cell range groups placed sorted c
      · rw [if_pos (by rw [owned]),base]
        exact ih child below placed
      · refine .inr ⟨fun present => absent _ present (List.prefix_append _ _),?_⟩
        rw [if_neg (by omega)]

end Search

section Built
variable {keys : List Bytes} {d : DoubleArray} (sorted : keys.Pairwise (· ≤ ·)) (built : Built keys d)
include sorted built

theorem commonPrefixSearch_built (key : Bytes) (resultLen : Nat) :
    ∃ pairs, List.Forall₂ (FirstNames keys) (prefixes keys [] key) pairs ∧
      d.commonPrefixSearch key resultLen = .ok ⟨pairs.length,pairs.take resultLen⟩ := by
  obtain ⟨w,fuel,nodes,array,root,range,groups,placed⟩ := built
  obtain ⟨pairs,named,looped⟩ := commonPrefixLoop_eq sorted array resultLen key range groups placed
  refine ⟨pairs,named,?_⟩
  have start : d.read 0 = .ok ⟨1,0⟩ := by
    rw [← root]
    exact read_cell array 0
  rw [DoubleArray.commonPrefixSearch,start]
  exact (looped ⟨0,[]⟩).trans (by rw [addAll_eq,Nat.zero_add,List.nil_append,Nat.sub_zero])

theorem exactMatchSearch_built (key : Bytes) :
    (∃ v : Nat, keys[v]? = some key ∧ d.exactMatchSearch key = .ok ⟨v,key.length⟩) ∨
      key ∉ keys ∧ d.exactMatchSearch key = .ok ⟨-1,0⟩ := by
  obtain ⟨w,fuel,nodes,array,root,range,groups,placed⟩ := built
  have start : d.read 0 = .ok ⟨1,0⟩ := by
    rw [← root]
    exact read_cell array 0
  have search : d.exactMatchSearch key = d.exactMatchLoop key.length key (1 : Nat) := by
    rw [DoubleArray.exactMatchSearch,start]
    rfl
  rw [search]
  exact exactMatchLoop_eq sorted array key.length range groups placed

end Built

end WebSearch.Darts
