import WebSearch.DartsSearch

/-! `traverse` of `util/darts/darts.h`: a search that can be continued from the node and
the position of the key where it stopped. -/
namespace WebSearch.Darts

/-- What `traverse` returns, and its two reference arguments. -/
structure Traversed where
  value : Int
  nodePos : Nat
  keyPos : Nat
  deriving DecidableEq

namespace DoubleArray

def traverseLoop (d : DoubleArray) : Bytes → Nat → Nat → Int → Except Fault Traversed
  | [], nodePos, keyPos, b => do
    let cell ← d.read b
    return if b = cell.check ∧ cell.base < 0 then ⟨-cell.base - 1,nodePos,keyPos⟩ else ⟨-1,nodePos,keyPos⟩
  | c :: key, nodePos, keyPos, b => do
    let cell ← d.read (b + c.toNat + 1)
    if b = cell.check then traverseLoop d key (b + c.toNat + 1).toNat (keyPos + 1) cell.base
    else return ⟨-2,nodePos,keyPos⟩

def traverse (d : DoubleArray) (key : Bytes) (nodePos keyPos : Nat) : Except Fault Traversed := do
  let start ← d.read nodePos
  traverseLoop d (key.drop keyPos) nodePos keyPos start.base

end DoubleArray

/-- The nodes that calls of `traverse` lead to from the root, and the bytes on the way. A
call that has failed can be followed by others from where it stopped. -/
inductive Reached (d : DoubleArray) : Bytes → Nat → Prop where
  | root : Reached d [] 0
  | next {pre : Bytes} {nodePos : Nat} (reached : Reached d pre nodePos) {key : Bytes} {keyPos : Nat} {result : Traversed}
    (returned : d.traverse key nodePos keyPos = .ok result) :
    Reached d (pre ++ (key.drop keyPos).take (result.keyPos - keyPos)) result.nodePos

/-- The node has siblings below it for the keys that begin with `pre`. -/
def At (keys : List Bytes) (w : Units) (pre : Bytes) (nodePos : Nat) : Prop :=
  ∃ (left right fuel begin : Nat) (nodes : List Node), (w.array nodePos).base = begin ∧ Range keys pre left right ∧
    Groups (keyCode keys pre.length) pre.length left right nodes ∧ Placed keys (fun _ => True) w fuel begin nodes

/-- The outcome for the rest `key` after `pre`: `n` bytes of it are on the way to a key. -/
structure Outcome (keys : List Bytes) (pre key : Bytes) (n : Nat) (value : Int) : Prop where
  inside : n ≤ key.length
  present : ∃ k ∈ keys, pre ++ key.take n <+: k
  stopped : n < key.length → value = -2 ∧ ∀ k ∈ keys, ¬pre ++ key.take (n + 1) <+: k
  found : n = key.length → (∃ v : Nat, value = v ∧ keys[v]? = some (pre ++ key)) ∨ value = -1 ∧ pre ++ key ∉ keys

section Traverse
variable {keys : List Bytes} {d : DoubleArray} {w : Units} {pre : Bytes}

theorem At.present {nodePos : Nat} (at_pre : At keys w pre nodePos) : ∃ k ∈ keys, pre <+: k := by
  obtain ⟨left,right,_,_,_,_,range,_⟩ := at_pre
  have inside : left < keys.length := by
    have := range.inside
    have := range.nonempty
    omega
  refine ⟨keys[left],List.getElem_mem inside,?_⟩
  have begins := (range.mem left inside).mpr ⟨Nat.le_refl _,range.nonempty⟩
  rwa [List.getD_eq_getElem _ _ inside] at begins

theorem Outcome.missed {c : UInt8} {key : Bytes} (present : ∃ k ∈ keys, pre <+: k) (absent : ∀ k ∈ keys, ¬pre ++ [c] <+: k) :
    Outcome keys pre (c :: key) 0 (-2) where
  inside := Nat.zero_le _
  present := by rwa [List.take_zero,List.append_nil]
  stopped _ := ⟨rfl,absent⟩
  found whole := absurd whole.symm (Nat.succ_ne_zero _)

theorem Outcome.step {c : UInt8} {key : Bytes} {n : Nat} {value : Int} (rest : Outcome keys (pre ++ [c]) key n value) :
    Outcome keys pre (c :: key) (n + 1) value := by
  have path (tail : Bytes) : pre ++ c :: tail = pre ++ [c] ++ tail := by rw [List.append_assoc,List.singleton_append]
  refine ⟨Nat.succ_le_succ rest.inside,?_,fun short => ?_,fun whole => ?_⟩
  · rw [List.take_succ_cons,path]
    exact rest.present
  · rw [List.take_succ_cons,path]
    exact rest.stopped (Nat.lt_of_succ_lt_succ short)
  · rw [path]
    exact rest.found (Nat.succ.inj whole)

theorem traverseLoop_at (sorted : keys.Pairwise (· ≤ ·)) (array : d.array = some w.array) (key : Bytes) {nodePos : Nat}
    (at_pre : At keys w pre nodePos) (keyPos : Nat) : ∃ n value nodePos',
    d.traverseLoop key nodePos keyPos (w.array nodePos).base = .ok ⟨value,nodePos',keyPos + n⟩ ∧
    Outcome keys pre key n value ∧ At keys w (pre ++ key.take n) nodePos' := by
  induction key generalizing pre nodePos keyPos with
  | nil =>
    have present := at_pre.present
    obtain ⟨left,right,fuel,begin,nodes,base,range,groups,placed⟩ := id at_pre
    cases fuel with
    | zero => exact placed.elim
    | succ fuel =>
      have step : d.traverseLoop [] nodePos keyPos begin =
          if (begin : Int) = (w.array begin).check ∧ (w.array begin).base < 0 then
            .ok ⟨-(w.array begin).base - 1,nodePos,keyPos⟩
          else .ok ⟨-1,nodePos,keyPos⟩ := by
        rw [DoubleArray.traverseLoop,read_cell array]
        change Except.ok (if (begin : Int) = (w.array begin).check ∧ (w.array begin).base < 0 then _ else _) = _
        split <;> rfl
      have ended {value : Int} (found : (∃ v : Nat, value = v ∧ keys[v]? = some pre) ∨ value = -1 ∧ pre ∉ keys) :
          Outcome keys pre [] 0 value :=
        ⟨Nat.le_refl _,by simpa using present,fun short => absurd short (Nat.lt_irrefl _),fun _ => by simpa using found⟩
      rw [base,step]
      obtain ⟨v,owned,leaf,key,-⟩ | ⟨other,absent⟩ := end_cell range groups placed
      · refine ⟨0,v,nodePos,?_,ended (.inl ⟨v,rfl,key⟩),by simpa using at_pre⟩
        have value : -(w.array begin).base - 1 = v := by omega
        rw [if_pos (by omega),value]
        rfl
      · refine ⟨0,-1,nodePos,?_,ended (.inr ⟨rfl,absent⟩),by simpa using at_pre⟩
        rw [if_neg (by omega)]
        rfl
  | cons c key ih =>
    have present := at_pre.present
    obtain ⟨left,right,fuel,begin,nodes,base,range,groups,placed⟩ := id at_pre
    cases fuel with
    | zero => exact placed.elim
    | succ fuel =>
      have next : d.read (begin + c.toNat + 1) = .ok (w.array (begin + (c.toNat + 1))) :=
        read_cell array (begin + (c.toNat + 1))
      have step : d.traverseLoop (c :: key) nodePos keyPos begin =
          if (begin : Int) = (w.array (begin + (c.toNat + 1))).check then
            d.traverseLoop key (begin + (c.toNat + 1)) (keyPos + 1) (w.array (begin + (c.toNat + 1))).base
          else .ok ⟨-2,nodePos,keyPos⟩ := by
        rw [DoubleArray.traverseLoop,next]
        rfl
      rw [base,step]
      obtain ⟨node,children,h,owned,child_base,child,below,placed⟩ | ⟨other,absent⟩ := byte_cell range groups placed sorted c
      · have at_child : At keys w (pre ++ [c]) (begin + (c.toNat + 1)) :=
          ⟨node.left,node.right,fuel,h,children,child_base,child,below,placed⟩
        obtain ⟨n,value,nodePos',returned,outcome,there⟩ := ih at_child (keyPos + 1)
        refine ⟨n + 1,value,nodePos',?_,outcome.step,?_⟩
        · rw [if_pos (by rw [owned]),returned,Nat.add_assoc,Nat.add_comm 1]
        · rwa [List.take_succ_cons,← List.singleton_append,← List.append_assoc]
      · refine ⟨0,-2,nodePos,?_,.missed present absent,by simpa using at_pre⟩
        rw [if_neg (by omega)]
        rfl

theorem traverse_at (sorted : keys.Pairwise (· ≤ ·)) (array : d.array = some w.array) {nodePos : Nat}
    (at_pre : At keys w pre nodePos) (key : Bytes) (keyPos : Nat) : ∃ n value nodePos',
    d.traverse key nodePos keyPos = .ok ⟨value,nodePos',keyPos + n⟩ ∧ Outcome keys pre (key.drop keyPos) n value ∧
    At keys w (pre ++ (key.drop keyPos).take n) nodePos' := by
  obtain ⟨n,value,nodePos',returned,outcome,there⟩ := traverseLoop_at sorted array (key.drop keyPos) at_pre keyPos
  refine ⟨n,value,nodePos',?_,outcome,there⟩
  rw [DoubleArray.traverse,read_cell array]
  exact returned

theorem reached_at (sorted : keys.Pairwise (· ≤ ·)) (array : d.array = some w.array) (root : At keys w [] 0) {nodePos : Nat}
    (reached : Reached d pre nodePos) : At keys w pre nodePos := by
  induction reached with
  | root => exact root
  | next _ returned ih =>
    rename_i key keyPos _
    obtain ⟨n,value,nodePos',returned',-,there⟩ := traverse_at sorted array ih key keyPos
    cases returned.symm.trans returned'
    rwa [Nat.add_sub_cancel_left]

end Traverse

/-- Whatever calls have led to a node, the next one goes on with the keys that begin with
the bytes on the way there. -/
theorem traverse_continues {keys : List Bytes} (sorted : keys.Pairwise (· ≤ ·)) (some_key : keys ≠ []) {d after : DoubleArray}
    (no_error : d.error = 0) (built : d.build keys = some (0,after)) {pre : Bytes} {nodePos : Nat}
    (reached : Reached after pre nodePos) (key : Bytes) (keyPos : Nat) : ∃ n value nodePos',
    after.traverse key nodePos keyPos = .ok ⟨value,nodePos',keyPos + n⟩ ∧ Outcome keys pre (key.drop keyPos) n value := by
  obtain ⟨after',built',-,w,fuel,nodes,array,root,range,groups,placed⟩ := build_built sorted some_key no_error
  cases built.symm.trans built'
  have at_root : At keys w [] 0 := ⟨0,keys.length,fuel,1,nodes,by rw [root]; rfl,range,groups,placed⟩
  obtain ⟨n,value,nodePos',returned,outcome,-⟩ := traverse_at sorted array (reached_at sorted array at_root reached) key keyPos
  exact ⟨n,value,nodePos',returned,outcome⟩

theorem Outcome.at_key {keys : List Bytes} {pre key : Bytes} {n : Nat} {value : Int} (outcome : Outcome keys pre key n value)
    (here : pre ++ key ∈ keys) : n = key.length ∧ ∃ v : Nat, value = v ∧ keys[v]? = some (pre ++ key) := by
  have whole : n = key.length := by
    by_contra other
    have short : n < key.length := Nat.lt_of_le_of_ne outcome.inside other
    exact (outcome.stopped short).2 _ here (List.prefix_append_right_inj pre |>.mpr (List.take_prefix _ _))
  exact ⟨whole,(outcome.found whole).resolve_right fun missing => missing.2 here⟩

/-- Of the keys `a`, `ab` and `c`, the first is looked up, and `ab` from where that stopped. -/
theorem traverse_continues_ab : ∃ after node node', (⟨none,0,0⟩ : DoubleArray).build [[97],[97,98],[99]] = some (0,after) ∧
    after.traverse [97] 0 0 = .ok ⟨0,node,1⟩ ∧ after.traverse [97,98] node 1 = .ok ⟨1,node',2⟩ := by
  have sorted : [[97],[97,98],([99] : Bytes)].Pairwise (· ≤ ·) := by decide
  have some_key : [[97],[97,98],([99] : Bytes)] ≠ [] := List.cons_ne_nil _ _
  obtain ⟨after,built,-⟩ := build_built sorted some_key (d := ⟨none,0,0⟩) rfl
  obtain ⟨n,value,node,first,outcome⟩ := traverse_continues sorted some_key rfl built .root [97] 0
  obtain ⟨rfl,v,rfl,found⟩ := outcome.at_key (by decide)
  obtain ⟨m,value,node',second,later⟩ := traverse_continues sorted some_key rfl built (.next .root first) [97,98] 1
  obtain ⟨rfl,u,rfl,there⟩ := later.at_key (by simp)
  obtain rfl : v = 0 := by
    rcases v with _ | _ | _ | v
    · rfl
    all_goals simp at found
  obtain rfl : u = 1 := by
    rcases u with _ | _ | _ | u
    · simp at there
    · rfl
    all_goals simp at there
  exact ⟨after,node,node',built,first,second⟩

end WebSearch.Darts
