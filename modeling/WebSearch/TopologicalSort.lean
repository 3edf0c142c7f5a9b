import WebSearch.DependencyExpansion
import Mathlib.Data.List.Perm.Subperm

/-! `blade/dependency_analyzer.py`: `_topological_sort` and `analyze_deps`. The
predecessors of a target are its expanded dependencies. `keysOrder` is the order in
which a dictionary gives its keys. -/
namespace WebSearch.DependencyAnalyzer
open Library Relation Function

/-- How `analyze_deps` ends without a result: as `_expand_deps` does, or by the
assertion of the sort. -/
inductive Stop
  | failure (failure : Failure)
  | assertion (x : TargetId)
  deriving DecidableEq

/-- The dictionaries `numpreds`, with its keys in the order of insertion, and
`successors`, where a missing entry is empty. -/
structure Counts where
  keys : List TargetId
  numpreds : TargetId → Option Int
  successors : TargetId → List TargetId

def Counts.addKey (counts : Counts) (id : TargetId) : Counts :=
  if counts.numpreds id = none then
    {counts with keys := counts.keys ++ [id],numpreds := update counts.numpreds id (some 0)}
  else counts

/-- The body of the loop over the dependencies of `second`. -/
def countDep (second : TargetId) (counts : Counts) (first : TargetId) : Except Stop Counts :=
  let counts := counts.addKey first
  match counts.numpreds second with
  | none => .error (.failure (.keyError second))
  | some n => .ok {counts with
      numpreds := update counts.numpreds second (some (n + 1))
      successors := update counts.successors first (counts.successors first ++ [second])}

def countTarget (pairlist : Targets) (counts : Counts) (second : TargetId) : Except Stop Counts :=
  match pairlist.find second with
  | none => .error (.failure (.keyError second))
  | some target => target.expandedDeps.foldlM (countDep second) (counts.addKey second)

def countPreds (pairlist : Targets) : Except Stop Counts :=
  pairlist.order.foldlM (countTarget pairlist) ⟨[],fun _ => none,fun _ => []⟩

/-- The body of the loop over the successors of a target: the answer grows. -/
def knockDown (state : List TargetId × (TargetId → Option Int)) (y : TargetId) :
    Except Stop (List TargetId × (TargetId → Option Int)) :=
  match state.2 y with
  | none => .error (.failure (.keyError y))
  | some n => .ok (if n - 1 = 0 then state.1 ++ [y] else state.1,update state.2 y (some (n - 1)))

/-- The loop over the answer, at place `i` of it. -/
def answerLoop (successors : TargetId → List TargetId) :
    Nat → Nat → List TargetId × (TargetId → Option Int) → Except Stop (List TargetId)
  | 0, _, _ => .error (.failure .outOfFuel)
  | fuel + 1, i, (answer,numpreds) => match answer[i]? with
    | none => .ok answer
    | some x => match numpreds x with
      | none => .error (.failure (.keyError x))
      | some n =>
        if n = 0 then do
          let state ← (successors x).foldlM knockDown (answer,update numpreds x none)
          answerLoop successors fuel (i + 1) state
        else .error (.assertion x)

def topologicalSort (keysOrder : List TargetId → List TargetId) (pairlist : Targets) : Except Stop (List TargetId) := do
  let counts ← countPreds pairlist
  let answer := (keysOrder counts.keys).filter fun x => counts.numpreds x = some 0
  answerLoop counts.successors (counts.keys.length + 1) 0 (answer,counts.numpreds)

def analyzeDeps (keysOrder : List TargetId → List TargetId) (relatedTargets : Targets) : Except Stop (List TargetId) := do
  let targets ← (expandDeps relatedTargets).mapError .failure
  topologicalSort keysOrder targets

/-! Counting. A graph whose dependencies are listed once, exist, and are transitive:
what `_expand_deps` leaves behind. -/

def Targets.preds (targets : Targets) (id : TargetId) : List TargetId := (targets.deps id).getD []

structure Transitive (targets : Targets) : Prop where
  nodup : ∀ id, (targets.preds id).Nodup
  inside : ∀ id, ∀ d ∈ targets.preds id, d ∈ targets.order
  irrefl : ∀ id, id ∉ targets.preds id
  trans : ∀ id, ∀ d ∈ targets.preds id, ∀ e ∈ targets.preds d, e ∈ targets.preds id

section Count
variable {targets : Targets} {counted : TargetId → Nat} {succs : TargetId → List TargetId} {counts : Counts}

/-- The dictionaries hold these numbers and lists; a target that is no key yet counts
for nothing. -/
structure Counted (targets : Targets) (counted : TargetId → Nat) (succs : TargetId → List TargetId)
    (counts : Counts) : Prop where
  nodup : counts.keys.Nodup
  inside : ∀ x ∈ counts.keys, x ∈ targets.order
  numpreds : ∀ x, counts.numpreds x = if x ∈ counts.keys then some (counted x : Int) else none
  zero : ∀ x, x ∉ counts.keys → counted x = 0
  successors : counts.successors = succs

theorem Counted.addKey (before : Counted targets counted succs counts) {id : TargetId} (present : id ∈ targets.order) :
    Counted targets counted succs (counts.addKey id) ∧ ∀ x, x ∈ (counts.addKey id).keys ↔ x ∈ counts.keys ∨ x = id := by
  obtain ⟨nodup,inside,numpreds,zero,successors⟩ := before
  rw [Counts.addKey,numpreds]
  by_cases known : id ∈ counts.keys
  · rw [if_pos known,if_neg (Option.some_ne_none _)]
    refine ⟨⟨nodup,inside,numpreds,zero,successors⟩,fun x => ⟨.inl,?_⟩⟩
    intro member
    rcases member with member | rfl
    · exact member
    · exact known
  · rw [if_neg known,if_pos rfl]
    refine ⟨⟨?_,?_,?_,?_,successors⟩,fun x => by simp⟩
    · exact nodup.append (List.nodup_singleton id) (List.disjoint_singleton.mpr known)
    · intro x member
      rcases List.mem_append.mp member with old | new
      · exact inside x old
      · exact List.mem_singleton.mp new ▸ present
    · intro x
      by_cases same : x = id
      · simp [same,zero id known]
      · simp only [update_of_ne same,numpreds,List.mem_append,List.mem_singleton,same,or_false]
    · intro x absent
      exact zero x fun member => absent (List.mem_append_left _ member)

theorem Counted.countDep (before : Counted targets counted succs counts) {second first : TargetId}
    (key : second ∈ counts.keys) (present : first ∈ targets.order) :
    ∃ after, countDep second counts first = .ok after ∧
      Counted targets (update counted second (counted second + 1)) (update succs first (succs first ++ [second])) after ∧
      ∀ x ∈ counts.keys, x ∈ after.keys := by
  obtain ⟨added,keys⟩ := before.addKey present
  have known : second ∈ (counts.addKey first).keys := (keys second).mpr (.inl key)
  have value := added.numpreds second
  rw [if_pos known] at value
  have called : DependencyAnalyzer.countDep second counts first = .ok {counts.addKey first with
      numpreds := update (counts.addKey first).numpreds second (some (counted second + 1))
      successors := update (counts.addKey first).successors first ((counts.addKey first).successors first ++ [second])} := by
    simp only [DependencyAnalyzer.countDep,value]
  refine ⟨_,called,⟨added.nodup,added.inside,?_,?_,?_⟩,fun x member => (keys x).mpr (.inl member)⟩
  · intro x
    by_cases same : x = second
    · simp [same,known]
    · simp only [update_of_ne same,added.numpreds]
  · intro x absent
    have different : x ≠ second := fun same => absent (same ▸ known)
    rw [update_of_ne different]
    exact added.zero x absent
  · simp only [added.successors]

theorem countTarget_ok {done : List TargetId} {second : TargetId} (graph : Transitive targets)
    (before : Counted targets (fun x => if x ∈ done then (targets.preds x).length else 0)
      (fun x => done.filter fun y => x ∈ targets.preds y) counts)
    (all : ∀ x ∈ done, x ∈ counts.keys) (fresh : second ∉ done) (present : second ∈ targets.order) :
    ∃ after, countTarget targets counts second = .ok after ∧
      Counted targets (fun x => if x ∈ done ++ [second] then (targets.preds x).length else 0)
        (fun x => (done ++ [second]).filter fun y => x ∈ targets.preds y) after ∧
      ∀ x ∈ done ++ [second], x ∈ after.keys := by
  obtain ⟨target,located⟩ := Option.isSome_iff_exists.mp ((targets.mem_order second).mp present)
  have preds : targets.preds second = target.expandedDeps := by simp [Targets.preds,Targets.deps,located]
  obtain ⟨added,keys⟩ := before.addKey present
  obtain ⟨after,folded,counted,keep⟩ : ∃ after, target.expandedDeps.foldlM (countDep second) (counts.addKey second) = .ok after ∧
      Counted targets (update (fun x => if x ∈ done then (targets.preds x).length else 0) second target.expandedDeps.length)
        (fun x => done.filter (fun y => x ∈ targets.preds y) ++ if x ∈ target.expandedDeps then [second] else []) after ∧
      ∀ x ∈ (counts.addKey second).keys, x ∈ after.keys := by
    apply foldlM_ok fun deps after =>
      Counted targets (update (fun x => if x ∈ done then (targets.preds x).length else 0) second deps.length)
        (fun x => done.filter (fun y => x ∈ targets.preds y) ++ if x ∈ deps then [second] else []) after ∧
      ∀ x ∈ (counts.addKey second).keys, x ∈ after.keys
    · intro deps d rest middle split held
      obtain ⟨counted,keep⟩ := held
      have once : d ∉ deps := by
        have nodup := graph.nodup second
        rw [preds,split] at nodup
        exact fun member => (List.nodup_append.mp nodup).2.2 d member d List.mem_cons_self rfl
      have inside : d ∈ targets.order := graph.inside second d (by simp [preds,split])
      obtain ⟨next,called,counted,more⟩ := counted.countDep (keep second ((keys second).mpr (.inr rfl))) inside
      refine ⟨next,called,?_,fun x member => more x (keep x member)⟩
      convert counted using 1
      · rw [update_idem,update_self,List.length_append,List.length_singleton]
      · funext x
        by_cases same : x = d
        · simp [same,once]
        · simp [same]
    · refine ⟨?_,fun x member => member⟩
      convert added using 1
      · rw [update_eq_self_iff,if_neg fresh,List.length_nil]
      · funext x
        simp
  refine ⟨after,?_,?_,?_⟩
  · simp only [countTarget,located,folded]
  · convert counted using 1
    · funext x
      by_cases same : x = second
      · simp [same,preds]
      · simp [same]
    · funext x
      by_cases member : x ∈ target.expandedDeps <;> simp [preds,member]
  · intro x member
    apply keep
    rw [keys]
    rcases List.mem_append.mp member with old | new
    · exact .inl (all x old)
    · exact .inr (List.mem_singleton.mp new)

/-- Every target is a key, with the number of its dependencies, and the successors of
a target are the targets that depend on it. -/
theorem countPreds_ok (graph : Transitive targets) : ∃ counts, countPreds targets = .ok counts ∧
    Counted targets (fun x => if x ∈ targets.order then (targets.preds x).length else 0)
      (fun x => targets.order.filter fun y => x ∈ targets.preds y) counts ∧ counts.keys.Perm targets.order := by
  obtain ⟨counts,folded,counted,all⟩ : ∃ counts, countPreds targets = .ok counts ∧
      Counted targets (fun x => if x ∈ targets.order then (targets.preds x).length else 0)
        (fun x => targets.order.filter fun y => x ∈ targets.preds y) counts ∧ ∀ x ∈ targets.order, x ∈ counts.keys := by
    apply foldlM_ok fun done counts =>
      Counted targets (fun x => if x ∈ done then (targets.preds x).length else 0)
        (fun x => done.filter fun y => x ∈ targets.preds y) counts ∧ ∀ x ∈ done, x ∈ counts.keys
    · intro done second rest counts split ⟨counted,all⟩
      have fresh : second ∉ done := by
        have nodup := targets.nodup
        rw [split] at nodup
        exact fun member => (List.nodup_append.mp nodup).2.2 second member second List.mem_cons_self rfl
      exact countTarget_ok graph counted all fresh (by simp [split])
    · exact ⟨⟨List.nodup_nil,by simp,by simp,by simp,by simp⟩,by simp⟩
  refine ⟨counts,folded,counted,?_⟩
  exact (List.perm_ext_iff_of_nodup counted.nodup targets.nodup).mpr fun x => ⟨counted.inside x,all x⟩

end Count

section Loop
variable {targets : Targets}

/-- The dependencies of a target that are not done. -/
def missing (targets : Targets) (done : List TargetId) (x : TargetId) : Nat :=
  ((targets.preds x).filter fun d => d ∉ done).length

theorem missing_eq_zero {done : List TargetId} {x : TargetId} :
    missing targets done x = 0 ↔ ∀ d ∈ targets.preds x, d ∈ done := by
  simp [missing,List.filter_eq_nil_iff]

theorem missing_concat (graph : Transitive targets) {done : List TargetId} {x : TargetId} (fresh : x ∉ done) (y : TargetId) :
    missing targets done y = missing targets (done ++ [x]) y + if x ∈ targets.preds y then 1 else 0 := by
  have once := (graph.nodup y).filter fun d => decide (d ∉ done)
  have still : (targets.preds y).filter (fun d => d ∉ done ++ [x]) = ((targets.preds y).filter fun d => d ∉ done).erase x := by
    rw [once.erase_eq_filter,List.filter_filter]
    apply List.filter_congr
    intro d _
    by_cases same : d = x <;> simp [same]
  rw [missing,missing,still]
  by_cases member : x ∈ targets.preds y
  · have pending : x ∈ (targets.preds y).filter fun d => d ∉ done := by simp [member,fresh]
    have some_left := List.length_pos_of_mem pending
    rw [if_pos member,List.length_erase_of_mem pending]
    omega
  · have absent : x ∉ (targets.preds y).filter fun d => d ∉ done := fun pending => member (List.mem_of_mem_filter pending)
    rw [if_neg member,List.erase_of_not_mem absent,Nat.add_zero]

/-- The counts are those of the dependencies still missing; what is done is deleted. -/
def Left (targets : Targets) (done : List TargetId) (numpreds : TargetId → Option Int) : Prop :=
  ∀ y ∈ targets.order, numpreds y = if y ∈ done then none else some (missing targets done y : Int)

/-- The targets that depend on `x`, in the order in which they became its successors. -/
def Targets.successors (targets : Targets) (x : TargetId) : List TargetId := targets.order.filter fun y => x ∈ targets.preds y

theorem mem_successors {x y : TargetId} : y ∈ targets.successors x ↔ y ∈ targets.order ∧ x ∈ targets.preds y := by
  rw [Targets.successors,List.mem_filter,decide_eq_true_eq]

/-- The successors of `x` in `visited` are knocked down. -/
structure Knocked (targets : Targets) (done : List TargetId) (x : TargetId) (answer visited : List TargetId)
    (state : List TargetId × (TargetId → Option Int)) : Prop where
  grown : state.1 = answer ++ visited.filter fun y => missing targets (done ++ [x]) y = 0
  left : ∀ y ∈ targets.order, state.2 y = if y ∈ done ++ [x] then none else
    some ((if y ∈ visited then missing targets (done ++ [x]) y else missing targets done y : Nat) : Int)

theorem knockDown_step (graph : Transitive targets) {done answer visited : List TargetId} {x y : TargetId}
    {state : List TargetId × (TargetId → Option Int)} (fresh : x ∉ done) (undone : y ∉ done ++ [x]) (unvisited : y ∉ visited)
    (successor : y ∈ targets.successors x) (before : Knocked targets done x answer visited state) :
    ∃ next, knockDown state y = .ok next ∧ Knocked targets done x answer (visited ++ [y]) next := by
  obtain ⟨present,depends⟩ := mem_successors.mp successor
  have value := before.left y present
  have change := missing_concat graph fresh y
  rw [if_pos depends] at change
  rw [if_neg undone,if_neg unvisited,change] at value
  have knocked : knockDown state y = .ok (if missing targets (done ++ [x]) y = 0 then state.1 ++ [y] else state.1,
      update state.2 y (some (missing targets (done ++ [x]) y : Int))) := by
    simp only [knockDown,value,Int.natCast_add,Int.cast_ofNat_Int,Int.add_sub_cancel,Int.natCast_eq_zero]
  refine ⟨_,knocked,?_,?_⟩
  · rw [before.grown,List.filter_append,← List.append_assoc]
    by_cases zero : missing targets (done ++ [x]) y = 0 <;> simp [zero]
  · intro z inside
    by_cases here : z = y
    · have last : y ∈ visited ++ [y] := List.mem_append_right _ (List.mem_singleton_self y)
      simp only [here,update_self,if_neg undone,if_pos last]
    · simp only [update_of_ne here,before.left z inside,List.mem_append,List.mem_singleton,here,or_false]

/-- The loop over the successors of `x`, which is done now. -/
theorem knockDown_ok (graph : Transitive targets) {done : List TargetId} (answer : List TargetId) {numpreds : TargetId → Option Int} {x : TargetId}
    (fresh : x ∉ done) (later : ∀ y ∈ targets.successors x, y ∉ done) (left : Left targets done numpreds) :
    ∃ after, (targets.successors x).foldlM knockDown (answer,update numpreds x none) =
        .ok (answer ++ (targets.successors x).filter (fun y => missing targets (done ++ [x]) y = 0),after) ∧
      Left targets (done ++ [x]) after := by
  obtain ⟨state,folded,knocked⟩ : ∃ state, (targets.successors x).foldlM knockDown (answer,update numpreds x none) =
      Except.ok state ∧ Knocked targets done x answer (targets.successors x) state := by
    apply foldlM_ok fun visited state => Knocked targets done x answer visited state
    · intro visited y rest state split before
      have successor : y ∈ targets.successors x := by simp [split]
      have undone : y ∉ done ++ [x] := by
        intro member
        rcases List.mem_append.mp member with old | new
        · exact later y successor old
        · exact graph.irrefl x (List.mem_singleton.mp new ▸ (mem_successors.mp successor).2)
      have unvisited : y ∉ visited := by
        have nodup : (targets.successors x).Nodup := targets.nodup.filter _
        rw [split] at nodup
        exact fun member => (List.nodup_append.mp nodup).2.2 y member y List.mem_cons_self rfl
      exact knockDown_step graph fresh undone unvisited successor before
    · refine ⟨by simp,fun y present => ?_⟩
      by_cases same : y = x
      · simp [same]
      · simp [left y present,same]
  refine ⟨state.2,?_,fun y present => ?_⟩
  · rw [folded,← knocked.grown]
  · rw [knocked.left y present]
    by_cases successor : y ∈ targets.successors x
    · rw [if_pos successor]
    · have independent : x ∉ targets.preds y := fun depends => successor (mem_successors.mpr ⟨present,depends⟩)
      have change := missing_concat graph fresh y
      rw [if_neg independent,Nat.add_zero] at change
      rw [if_neg successor,change]

omit targets in
theorem not_mem_take {answer : List TargetId} (nodup : answer.Nodup) {i : Nat} {x : TargetId} (current : answer[i]? = some x) :
    x ∉ answer.take i := by
  have first : (answer.take (i + 1)).Nodup := nodup.sublist (List.take_sublist _ _)
  rw [List.take_add_one,current] at first
  exact fun old => (List.nodup_append.mp first).2.2 x old x (List.mem_singleton_self x) rfl

/-- At place `i` of the answer the targets before it are done, and the answer holds
the targets that miss no dependency. -/
structure Sorting (targets : Targets) (i : Nat) (answer : List TargetId) (numpreds : TargetId → Option Int) : Prop where
  nodup : answer.Nodup
  inside : ∀ x ∈ answer, x ∈ targets.order
  left : Left targets (answer.take i) numpreds
  ready : ∀ x ∈ targets.order, x ∈ answer ↔ ∀ d ∈ targets.preds x, d ∈ answer.take i
  sorted : answer.Pairwise fun first second => second ∉ targets.preds first

theorem Sorting.step (graph : Transitive targets) {i : Nat} {answer : List TargetId} {numpreds : TargetId → Option Int}
    {x : TargetId} (before : Sorting targets i answer numpreds) (current : answer[i]? = some x) :
    ∃ new after, (targets.successors x).foldlM knockDown (answer,update numpreds x none) = .ok (answer ++ new,after) ∧
      Sorting targets (i + 1) (answer ++ new) after := by
  obtain ⟨nodup,inside,left,ready,sorted⟩ := before
  obtain ⟨bound,here⟩ := List.getElem?_eq_some_iff.mp current
  have member : x ∈ answer := List.mem_of_getElem? current
  have taken : answer.take (i + 1) = answer.take i ++ [x] := by rw [List.take_add_one,current,Option.toList_some]
  have fresh := not_mem_take nodup current
  -- An element of the answer misses nothing, so it does not depend on `x`.
  have independent : ∀ y ∈ answer, x ∉ targets.preds y :=
    fun y old depends => fresh ((ready y (inside y old)).mp old x depends)
  have later : ∀ y ∈ targets.successors x, y ∉ answer :=
    fun y successor old => independent y old (mem_successors.mp successor).2
  obtain ⟨after,folded,left⟩ := knockDown_ok graph answer fresh
    (fun y successor old => later y successor (List.mem_of_mem_take old)) left
  have mem_new (y : TargetId) : y ∈ (targets.successors x).filter (fun y => missing targets (answer.take i ++ [x]) y = 0) ↔
      y ∈ targets.successors x ∧ ∀ d ∈ targets.preds y, d ∈ answer.take (i + 1) := by
    rw [List.mem_filter,decide_eq_true_eq,missing_eq_zero,taken]
  refine ⟨_,after,folded,?_,?_,?_,?_,?_⟩
  · refine nodup.append ((targets.nodup.filter _).filter _) ?_
    intro y old new
    exact later y ((mem_new y).mp new).1 old
  · intro y grown
    rcases List.mem_append.mp grown with old | new
    · exact inside y old
    · exact (mem_successors.mp ((mem_new y).mp new).1).1
  · rwa [List.take_append_of_le_length bound,taken]
  · intro y present
    rw [List.mem_append,mem_new,ready y present,List.take_append_of_le_length bound,taken]
    constructor
    · intro grown d depends
      rcases grown with old | new
      · exact List.mem_append_left _ (old d depends)
      · exact new.2 d depends
    · intro all
      by_cases depends : x ∈ targets.preds y
      · exact .inr ⟨mem_successors.mpr ⟨present,depends⟩,all⟩
      · refine .inl fun d other => ?_
        rcases List.mem_append.mp (all d other) with old | new
        · exact old
        · exact absurd (List.mem_singleton.mp new ▸ other) depends
  · have done (y : TargetId) (new : y ∈ targets.successors x) : y ∉ answer.take (i + 1) :=
      fun old => later y new (List.mem_of_mem_take old)
    refine List.pairwise_append.mpr ⟨sorted,List.pairwise_of_forall_mem_list ?_,?_⟩
    · intro y first z second depends
      exact done z ((mem_new z).mp second).1 (((mem_new y).mp first).2 z depends)
    · intro y old z new depends
      exact later z ((mem_new z).mp new).1 (List.mem_of_mem_take ((ready y (inside y old)).mp old z depends))

/-- At the end of the answer every target is in it: one with the fewest dependencies
among those left out would miss none. -/
theorem Sorting.complete (graph : Transitive targets) {i : Nat} {answer : List TargetId} {numpreds : TargetId → Option Int}
    (sorting : Sorting targets i answer numpreds) (ended : answer.length ≤ i) {x : TargetId} (present : x ∈ targets.order) :
    x ∈ answer := by
  induction size : (targets.preds x).length using Nat.strongRecOn generalizing x with
  | _ n ih =>
    rw [sorting.ready x present,List.take_of_length_le ended]
    intro d depends
    have fewer : (targets.preds d).length < (targets.preds x).length := by
      have inner : targets.preds d ⊆ (targets.preds x).erase d := by
        intro e further
        have different : e ≠ d := fun same => graph.irrefl d (same ▸ further)
        exact (List.mem_erase_of_ne different).mpr (graph.trans x d depends e further)
      have short := ((graph.nodup d).subperm inner).length_le
      rw [List.length_erase_of_mem depends] at short
      have some_pred := List.length_pos_of_mem depends
      omega
    exact ih _ (size ▸ fewer) (graph.inside x d depends) rfl

theorem answerLoop_ok (graph : Transitive targets) (fuel : Nat) {i : Nat} {answer : List TargetId} {numpreds : TargetId → Option Int}
    (sorting : Sorting targets i answer numpreds) (place : i ≤ answer.length) (enough : targets.order.length < fuel + i) :
    ∃ sorted, answerLoop targets.successors fuel i (answer,numpreds) = .ok sorted ∧ sorted.Perm targets.order ∧
      sorted.Pairwise fun first second => second ∉ targets.preds first := by
  induction fuel generalizing i answer numpreds with
  | zero =>
    have short := (sorting.nodup.subperm sorting.inside).length_le
    omega
  | succ fuel ih =>
    cases current : answer[i]? with
    | none =>
      have ended := List.getElem?_eq_none_iff.mp current
      refine ⟨answer,by simp only [answerLoop,current],?_,sorting.sorted⟩
      exact (List.perm_ext_iff_of_nodup sorting.nodup targets.nodup).mpr fun x =>
        ⟨sorting.inside x,fun present => sorting.complete graph ended present⟩
    | some x =>
      obtain ⟨bound,_⟩ := List.getElem?_eq_some_iff.mp current
      have member : x ∈ answer := List.mem_of_getElem? current
      have present := sorting.inside x member
      have none_missing : numpreds x = some 0 := by
        rw [sorting.left x present,if_neg (not_mem_take sorting.nodup current),missing_eq_zero.mpr ((sorting.ready x present).mp member)]
        rfl
      obtain ⟨new,after,folded,next⟩ := sorting.step graph current
      obtain ⟨sorted,looped,good⟩ := ih next (by rw [List.length_append]; omega) (by omega)
      refine ⟨sorted,?_,good⟩
      simp only [answerLoop,current,none_missing,if_true,folded]
      exact looped

theorem topologicalSort_ok (graph : Transitive targets) {keysOrder : List TargetId → List TargetId}
    (permutes : ∀ keys, (keysOrder keys).Perm keys) : ∃ sorted, topologicalSort keysOrder targets = .ok sorted ∧
      sorted.Perm targets.order ∧ sorted.Pairwise fun first second => second ∉ targets.preds first := by
  obtain ⟨counts,counted,dictionaries,keys⟩ := countPreds_ok graph
  have numpreds (x : TargetId) (present : x ∈ targets.order) : counts.numpreds x = some (missing targets [] x : Int) := by
    rw [dictionaries.numpreds,if_pos (keys.mem_iff.mpr present),if_pos present,missing]
    simp
  have mem_start (x : TargetId) : x ∈ (keysOrder counts.keys).filter (fun x => counts.numpreds x = some 0) ↔
      x ∈ targets.order ∧ ∀ d ∈ targets.preds x, d ∈ ([] : List TargetId) := by
    rw [List.mem_filter,(permutes counts.keys).mem_iff,keys.mem_iff,decide_eq_true_eq]
    apply and_congr_right
    intro present
    rw [numpreds x present,← missing_eq_zero]
    simp
  have start : Sorting targets 0 ((keysOrder counts.keys).filter fun x => counts.numpreds x = some 0) counts.numpreds := by
    refine ⟨?_,fun x member => ((mem_start x).mp member).1,?_,?_,?_⟩
    · exact ((permutes counts.keys).nodup_iff.mpr dictionaries.nodup).filter _
    · intro x present
      rw [numpreds x present]
      rfl
    · intro x present
      rw [mem_start,List.take_zero]
      exact and_iff_right present
    · apply List.pairwise_of_forall_mem_list
      intro x first y _ depends
      exact absurd (((mem_start x).mp first).2 y depends) List.not_mem_nil
  obtain ⟨sorted,looped,good⟩ := answerLoop_ok graph (counts.keys.length + 1) start (Nat.zero_le _)
    (by rw [keys.length_eq]; omega)
  refine ⟨sorted,?_,good⟩
  have successors : counts.successors = targets.successors := dictionaries.successors
  simp only [topologicalSort,counted]
  rw [← successors] at looped
  exact looped

end Loop

/-- What `_expand_deps` leaves is transitive. -/
theorem expanded_transitive {graph expanded : Targets} (acyclic : Acyclic graph) (closed : Closed graph)
    (order : expanded.order = graph.order)
    (all : ∀ id ∈ graph.order, ∃ target, expanded.find id = some target ∧ Expanded graph id target.expandedDeps) :
    Transitive expanded ∧ ∀ id ∈ graph.order, ∀ d, d ∈ expanded.preds id ↔ TransGen (Dep graph) id d := by
  have listing (id : TargetId) (present : id ∈ graph.order) : Expanded graph id (expanded.preds id) := by
    obtain ⟨target,located,listed⟩ := all id present
    rwa [Targets.preds,Targets.deps,located]
  have absent (id : TargetId) (outside : id ∉ graph.order) : expanded.preds id = [] := by
    rw [← order,expanded.mem_order] at outside
    rw [Targets.preds,Targets.deps,Option.not_isSome_iff_eq_none.mp outside]
    rfl
  have mem (id d : TargetId) (depends : d ∈ expanded.preds id) : id ∈ graph.order ∧ TransGen (Dep graph) id d := by
    by_cases present : id ∈ graph.order
    · exact ⟨present,((listing id present).mem_iff d).mp depends⟩
    · rw [absent id present] at depends
      exact absurd depends List.not_mem_nil
  have inside (id d : TargetId) (depends : d ∈ expanded.preds id) : d ∈ graph.order :=
    (graph.mem_order d).mpr (closed.reached (mem id d depends).2)
  refine ⟨⟨fun id => ?_,fun id d depends => order ▸ inside id d depends,fun id own => acyclic id (mem id id own).2,?_⟩,
    fun id present => (listing id present).mem_iff⟩
  · by_cases present : id ∈ graph.order
    · exact (listing id present).nodup
    · rw [absent id present]
      exact List.nodup_nil
  · intro id d depends e further
    obtain ⟨present,reached⟩ := mem id d depends
    exact ((listing id present).mem_iff e).mpr (reached.trans (mem d e further).2)

theorem analyzeDeps_ok (graph : Targets) (acyclic : Acyclic graph) (closed : Closed graph)
    {keysOrder : List TargetId → List TargetId} (permutes : ∀ keys, (keysOrder keys).Perm keys) :
    ∃ sorted, analyzeDeps keysOrder graph = .ok sorted ∧ sorted.Perm graph.order ∧
      sorted.Pairwise fun first second => ¬TransGen (Dep graph) first second := by
  obtain ⟨expanded,ran,order,all⟩ := expandDeps_expanded graph acyclic closed
  obtain ⟨transitive,preds⟩ := expanded_transitive acyclic closed order all
  obtain ⟨sorted,ended,perm,later⟩ := topologicalSort_ok transitive permutes
  rw [order] at perm
  refine ⟨sorted,?_,perm,?_⟩
  · simp only [analyzeDeps,ran]
    exact ended
  · refine later.imp_of_mem ?_
    intro first second member _ independent depends
    exact independent ((preds first (perm.mem_iff.mp member) second).mpr depends)

/-- Every target once, after everything it depends on, in whatever order the
dictionaries give their keys. -/
theorem analyzeDeps_sorted (graph : Targets) (acyclic : Acyclic graph) (closed : Closed graph)
    {keysOrder : List TargetId → List TargetId} (permutes : ∀ keys, (keysOrder keys).Perm keys) :
    ∃ sorted, analyzeDeps keysOrder graph = .ok sorted ∧ sorted.Perm graph.order ∧
      sorted.Pairwise fun first second => ¬TransGen (Dep graph) first second :=
  analyzeDeps_ok graph acyclic closed permutes

theorem analyzeDeps_diamond : ∃ sorted, analyzeDeps List.reverse diamond = .ok sorted ∧ sorted.Perm diamond.order ∧
    sorted.Pairwise fun first second => ¬TransGen (Dep diamond) first second := by
  have acyclic : Acyclic diamond :=
    acyclic_of_rank (fun id => if id = ("a","top") then 2 else if id = ("b","mid") then 1 else 0)
      (forall_dep (by decide))
  exact analyzeDeps_sorted diamond acyclic (forall_dep (by decide)) List.reverse_perm

end WebSearch.DependencyAnalyzer
