import WebSearch.DependencyExpansion
import WebSearch.LoadBuildFiles
import Mathlib.Data.String.Basic
import Mathlib.Data.Prod.Lex

/-! `blade/blade.py`: `query_helper`, which is asked after the expansion what targets depend
on and what depends on them. -/
namespace WebSearch.Blade
open Library Relation Function DependencyAnalyzer

inductive QueryError
  | relativePath (failure : LoadBuildFiles.Failure)
  | indexError (target : String)
  | keyError (key : TargetId)
  deriving DecidableEq

abbrev ResultMap := TargetId → Option (List TargetId × List TargetId)

/-- `sort` of pairs of strings, in Python's order of tuples. -/
def sorted (ids : List TargetId) : List TargetId := ids.mergeSort fun a b => decide (toLex a ≤ toLex b)

/-- The key of a target in the query list. -/
def queryKey (targetPath t : String) : Except QueryError TargetId :=
  match (t.toList.splitOn ':').map String.ofList with
  | path :: name :: _ =>
    .ok (PosixPath.normpath (if targetPath = "." then path else targetPath ++ "/" ++ path),name)
  | _ => .error (.indexError t)

/-- What depends on the key, in the order of the dictionary. -/
def dependedBy (allTargets : Targets) (key : TargetId) : List TargetId :=
  allTargets.order.filter fun tkey => (allTargets.find tkey).any fun target => key ∈ target.expandedDeps

/-- The body of the loop over the query list. The dependencies are sorted in place. -/
def queryStep (state : Targets × ResultMap) (key : TargetId) : Except QueryError (Targets × ResultMap) :=
  match state.1.find key with
  | none => .error (.keyError key)
  | some target =>
    let allTargets := state.1.modify key fun target => {target with expandedDeps := sorted target.expandedDeps}
    .ok (allTargets,update state.2 key (some (sorted target.expandedDeps,sorted (dependedBy allTargets key))))

def queryHelper (space : LoadBuildFiles.Workspace) (allTargets : Targets) (targets : List String) :
    Except QueryError (Targets × ResultMap) := do
  let targetPath ← (LoadBuildFiles.relativePath space.cwd space.workingDir space.bladeRootDir).mapError .relativePath
  let queryList ← targets.mapM (queryKey targetPath)
  queryList.foldlM queryStep (allTargets,fun _ => none)

/-- In ascending order, each once. -/
def Ascending (ids : List TargetId) : Prop := ids.Pairwise fun a b => toLex a < toLex b

/-- The answer to a query: what the key depends on, directly or not, and what depends on it. -/
structure Answer (graph : Targets) (key : TargetId) (answer : List TargetId × List TargetId) : Prop where
  deps_sorted : Ascending answer.1
  deps : ∀ d, d ∈ answer.1 ↔ TransGen (Dep graph) key d
  depended_sorted : Ascending answer.2
  depended : ∀ t, t ∈ answer.2 ↔ TransGen (Dep graph) t key

theorem mem_sorted {ids : List TargetId} {id : TargetId} : id ∈ sorted ids ↔ id ∈ ids := List.mem_mergeSort

theorem nodup_sorted {ids : List TargetId} : (sorted ids).Nodup ↔ ids.Nodup := (List.mergeSort_perm ids _).nodup_iff

theorem ascending_sorted {ids : List TargetId} (different : ids.Nodup) : Ascending (sorted ids) := by
  have order : (sorted ids).Pairwise fun a b => toLex a ≤ toLex b := by
    have pairs := @List.pairwise_mergeSort TargetId (fun a b => decide (toLex a ≤ toLex b)) ?_ ?_ ids
    · exact pairs.imp of_decide_eq_true
    · intro a b c first second
      exact decide_eq_true ((of_decide_eq_true first).trans (of_decide_eq_true second))
    · intro a b
      rw [Bool.or_eq_true,decide_eq_true_eq,decide_eq_true_eq]
      exact le_total (toLex a) (toLex b)
  refine order.imp₂ ?_ (nodup_sorted.mpr different)
  intro a b le other
  exact lt_of_le_of_ne le fun same => other (toLex.injective same)

/-- Every target has been expanded; the order of the dependencies does not count. -/
structure Known (graph allTargets : Targets) : Prop where
  order : allTargets.order = graph.order
  expanded : ∀ id ∈ graph.order, ∃ target, allTargets.find id = some target ∧ target.expandedDeps.Nodup ∧
    ∀ d, d ∈ target.expandedDeps ↔ TransGen (Dep graph) id d

/-- The result so far: an answer to every key that was asked for, and nothing else. -/
structure Answers (graph : Targets) (asked : List TargetId) (result : ResultMap) : Prop where
  answered : ∀ key ∈ asked, ∃ answer, result key = some answer ∧ Answer graph key answer
  others : ∀ key, key ∉ asked → result key = none

section Steps
variable {graph allTargets : Targets} {key : TargetId}

theorem modify_self {target : Target} (found : allTargets.find key = some target) (change : Target → Target) :
    (allTargets.modify key change).find key = some (change target) := by
  rw [Targets.modify]
  dsimp only
  rw [if_pos rfl,found,Option.map_some]

theorem modify_of_ne {id : TargetId} (other : id ≠ key) (change : Target → Target) :
    (allTargets.modify key change).find id = allTargets.find id := if_neg other

theorem Known.sort (known : Known graph allTargets) (key : TargetId) :
    Known graph (allTargets.modify key fun target => {target with expandedDeps := sorted target.expandedDeps}) := by
  refine ⟨known.order,fun id member => ?_⟩
  obtain ⟨target,found,different,all⟩ := known.expanded id member
  by_cases same : id = key
  · subst same
    exact ⟨_,modify_self found _,nodup_sorted.mpr different,fun d => mem_sorted.trans (all d)⟩
  · exact ⟨target,by rw [modify_of_ne same,found],different,all⟩

theorem Known.depends (known : Known graph allTargets) {id : TargetId} (member : id ∈ graph.order) :
    ((allTargets.find id).any fun target => key ∈ target.expandedDeps) = true ↔ TransGen (Dep graph) id key := by
  obtain ⟨target,found,-,all⟩ := known.expanded id member
  rw [found,Option.any_some,decide_eq_true_eq]
  exact all key

theorem mem_dependedBy (known : Known graph allTargets) {id : TargetId} :
    id ∈ dependedBy allTargets key ↔ TransGen (Dep graph) id key := by
  rw [dependedBy,List.mem_filter,known.order]
  constructor
  · rintro ⟨member,depends⟩
    exact (known.depends member).mp depends
  · intro reached
    -- what depends on something has dependencies, so it is a target
    obtain ⟨d,⟨target,found,-⟩,-⟩ := TransGen.head'_iff.mp reached
    have member : id ∈ graph.order := (graph.mem_order id).mpr (by rw [found]; rfl)
    exact ⟨member,(known.depends member).mpr reached⟩

theorem Answers.put {asked : List TargetId} {result : ResultMap} {answer : List TargetId × List TargetId}
    (answers : Answers graph asked result) (right : Answer graph key answer) :
    Answers graph (asked ++ [key]) (update result key (some answer)) := by
  constructor
  · intro other member
    by_cases same : other = key
    · subst same
      exact ⟨answer,update_self _ _ _,right⟩
    · obtain before | last := List.mem_append.mp member
      · rw [update_of_ne same]
        exact answers.answered other before
      · exact absurd (List.mem_singleton.mp last) same
  · intro other absent
    rw [List.mem_append,List.mem_singleton,not_or] at absent
    rw [update_of_ne absent.2]
    exact answers.others other absent.1

/-- A key that is there gets its answer. -/
theorem queryStep_ok {asked : List TargetId} {result : ResultMap} (known : Known graph allTargets)
    (answers : Answers graph asked result) (member : key ∈ graph.order) :
    ∃ after result', queryStep (allTargets,result) key = .ok (after,result') ∧ Known graph after ∧
    Answers graph (asked ++ [key]) result' := by
  obtain ⟨target,found,different,all⟩ := known.expanded key member
  have after := known.sort key
  have distinct : (dependedBy (allTargets.modify key fun target => {target with expandedDeps := sorted target.expandedDeps})
      key).Nodup := List.Nodup.filter _ (Targets.nodup _)
  refine ⟨_,_,by rw [queryStep,found],after,answers.put ?_⟩
  constructor
  · exact ascending_sorted different
  · exact fun d => mem_sorted.trans (all d)
  · exact ascending_sorted distinct
  · exact fun t => mem_sorted.trans (mem_dependedBy after)

/-- The loop stops at the first key that is not there. -/
theorem queryLoop {asked : List TargetId} {result : ResultMap} (known : Known graph allTargets)
    (answers : Answers graph asked result) (queryList : List TargetId) :
    (∃ after result', queryList.foldlM queryStep (allTargets,result) = .ok (after,result') ∧
      Answers graph (asked ++ queryList) result' ∧ ∀ key ∈ queryList, key ∈ graph.order) ∨
    ∃ key ∈ queryList, key ∉ graph.order ∧ queryList.foldlM queryStep (allTargets,result) = .error (.keyError key) := by
  induction queryList generalizing allTargets asked result with
  | nil => exact .inl ⟨allTargets,result,rfl,by rwa [List.append_nil],by simp⟩
  | cons key queryList ih =>
    rw [List.foldlM_cons]
    by_cases member : key ∈ graph.order
    · obtain ⟨after,next,stepped,known,answers⟩ := queryStep_ok known answers member
      rw [stepped]
      obtain ⟨final,result',ran,right,all⟩ | ⟨other,listed,missing,failed⟩ := ih known answers
      · left
        rw [List.append_assoc,List.singleton_append] at right
        exact ⟨final,result',ran,right,List.forall_mem_cons.mpr ⟨member,all⟩⟩
      · exact .inr ⟨other,List.mem_cons_of_mem key listed,missing,failed⟩
    · right
      refine ⟨key,List.mem_cons_self,member,?_⟩
      rw [← known.order,allTargets.mem_order,Bool.not_eq_true,Option.isSome_eq_false_iff,Option.isNone_iff_eq_none] at member
      rw [queryStep,member]
      rfl

/-- After the expansion a query is answered for every key, or it stops at one that is no target. -/
theorem query_answers (graph : Targets) (acyclic : Acyclic graph) (closed : Closed graph) :
    ∃ expanded, expandDeps graph = .ok expanded ∧
    ∀ (space : LoadBuildFiles.Workspace) (targets : List String) (targetPath : String) (queryList : List TargetId),
    LoadBuildFiles.relativePath space.cwd space.workingDir space.bladeRootDir = .ok targetPath →
    targets.mapM (queryKey targetPath) = .ok queryList →
    (∃ after result, queryHelper space expanded targets = .ok (after,result) ∧ Answers graph queryList result ∧
      ∀ key ∈ queryList, key ∈ graph.order) ∨
    ∃ key ∈ queryList, key ∉ graph.order ∧ queryHelper space expanded targets = .error (.keyError key) := by
  obtain ⟨expanded,ran,order,all⟩ := expandDeps_expanded graph acyclic closed
  refine ⟨expanded,ran,fun space targets targetPath queryList relative listed => ?_⟩
  have known : Known graph expanded := by
    refine ⟨order,fun id member => ?_⟩
    obtain ⟨target,found,listing⟩ := all id member
    exact ⟨target,found,listing.nodup,listing.mem_iff⟩
  have helper : queryHelper space expanded targets = queryList.foldlM queryStep (expanded,fun _ => none) := by
    rw [queryHelper,relative]
    change (do
      let queryList ← targets.mapM (queryKey targetPath)
      queryList.foldlM queryStep (expanded,fun _ => none)) = _
    rw [listed]
    rfl
  rw [helper]
  exact queryLoop known ⟨fun key member => absurd member List.not_mem_nil,fun _ _ => rfl⟩ queryList

end Steps

theorem query_answers_diamond : ∃ expanded, expandDeps diamond = .ok expanded ∧ ∃ after result answer,
    queryHelper ⟨"/src","/src/b","/src",by decide⟩ expanded [":mid"] = .ok (after,result) ∧
    result ("b","mid") = some answer ∧ ("b","base") ∈ answer.1 ∧ ("a","top") ∈ answer.2 := by
  have acyclic : Acyclic diamond :=
    acyclic_of_rank (fun id => if id = ("a","top") then 2 else if id = ("b","mid") then 1 else 0)
      (forall_dep (by decide))
  have closed : Closed diamond := forall_dep (by decide)
  obtain ⟨expanded,ran,all⟩ := query_answers diamond acyclic closed
  have relative : LoadBuildFiles.relativePath "/src" "/src/b" "/src" = .ok "b" := by decide +kernel
  have listed : [":mid"].mapM (queryKey "b") = .ok [("b","mid")] := by decide +kernel
  refine ⟨expanded,ran,?_⟩
  obtain ⟨after,result,answered,right,-⟩ | ⟨key,member,missing,-⟩ :=
    all ⟨"/src","/src/b","/src",by decide⟩ [":mid"] "b" [("b","mid")] relative listed
  · obtain ⟨answer,found,⟨-,deps,-,depended⟩⟩ := right.answered ("b","mid") List.mem_cons_self
    have base : Dep diamond ("b","mid") ("b","base") := ⟨_,rfl,by decide⟩
    have top : Dep diamond ("a","top") ("b","mid") := ⟨_,rfl,by decide⟩
    exact ⟨after,result,answer,answered,found,(deps _).mpr (.single base),(depended _).mpr (.single top)⟩
  · rw [List.mem_singleton.mp member] at missing
    exact absurd (by decide) missing

end WebSearch.Blade
