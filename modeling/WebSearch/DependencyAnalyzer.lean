import WebSearch.Library.Listing
import Mathlib.Logic.Function.Basic
import Mathlib.Data.List.Basic

/-! `blade/dependency_analyzer.py`: `_find_all_deps` and `_expand_deps`. A Python
dictionary is its keys in iteration order and a lookup. The recursion is given
fuel, and every way to leave it early is an error of `Except`. -/
namespace WebSearch.DependencyAnalyzer
open Function

/-- The path and the name of a target. -/
abbrev TargetId := String × String

instance (priority := high) lawfulTargetId : LawfulBEq TargetId := inferInstance

inductive TargetType
  | swigLibrary
  | protoLibrary
  | pyBinary
  | javaJar
  | other (name : String)
  deriving DecidableEq

structure Data where
  dynamicLink : Bool
  buildDynamic : Bool
  generatePhp : Bool
  generatePython : Bool
  generateJava : Bool
  deriving DecidableEq

structure Target where
  type : TargetType
  data : Data
  expandedDeps : List TargetId
  deriving DecidableEq

structure Targets where
  order : List TargetId
  find : TargetId → Option Target
  nodup : order.Nodup
  mem_order : ∀ id, id ∈ order ↔ (find id).isSome = true

def Targets.modify (targets : Targets) (id : TargetId) (change : Target → Target) : Targets where
  order := targets.order
  find other := if other = id then (targets.find other).map change else targets.find other
  nodup := targets.nodup
  mem_order other := by
    rw [targets.mem_order]
    split
    · rw [Option.isSome_map]
    · rfl

inductive Failure
  | loopDependency (d : TargetId) (rootTargets : List TargetId)
  | missing (targetId d : TargetId)
  | keyError (id : TargetId)
  | outOfFuel
  deriving DecidableEq

/-- What `console.error_exit` prints; the other failures are no messages. -/
def Failure.message : Failure → Option String
  | .loopDependency d roots =>
    let errMsg := String.join (roots.map fun t => "//" ++ t.1 ++ ":" ++ t.2 ++ " --> ")
    some ("loop dependency found: //" ++ d.1 ++ ":" ++ d.2 ++ " --> [" ++ errMsg ++ "]")
  | .missing id d =>
    some ("Target " ++ id.1 ++ ":" ++ id.2 ++ " depends on " ++ d.1 ++ ":" ++ d.2 ++ ", but it is missing, exit...")
  | _ => none

abbrev Cache := TargetId → Option (List TargetId)

/-- The state that the recursion shares: `deps_map_cache` and `root_targets`. -/
structure Memo where
  cache : Cache
  roots : List TargetId

/-- The body of the loop over the dependencies of a target. -/
def appendDep (findAll : TargetId → Memo → Except Failure (List TargetId × Memo)) (targets : Targets)
    (targetId : TargetId) : List TargetId × Memo → TargetId → Except Failure (List TargetId × Memo)
  | (newDepsList,memo), d =>
    if d ∈ memo.roots then .error (.loopDependency d memo.roots)
    else match targets.find d with
      | none => .error (.missing targetId d)
      | some _ => do
        let (deps,memo) ← findAll d memo
        return ((d :: deps).foldl Library.moveLast newDepsList,memo)

def findAllDeps (targets : Targets) : Nat → TargetId → Memo → Except Failure (List TargetId × Memo)
  | 0, _, _ => .error .outOfFuel
  | fuel + 1, targetId, memo => match memo.cache targetId with
    | some deps => .ok (deps,memo)
    | none => match targets.find targetId with
      | none => .error (.keyError targetId)
      | some target => do
        let (newDepsList,memo) ← target.expandedDeps.foldlM (appendDep (findAllDeps targets fuel) targets targetId)
          ([],{memo with roots := memo.roots.insert targetId})
        return (newDepsList,{
          cache := update memo.cache targetId (some newDepsList)
          roots := memo.roots.erase targetId})

/-- The `for dep in target.expanded_deps` loops that set one entry of `data`. -/
def markDeps (mark : Data → Data) (targets : Targets) (deps : List TargetId) : Except Failure Targets :=
  deps.foldlM (fun targets dep => match targets.find dep with
    | none => .error (.keyError dep)
    | some _ => .ok (targets.modify dep fun target => {target with data := mark target.data})) targets

/-- The same for `swig_library`, which only marks its `proto_library` targets. -/
def markProtoDeps (targets : Targets) (deps : List TargetId) : Except Failure Targets :=
  deps.foldlM (fun targets dep => match targets.find dep with
    | none => .error (.keyError dep)
    | some found =>
      if found.type = .protoLibrary then
        .ok (targets.modify dep fun target => {target with data := {target.data with generatePhp := true}})
      else .ok targets) targets

def fillOptions (target : Target) (deps : List TargetId) (targets : Targets) : Except Failure Targets :=
  if target.data.dynamicLink then markDeps (fun data => {data with buildDynamic := true}) targets deps
  else match target.type with
    | .swigLibrary => markProtoDeps targets deps
    | .pyBinary => markDeps (fun data => {data with generatePython := true}) targets deps
    | .javaJar => markDeps (fun data => {data with generateJava := true}) targets deps
    | _ => .ok targets

/-- One round of the loop of `_expand_deps`, with a fresh set of roots. -/
def expandTarget : Targets × Cache → TargetId → Except Failure (Targets × Cache)
  | (targets,cache), targetId => match targets.find targetId with
    | none => .error (.keyError targetId)
    | some target => do
      let (deps,memo) ← findAllDeps targets (targets.order.length + 1) targetId ⟨cache,[]⟩
      let targets := targets.modify targetId fun target => {target with expandedDeps := deps}
      let targets ← fillOptions target deps targets
      return (targets,memo.cache)

def expandDeps (targets : Targets) : Except Failure Targets := do
  let (targets,_) ← targets.order.foldlM expandTarget (targets,fun _ => none)
  return targets

end WebSearch.DependencyAnalyzer
