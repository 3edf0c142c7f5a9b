import WebSearch.TestSchedulerResults
import WebSearch.Library.Dictionary
import WebSearch.Library.Loop
import WebSearch.Library.PosixPath
import WebSearch.Library.PythonRepr
import Mathlib.Data.List.Sort

/-! `blade/test_runner.py`: `TestRunner`. The stamp file keeps one entry for each test
executable, and the arguments and the environment of the last run. -/
namespace WebSearch.TestRunner
open DependencyAnalyzer (TargetId)
open Library Library.PosixPath TestScheduler

/-- An entry of `md5`: two sums, or `(0, 0)` after a failure. -/
inductive Md5 (D : Type)
  | sums (target data : D)
  | failed
  deriving DecidableEq

/-- `inctestTime` is in whole seconds, as it is rounded where it is used. -/
structure Stamp (D : Type) where
  testarg : Option D
  env : Environ
  inctestTime : Int
  md5 : List (String × Md5 D)

def Stamp.empty {D : Type} : Stamp D := ⟨none,[],0,[]⟩

inductive StampFile (D : Type)
  | absent
  | unreadable
  | readable (stamp : Stamp D)

/-- What all the runs in one source tree have in common. `oversized` is the check of the
size of the stamp file. -/
structure Site (D : Type) where
  cwd : String
  buildDir : String
  md5sum : String → D
  oversized : Stamp D → Bool

structure Options where
  fulltest : Bool
  args : List String
  testJobs : Int

/-- One run: `targets` are the targets that were built, in the order of the dictionary,
and `times` gives `str(mtime)` and `str(ctime)` of the files that exist. The build has
made the executables, so the names are those of files. -/
structure Invocation where
  targets : List Target
  targetDatabase : TargetId → Option Target
  directTargets : List TargetId
  options : Options
  environ : Environ
  time : Int
  times : String → Option (String × String)
  cpuCoreNum : Nat
  colorEnabled : Bool
  popen : Popen
  distinct : (targets.map Target.key).Nodup
  tidy : ∀ target ∈ targets, Tidy target.path ∧ Plain target.name.toList

variable {D : Type} [DecidableEq D]

def envIgnoreSet : List String :=
  ["PWD","OLDPWD","SHLVL","LC_ALL","TST_HACK_BASH_SESSION_ID","BUILD_URL","BUILD_TAG","SVN_REVISION","BUILD_ID",
    "EXECUTOR_NUMBER","START_USER","EXECUTOR_NUMBER","NODE_NAME","NODE_LABELS","IF_PKG","BUILD_NUMBER","HUDSON_COOKIE",
    "SSH_CLIENT","SSH2_CLIENT","VIM","MYVIMRC","VIMRUNTIME"] ++ (List.range 30).map fun i => "SVN_REVISION_" ++ toString i

def stampEnv (environ : Environ) : Environ := environ.filter fun entry => entry.1 ∉ envIgnoreSet

def executable (site : Site D) (target : Target) : String := site.buildDir ++ "/" ++ target.path ++ "/" ++ target.name

/-- The `test_file_name` of a test. -/
def runfile (site : Site D) (target : Target) : String := abspath site.cwd (executable site target)

def runfilesDir (site : Site D) (target : Target) : String := "./" ++ executable site target ++ ".runfiles"

/-- The libraries of a dynamically linked test; `none` is a `KeyError`. -/
def libraries (site : Site D) (inv : Invocation) (target : Target) : Option (List String) :=
  if target.dynamicLink then do
    let found ← inv.targetDatabase target.key
    let deps ← found.expandedDeps.mapM inv.targetDatabase
    return (deps.filter fun dep => "cc_library".toList <:+: dep.type.toList).map fun dep =>
      abspath site.cwd (join (join site.buildDir dep.path) ("lib" ++ dep.name ++ ".so"))
  else some []

def TestData.target : TestData → String
  | .file name | .linked name _ => name

/-- The path of an entry of `testdata`, unless it is skipped. -/
def dataPath (site : Site D) (target : Target) (data : TestData) : Option String :=
  let name := TestData.target data
  if ['.','.'] <:+: name.toList then none
  else if ['/','/'] <+: name.toList then some (abspath site.cwd (String.ofList (name.toList.drop 2)))
  else some (abspath site.cwd (target.path ++ "/" ++ name))

/-- The times of the files that exist, in the order of their paths. -/
def stampText (inv : Invocation) (files : List String) : String :=
  let sorted := (files.filter fun f => (inv.times f).isSome).insertionSort (· ≤ ·)
  String.join (sorted.map fun f => match inv.times f with
    | some (mtime,ctime) => mtime ++ ctime
    | none => "")

/-- What `_get_test_target_md5sum` takes the sums of: the stamps of the executable with
the dynamic libraries, and those of the test data. -/
def testStamps (site : Site D) (inv : Invocation) (target : Target) : Option (String × String) := do
  let libs ← libraries site inv target
  return (stampText inv (runfile site target :: libs),stampText inv (target.testdata.filterMap (dataPath site target)))

def getTestTargetMd5sum (site : Site D) (inv : Invocation) (target : Target) : Option (Md5 D) :=
  (testStamps site inv target).map fun (stamp,data) => .sums (site.md5sum stamp) (site.md5sum data)

/-- `last_test_stamp`, with the reason to run all tests that reading it may give. -/
def lastTestStamp (file : StampFile D) (fulltest : Bool) : Stamp D × Option Reason :=
  if fulltest then (.empty,none) else match file with
    | .absent => (.empty,none)
    | .unreadable => (.empty,some .noHistory)
    | .readable stamp => (stamp,none)

/-- `test_stamp` as `__init__` leaves it. -/
def testStamp (site : Site D) (inv : Invocation) : Stamp D where
  testarg := some (site.md5sum (PythonRepr.strList inv.options.args))
  env := stampEnv inv.environ
  inctestTime := inv.time
  md5 := []

def runAllReason (last new : Stamp D) (first : Option Reason) (fulltest : Bool) : Option Reason :=
  if fulltest then some .fulltest
  else
    let reason := if new.testarg ≠ last.testarg then some .argument else first
    let reason := if sameDict new.env last.env then reason else some .environment
    let interval := new.inctestTime - last.inctestTime
    if interval ≥ 86400 ∨ interval < 0 then some .stale else reason

/-- Why a test goes into `tests_run_map`; `none` when it is up to date. -/
def runReason (inv : Invocation) (last : Stamp D) (runAll : Option Reason) (target : Target) (runfile : String)
    (new : Md5 D) : Option Reason := match runAll with
  | some reason => some reason
  | none =>
    if target.key ∈ inv.directTargets then some .explicit
    else match last.md5.lookup runfile with
      | none => some .stale
      | some old =>
        if new = old then none else match old,new with
          | .sums oldTarget _, .sums newTarget _ => some (if newTarget ≠ oldTarget then .binary else .testdata)
          | _, _ => some .lastFailed

/-- What the loop of `_generate_inctest_run_list` builds. -/
structure Plan (D : Type) where
  md5 : List (String × Md5 D)
  testsRunMap : TestsRunMap
  inctestRunList : List Target

def generateStep (site : Site D) (inv : Invocation) (last : Stamp D) (runAll : Option Reason) (plan : Plan D)
    (target : Target) : Option (Plan D) :=
  if target.type ≠ "cc_test" then some plan
  else do
    let file := runfile site target
    let new ← getTestTargetMd5sum site inv target
    let md5 := put file new plan.md5
    match runReason inv last runAll target file new with
    | none => return {plan with md5}
    | some reason => return {
        md5
        testsRunMap := put target.key ⟨file,"",reason⟩ plan.testsRunMap
        inctestRunList := if runAll = none then plan.inctestRunList ++ [target] else plan.inctestRunList}

/-- The entries of tests that are not loaded now are kept. -/
def carryOver (last md5 : List (String × Md5 D)) : List (String × Md5 D) :=
  last.foldl (fun md5 entry => if (md5.lookup entry.1).isSome then md5 else put entry.1 entry.2 md5) md5

def generateInctestRunList (site : Site D) (inv : Invocation) (last : Stamp D) (runAll : Option Reason) :
    Option (Plan D) := do
  let plan ← inv.targets.foldlM (generateStep site inv last runAll) ⟨[],[],[]⟩
  return {plan with md5 := carryOver last.md5 plan.md5}

def environAddPath (env : Environ) (key path : String) : Environ := match env.lookup key with
  | some old => if old ≠ "" then put key (old ++ ":" ++ path) env else put key path env
  | none => put key path env

def testJob (site : Site D) (inv : Invocation) (target : Target) : Job where
  target := target
  runDir := runfilesDir site target
  testEnv := put "HEAPCHECK" target.heapCheck (put "GTEST_OUTPUT" "xml"
    (put "GTEST_COLOR" (if inv.colorEnabled then "yes" else "no")
      (environAddPath inv.environ "LD_LIBRARY_PATH" (runfilesDir site target))))
  cmd := runfile site target :: inv.options.args

/-- The runner when it hands its tests to the scheduler. -/
structure Runner (D : Type) where
  stamp : Stamp D
  testsRunMap : TestsRunMap
  skippedTests : List TargetId
  testsRunList : List Job

def isRun (runAll : Option Reason) (plan : Plan D) (target : Target) : Bool :=
  runAll.isSome || target ∈ plan.inctestRunList || target.alwaysRun

def prepare (site : Site D) (file : StampFile D) (inv : Invocation) : Option (Runner D) := do
  let last := lastTestStamp file inv.options.fulltest
  let runAll := runAllReason last.1 (testStamp site inv) last.2 inv.options.fulltest
  let plan ← generateInctestRunList site inv last.1 runAll
  let tests := inv.targets.filter fun target => target.type = "cc_test"
  return {
    stamp := {testStamp site inv with md5 := plan.md5}
    testsRunMap := plan.testsRunMap
    skippedTests := (tests.filter fun target => !isRun runAll plan target).map Target.key
    testsRunList := (tests.filter (isRun runAll plan)).map (testJob site inv)}

/-- A failed test is not skipped the next time. -/
def markFailed (site : Site D) (md5 : List (String × Md5 D)) (failedTargets : List Target) : List (String × Md5 D) :=
  failedTargets.foldl (fun md5 target =>
    if (md5.lookup (runfile site target)).isSome then put (runfile site target) .failed md5 else md5) md5

/-- The summary of `run`: what it returns and the stamp that it writes. -/
def summarize (site : Site D) (runner : Runner D) (failedTargets : List Target) : Nat × Stamp D :=
  if failedTargets ≠ [] then (1,{runner.stamp with md5 := markFailed site runner.stamp.md5 failedTargets})
  else (0,runner.stamp)

def writeTestHistory (site : Site D) (stamp : Stamp D) : StampFile D :=
  if site.oversized stamp then .absent else .readable stamp

/-! What the summary says of the tests. -/

section Summary
variable {site : Site D} {file : StampFile D} {inv : Invocation} {runner : Runner D}

/-- What `prepare` makes of a plan. -/
structure Prepared (site : Site D) (inv : Invocation) (last : Stamp D) (runAll : Option Reason) (plan : Plan D)
    (runner : Runner D) : Prop where
  generated : generateInctestRunList site inv last runAll = some plan
  stamp : runner.stamp = {testStamp site inv with md5 := plan.md5}
  jobs : runner.testsRunList =
    ((inv.targets.filter fun target => target.type = "cc_test").filter (isRun runAll plan)).map (testJob site inv)
  skipped : runner.skippedTests =
    ((inv.targets.filter fun target => target.type = "cc_test").filter fun target => !isRun runAll plan target).map Target.key

theorem prepare_spec (prepared : prepare site file inv = some runner) :
    ∃ plan, Prepared site inv (lastTestStamp file inv.options.fulltest).1
      (runAllReason (lastTestStamp file inv.options.fulltest).1 (testStamp site inv)
        (lastTestStamp file inv.options.fulltest).2 inv.options.fulltest) plan runner := by
  obtain ⟨plan,generated,rest⟩ := Option.bind_eq_some_iff.mp prepared
  cases rest
  exact ⟨plan,generated,rfl,rfl,rfl⟩

section Jobs
variable {last : Stamp D} {runAll : Option Reason} {plan : Plan D}

theorem Prepared.mem_jobs (prepared : Prepared site inv last runAll plan runner) {job : Job} :
    job ∈ runner.testsRunList ↔ (job.target ∈ inv.targets ∧ job.target.type = "cc_test" ∧ isRun runAll plan job.target = true) ∧
      job = testJob site inv job.target := by
  rw [prepared.jobs]
  simp only [List.mem_map,List.mem_filter,decide_eq_true_eq]
  constructor
  · intro ⟨target,⟨⟨listed,test⟩,run⟩,made⟩
    rw [← made]
    exact ⟨⟨listed,test,run⟩,rfl⟩
  · intro ⟨⟨listed,test,run⟩,made⟩
    exact ⟨job.target,⟨⟨listed,test⟩,run⟩,made.symm⟩

theorem Prepared.distinct (prepared : Prepared site inv last runAll plan runner) :
    (runner.testsRunList.map Job.target).Nodup := by
  rw [prepared.jobs,List.map_map]
  have same : Job.target ∘ testJob site inv = id := rfl
  rw [same,List.map_id]
  exact ((List.Nodup.of_map _ inv.distinct).filter _).filter _

end Jobs

omit [DecidableEq D] in
theorem summarize_eq_zero {failedTargets : List Target} :
    (summarize site runner failedTargets).1 = 0 ↔ failedTargets = [] := by
  unfold summarize
  split
  · rename_i some
    exact iff_of_false Nat.one_ne_zero some
  · rename_i none
    exact iff_of_true rfl (not_not.mp none)

theorem count_targets {tests : List Job} (distinct : (tests.map Job.target).Nodup) (holds : Job → Prop) [DecidablePred holds]
    {job : Job} (member : job ∈ tests) :
    ((tests.filter holds).map Job.target).count job.target = if holds job then 1 else 0 := by
  have inside : ((tests.filter holds).map Job.target).Nodup := distinct.sublist (List.filter_sublist.map _)
  rw [inside.count]
  congr 1
  simp only [List.mem_map,List.mem_filter,decide_eq_true_eq,eq_iff_iff]
  constructor
  · intro ⟨other,⟨listed,met⟩,same⟩
    exact List.inj_on_of_nodup_map distinct listed member same ▸ met
  · intro met
    exact ⟨job,⟨member,met⟩,rfl⟩

/-- What `run` and its summary say of the scheduled tests: 0 is returned only if every
test ran and exited with 0, every test is counted once, and every failing one is listed once. -/
structure Reports {n : Nat} (site : Site D) (inv : Invocation) (runner : Runner D) (s : State n) : Prop where
  zero : (summarize site runner s.failedTargets).1 = 0 → ∀ job ∈ runner.testsRunList, (job,.exited 0) ∈ s.outcomes
  number : s.numOfRunTests = runner.testsRunList.length
  counted : ∀ job ∈ runner.testsRunList, s.counted.count job = 1
  failed : ∀ job ∈ runner.testsRunList, s.failedTargets.count job.target =
    if runTest inv.popen (job.queue.redirect n) job ≠ .exited 0 then 1 else 0

/-- It does exactly when no test ends in an exception that is no `OSError`. -/
theorem run_reports_iff {n : Nat} {s : State n} (prepared : prepare site file inv = some runner)
    (workers : n = getWorkersNum inv.cpuCoreNum inv.options.testJobs runner.testsRunList.length)
    (reached : (scheduling inv.popen n runner.testsRunList runner.testsRunMap).Reachable s) (completed : s.main = .done) :
    Reports site inv runner s ↔ ∀ job ∈ runner.testsRunList, runTest inv.popen (job.queue.redirect n) job ≠ .raised := by
  have inv' := inv_reachable reached
  obtain ⟨plan,planned⟩ := prepare_spec prepared
  have distinct := planned.distinct
  constructor
  · intro reports job member
    apply inv'.not_raised
    apply List.count_pos_iff.mp
    rw [reports.counted job member]
    exact Nat.one_pos
  · intro caught
    have reported := inv'.reported completed (fun some => workers ▸ getWorkersNum_pos _ _ (List.length_pos_iff.mpr some)) caught
    refine ⟨?_,reported.number,?_,?_⟩
    · intro zero job member
      have none := reported.failed
      rw [summarize_eq_zero.mp zero,List.nil_perm,List.map_eq_nil_iff,List.filter_eq_nil_iff] at none
      have passed : runTest inv.popen (job.queue.redirect n) job = .exited 0 := by simpa using none job member
      rw [← passed]
      exact reported.ran job member
    · intro job member
      rw [reported.counted.count_eq]
      exact List.count_eq_one_of_mem (List.Nodup.of_map _ distinct) member
    · intro job member
      rw [reported.failed.count_eq]
      exact count_targets distinct _ member

end Summary

def tree : Site String := ⟨"/src","build64_release",id,fun _ => false⟩

def ccTest (path name : String) : Target := ⟨path,name,"cc_test",false,[],false,false,"",[]⟩

/-- A run of one test with one worker. -/
def oneTest (path name : String) (file : Tidy path ∧ Plain name.toList) (args : List String) (environ : Environ)
    (popen : Popen) : Invocation where
  targets := [ccTest path name]
  targetDatabase _ := none
  directTargets := []
  options := ⟨false,args,1⟩
  environ := environ
  time := 0
  times _ := some ("1.0","2.0")
  cpuCoreNum := 1
  colorEnabled := false
  popen := popen
  distinct := List.nodup_singleton _
  tidy target member := by
    rw [List.mem_singleton.mp member]
    exact file

theorem exists_run (inv : Invocation) (labels : List (Action 1)) (holds : Runner String → State 1 → Bool)
    (ran : (prepare tree .absent inv).any (fun runner =>
      decide (1 = getWorkersNum inv.cpuCoreNum inv.options.testJobs runner.testsRunList.length) &&
        ((scheduling inv.popen 1 runner.testsRunList runner.testsRunMap).run
          (start 1 runner.testsRunList runner.testsRunMap) labels).any fun s => s.main = .done && holds runner s) = true) :
    ∃ runner s, prepare tree .absent inv = some runner ∧
      1 = getWorkersNum inv.cpuCoreNum inv.options.testJobs runner.testsRunList.length ∧
      (scheduling inv.popen 1 runner.testsRunList runner.testsRunMap).Reachable s ∧ s.main = .done ∧ holds runner s = true := by
  obtain ⟨runner,prepared,rest⟩ := (Option.any_eq_true _ _).mp ran
  obtain ⟨workers,scheduled⟩ := (Bool.and_eq_true _ _).mp rest
  obtain ⟨s,ended,checked⟩ := (Option.any_eq_true _ _).mp scheduled
  obtain ⟨done,held⟩ := (Bool.and_eq_true _ _).mp checked
  have started : (scheduling inv.popen 1 runner.testsRunList runner.testsRunMap).Reachable (start 1 _ _) := .initial rfl
  exact ⟨runner,s,prepared,of_decide_eq_true workers,started.run labels ended,of_decide_eq_true done,held⟩

/-- One worker takes one test that passes. -/
def oneWorker : List (Action 1) :=
  [.put,.put,.start,.start,.test (.thread 0),.get (.thread 0),.run (.thread 0),.record (.thread 0),.count (.thread 0),
    .test (.thread 0),.join,.join]

def passing : Invocation := oneTest "a" "x" (by decide) [] [("PWD","/src")] succeeds

theorem run_reports_passing : ∃ (runner : Runner String) (s : State 1), runner.testsRunList.length = 1 ∧
    (Reports tree passing runner s ↔
      ∀ job ∈ runner.testsRunList, runTest passing.popen (job.queue.redirect 1) job ≠ .raised) := by
  obtain ⟨runner,s,prepared,workers,reached,completed,one⟩ := exists_run passing oneWorker (fun runner _ => runner.testsRunList.length = 1) (by decide)
  exact ⟨runner,s,of_decide_eq_true one,run_reports_iff prepared workers reached completed⟩

/-- Without `PWD` in the environment the only worker ends with a `KeyError`, and all tests passed. -/
theorem lost_test_not_reported : ¬∀ (site : Site String) (file : StampFile String) (inv : Invocation) (runner : Runner String)
    (n : Nat) (s : State n), prepare site file inv = some runner →
    n = getWorkersNum inv.cpuCoreNum inv.options.testJobs runner.testsRunList.length →
    (scheduling inv.popen n runner.testsRunList runner.testsRunMap).Reachable s → s.main = .done →
    Reports site inv runner s := by
  intro always
  obtain ⟨runner,s,prepared,workers,reached,completed,lost⟩ := exists_run (oneTest "a" "x" (by decide) [] [("HOME","/")] succeeds)
    [.put,.put,.start,.start,.test (.thread 0),.get (.thread 0),.run (.thread 0),.join,.join]
    (fun runner s => (summarize tree runner s.failedTargets).1 = 0 && runner.testsRunList.any
      fun job => (job,Outcome.exited 0) ∉ s.outcomes) (by decide)
  obtain ⟨zero,missed⟩ := (Bool.and_eq_true _ _).mp lost
  obtain ⟨job,member,absent⟩ := List.any_eq_true.mp missed
  have reports := always tree .absent _ runner 1 s prepared workers reached completed
  exact of_decide_eq_true absent (reports.zero (of_decide_eq_true zero) job member)

end WebSearch.TestRunner
