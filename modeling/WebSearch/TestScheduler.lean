import WebSearch.DependencyAnalyzer
import WebSearch.Library.Tally
import WebSearch.Library.Transition
import Mathlib.Tactic.DeriveFintype

/-! `blade/test_scheduler.py`: `TestScheduler`. The main thread puts the tests, starts
the workers and joins them; each worker takes tests until it finds its queue empty, in
two steps. Each region under a lock is one step. What a process does is `popen`. -/
namespace WebSearch.TestScheduler
open DependencyAnalyzer Library Function

/-- An entry of `testdata`: a file, or a file and the name of its link. -/
inductive TestData
  | file (name : String)
  | linked (name link : String)
  deriving DecidableEq

structure Target where
  path : String
  name : String
  type : String
  dynamicLink : Bool
  testdata : List TestData
  alwaysRun : Bool
  exclusive : Bool
  heapCheck : String
  expandedDeps : List TargetId
  deriving DecidableEq

def Target.key (target : Target) : TargetId := (target.path,target.name)

abbrev Environ := List (String × String)

structure Job where
  target : Target
  runDir : String
  testEnv : Environ
  cmd : List String
  deriving DecidableEq

/-- How a test ends: its return code, an `OSError`, or any other exception. -/
inductive Outcome
  | exited (returncode : Int)
  | osError
  | raised
  deriving DecidableEq

/-- The process that is started with this command, environment and directory. -/
abbrev Popen := List String → Environ → String → Outcome

/-- Why a test is run. -/
inductive Reason
  | noHistory
  | argument
  | environment
  | stale
  | fulltest
  | explicit
  | lastFailed
  | binary
  | testdata
  deriving DecidableEq

/-- An entry of `tests_run_map`. -/
structure RunItem where
  runfile : String
  result : String
  reason : Reason
  deriving DecidableEq

abbrev TestsRunMap := List (TargetId × RunItem)

def signalMap : List (Int × String) := [
  (-1,"SIGHUP"),(-2,"SIGINT"),(-3,"SIGQUIT"),(-4,"SIGILL"),(-5,"SIGTRAP"),(-6,"SIGABRT"),(-7,"SIGBUS"),
  (-8,"SIGFPE"),(-9,"SIGKILL"),(-10,"SIGUSR1"),(-11,"SIGSEGV"),(-12,"SIGUSR2"),(-13,"SIGPIPE"),
  (-14,"SIGALRM"),(-15,"SIGTERM"),(-17,"SIGCHLD"),(-18,"SIGCONT"),(-19,"SIGSTOP"),(-20,"SIGTSTP"),
  (-21,"SIGTTIN"),(-22,"SIGTTOU"),(-23,"SIGURG"),(-24,"SIGXCPU"),(-25,"SIGXFSZ"),(-26,"SIGVTALRM"),
  (-27,"SIGPROF"),(-28,"SIGWINCH"),(-29,"SIGIO"),(-30,"SIGPWR"),(-31,"SIGSYS")]

def getResult (returncode : Int) : String :=
  if returncode ≠ 0 then (signalMap.lookup returncode).getD "FAILED" ++ ":" ++ toString returncode else "SUCCESS"

def getWorkersNum (cpuCoreNum : Nat) (jobs : Int) (numOfTests : Nat) : Nat :=
  let maxWorkers := if max cpuCoreNum 16 = 0 then 16 else max cpuCoreNum 16
  if jobs ≤ 1 then 1
  else
    let jobs := if maxWorkers < jobs then maxWorkers else jobs.toNat
    if numOfTests ≤ jobs then numOfTests else jobs

theorem getWorkersNum_pos (cpuCoreNum : Nat) (jobs : Int) {numOfTests : Nat} (some : 0 < numOfTests) :
    0 < getWorkersNum cpuCoreNum jobs numOfTests := by
  unfold getWorkersNum
  dsimp only
  repeat' split
  all_goals omega

def runJobRedirect (popen : Popen) (job : Job) : Outcome := popen job.cmd job.testEnv job.runDir

/-- Without `PWD` in the environment of the test this is a `KeyError`. -/
def runJob (popen : Popen) (job : Job) : Outcome := match job.testEnv.lookup "PWD" with
  | none => .raised
  | some runDir => popen job.cmd job.testEnv runDir

inductive Main
  | putting (rest : List Job)
  | starting (i : Nat)
  | joining (i : Nat)
  | joiningLast
  | done
  deriving DecidableEq

/-- The workers of the job queue, and `last_t` of the exclusive one. -/
inductive Worker (n : Nat)
  | thread (i : Fin n)
  | last
  deriving DecidableEq, Fintype

inductive Place
  | idle
  | testing
  | getting
  | running (job : Job)
  | failing (job : Job) (returncode : Int)
  | recording (job : Job) (returncode : Int)
  | counting (job : Job)
  | finished
  deriving DecidableEq

inductive Queue
  | jobQueue
  | exclusiveJobQueue
  deriving DecidableEq

instance : Fintype Queue := ⟨{.jobQueue,.exclusiveJobQueue},fun queue => by cases queue <;> simp⟩

/-- `outcomes` and `counted` record the tests that were taken, with what came of them,
and those that were counted. -/
structure State (n : Nat) where
  main : Main
  place : Worker n → Place
  queue : Queue → List Job
  failedTargets : List Target
  testExitCode : TargetId → Option Int
  testsRunMap : TestsRunMap
  numOfRunTests : Nat
  outcomes : List (Job × Outcome)
  counted : List Job

inductive Action (n : Nat)
  | put
  | start
  | join
  | test (w : Worker n)
  | get (w : Worker n)
  | run (w : Worker n)
  | fail (w : Worker n)
  | record (w : Worker n)
  | count (w : Worker n)
  deriving DecidableEq

variable {n : Nat}

def Job.queue (job : Job) : Queue := if job.target.exclusive then .exclusiveJobQueue else .jobQueue

def Worker.queue : Worker n → Queue
  | .thread _ => .jobQueue
  | .last => .exclusiveJobQueue

/-- The argument `redirect` that goes with a queue: with one worker the tests keep
their output, as the exclusive ones do. -/
def Queue.redirect (n : Nat) : Queue → Bool
  | .jobQueue => 1 < n
  | .exclusiveJobQueue => false

/-- The `try` of `_process_command`. -/
def runTest (popen : Popen) (redirect : Bool) (job : Job) : Outcome :=
  if redirect then runJobRedirect popen job else runJob popen job

/-- Where a worker goes on; an exception that is no `OSError` ends the thread. -/
def Place.after (job : Job) : Outcome → Place
  | .exited returncode => if returncode ≠ 0 then .failing job returncode else .recording job 0
  | .osError => .failing job 255
  | .raised => .finished

theorem Place.after_cases (job : Job) (o : Outcome) :
    (∃ returncode, returncode ≠ 0 ∧ after job o = .failing job returncode ∧ o ≠ .exited 0 ∧ o ≠ .raised) ∨
    (o = .exited 0 ∧ after job o = .recording job 0) ∨ (o = .raised ∧ after job o = .finished) := by
  cases o with
  | exited returncode =>
    by_cases zero : returncode = 0
    · exact .inr (.inl ⟨by rw [zero],by simp [after,zero]⟩)
    · exact .inl ⟨returncode,zero,by simp [after,zero],by simpa using zero,by simp⟩
  | osError => exact .inl ⟨255,by decide,rfl,by simp,by simp⟩
  | raised => exact .inr (.inr ⟨rfl,rfl⟩)

def recordResult (runMap : TestsRunMap) (target : Target) (returncode : Int) : TestsRunMap :=
  runMap.map fun (key,item) => if key = target.key then (key,{item with result := getResult returncode}) else (key,item)

def stepMain (s : State n) : Action n → Option (State n)
  | .put => match s.main with
    | .putting (job :: rest) =>
      some {s with main := .putting rest,queue := update s.queue job.queue (s.queue job.queue ++ [job])}
    | .putting [] => some {s with main := .starting 0}
    | _ => none
  | .start => match s.main with
    | .starting i =>
      if bound : i < n then
        some {s with main := .starting (i + 1),place := update s.place (.thread ⟨i,bound⟩) .testing}
      else some {s with main := .joining 0}
    | _ => none
  | .join => match s.main with
    | .joining i =>
      if bound : i < n then
        if s.place (.thread ⟨i,bound⟩) = .finished then some {s with main := .joining (i + 1)} else none
      else if s.queue .exclusiveJobQueue = [] then some {s with main := .done}
      else some {s with main := .joiningLast,place := update s.place .last .testing}
    | .joiningLast => if s.place .last = .finished then some {s with main := .done} else none
    | _ => none
  | _ => none

def step (popen : Popen) (s : State n) : Action n → Option (State n)
  | .test w => match s.place w with
    | .testing => some {s with place := update s.place w (if s.queue w.queue = [] then .finished else .getting)}
    | _ => none
  | .get w => match s.place w, s.queue w.queue with
    | .getting, job :: rest =>
      some {s with place := update s.place w (.running job),queue := update s.queue w.queue rest}
    | _, _ => none
  | .run w => match s.place w with
    | .running job => some {s with
        place := update s.place w (.after job (runTest popen (w.queue.redirect n) job))
        outcomes := s.outcomes ++ [(job,runTest popen (w.queue.redirect n) job)]}
    | _ => none
  | .fail w => match s.place w with
    | .failing job returncode => some {s with
        place := update s.place w (.recording job returncode)
        testExitCode := update s.testExitCode job.target.key (some returncode)
        failedTargets := s.failedTargets ++ [job.target]}
    | _ => none
  | .record w => match s.place w with
    | .recording job returncode => some {s with
        place := update s.place w (.counting job)
        testsRunMap := recordResult s.testsRunMap job.target returncode}
    | _ => none
  | .count w => match s.place w with
    | .counting job => some {s with
        place := update s.place w .testing
        numOfRunTests := s.numOfRunTests + 1
        counted := s.counted ++ [job]}
    | _ => none
  | a => stepMain s a

def start (n : Nat) (tests : List Job) (runMap : TestsRunMap) : State n where
  main := if tests = [] then .done else .putting tests
  place _ := .idle
  queue _ := []
  failedTargets := []
  testExitCode _ := none
  testsRunMap := runMap
  numOfRunTests := 0
  outcomes := []
  counted := []

/-- `schedule_jobs` with `n` workers. -/
def scheduling (popen : Popen) (n : Nat) (tests : List Job) (runMap : TestsRunMap) : System (State n) (Action n) where
  initial s := s = start n tests runMap
  step := step popen

def scheduleJobs (popen : Popen) (cpuCoreNum : Nat) (jobs : Int) (tests : List Job) (runMap : TestsRunMap) :=
  scheduling popen (getWorkersNum cpuCoreNum jobs tests.length) tests runMap

/-- What a step can do. -/
inductive Move (popen : Popen) (s : State n) : Action n → State n → Prop
  | put {job rest} (main : s.main = .putting (job :: rest)) :
      Move popen s .put {s with main := .putting rest,queue := update s.queue job.queue (s.queue job.queue ++ [job])}
  | allPut (main : s.main = .putting []) : Move popen s .put {s with main := .starting 0}
  | start {i} (main : s.main = .starting i) (bound : i < n) :
      Move popen s .start {s with main := .starting (i + 1),place := update s.place (.thread ⟨i,bound⟩) .testing}
  | allStarted {i} (main : s.main = .starting i) (bound : n ≤ i) : Move popen s .start {s with main := .joining 0}
  | joined {i} (main : s.main = .joining i) (bound : i < n) (ended : s.place (.thread ⟨i,bound⟩) = .finished) :
      Move popen s .join {s with main := .joining (i + 1)}
  | noneExclusive {i} (main : s.main = .joining i) (bound : n ≤ i) (empty : s.queue .exclusiveJobQueue = []) :
      Move popen s .join {s with main := .done}
  | startLast {i} (main : s.main = .joining i) (bound : n ≤ i) (some : s.queue .exclusiveJobQueue ≠ []) :
      Move popen s .join {s with main := .joiningLast,place := update s.place .last .testing}
  | lastJoined (main : s.main = .joiningLast) (ended : s.place .last = .finished) :
      Move popen s .join {s with main := .done}
  | leave {w} (place : s.place w = .testing) (empty : s.queue w.queue = []) :
      Move popen s (.test w) {s with place := update s.place w .finished}
  | see {w} (place : s.place w = .testing) (some : s.queue w.queue ≠ []) :
      Move popen s (.test w) {s with place := update s.place w .getting}
  | get {w job rest} (place : s.place w = .getting) (front : s.queue w.queue = job :: rest) :
      Move popen s (.get w) {s with place := update s.place w (.running job),queue := update s.queue w.queue rest}
  | run {w job} (place : s.place w = .running job) :
      Move popen s (.run w) {s with
        place := update s.place w (.after job (runTest popen (w.queue.redirect n) job))
        outcomes := s.outcomes ++ [(job,runTest popen (w.queue.redirect n) job)]}
  | fail {w job returncode} (place : s.place w = .failing job returncode) :
      Move popen s (.fail w) {s with
        place := update s.place w (.recording job returncode)
        testExitCode := update s.testExitCode job.target.key (some returncode)
        failedTargets := s.failedTargets ++ [job.target]}
  | record {w job returncode} (place : s.place w = .recording job returncode) :
      Move popen s (.record w) {s with
        place := update s.place w (.counting job)
        testsRunMap := recordResult s.testsRunMap job.target returncode}
  | count {w job} (place : s.place w = .counting job) :
      Move popen s (.count w) {s with
        place := update s.place w .testing
        numOfRunTests := s.numOfRunTests + 1
        counted := s.counted ++ [job]}

theorem stepMain_move {popen : Popen} {s s' : State n} {a : Action n} (taken : stepMain s a = some s') :
    Move popen s a s' := by
  unfold stepMain at taken
  split at taken
  · split at taken
    · rename_i main
      cases taken
      exact .put main
    · rename_i main
      cases taken
      exact .allPut main
    · contradiction
  · split at taken
    · rename_i main
      split at taken
      · rename_i bound
        cases taken
        exact .start main bound
      · rename_i bound
        cases taken
        exact .allStarted main (Nat.not_lt.mp bound)
    · contradiction
  · split at taken
    · rename_i main
      split at taken
      · rename_i bound
        split at taken
        · rename_i ended
          cases taken
          exact .joined main bound ended
        · contradiction
      · rename_i bound
        split at taken
        · rename_i empty
          cases taken
          exact .noneExclusive main (Nat.not_lt.mp bound) empty
        · rename_i some
          cases taken
          exact .startLast main (Nat.not_lt.mp bound) some
    · rename_i main
      split at taken
      · rename_i ended
        cases taken
        exact .lastJoined main ended
      · contradiction
    · contradiction
  · contradiction

theorem step_move {popen : Popen} {s s' : State n} {a : Action n} (taken : step popen s a = some s') :
    Move popen s a s' := by
  unfold step at taken
  split at taken
  · split at taken
    · rename_i place
      cases taken
      split
      · rename_i empty
        exact .leave place empty
      · rename_i some
        exact .see place some
    · contradiction
  · split at taken
    · rename_i place front
      cases taken
      exact .get place front
    · contradiction
  · split at taken
    · rename_i place
      cases taken
      exact .run place
    · contradiction
  · split at taken
    · rename_i place
      cases taken
      exact .fail place
    · contradiction
  · split at taken
    · rename_i place
      cases taken
      exact .record place
    · contradiction
  · split at taken
    · rename_i place
      cases taken
      exact .count place
    · contradiction
  · exact stepMain_move taken

end WebSearch.TestScheduler
