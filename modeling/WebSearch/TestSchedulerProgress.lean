import WebSearch.TestScheduler
import Mathlib.Algebra.Order.BigOperators.Group.Finset

/-! `blade/test_scheduler.py`: joining the workers. A worker that has found the queue
not empty needs a job of its own in it when it comes to take one. -/
namespace WebSearch.TestScheduler
open Library Function

variable {n : Nat} {popen : Popen}

def Main.puts : Main → Bool
  | .putting _ => true
  | _ => false

/-- A worker waits in `get` for a job that nobody will put. -/
def Blocked (s : State n) : Prop :=
  s.main.puts = false ∧ ∃ w, s.place w = .getting ∧ s.queue w.queue = []

instance (s : State n) : Decidable (Blocked s) := inferInstanceAs (Decidable (_ ∧ _))

def gets (queue : Queue) (w : Worker n) (p : Place) : Nat := if w.queue = queue ∧ p = .getting then 1 else 0

/-- The workers between `empty` and `get` of a queue. -/
def getters (place : Worker n → Place) (queue : Queue) : Nat := tally (gets queue) place

/-- A worker finds its queue not empty only while the queue holds more jobs than others
are about to take. -/
def Covered (s : State n) : Action n → Prop
  | .test w => s.queue w.queue ≠ [] → getters s.place w.queue < (s.queue w.queue).length
  | _ => True

instance (s : State n) (a : Action n) : Decidable (Covered s a) := by
  unfold Covered
  split <;> infer_instance

/-- What the threads are doing at each point of the main thread. -/
def Phase (main : Main) (place : Worker n → Place) (queue : Queue → List Job) : Prop := match main with
  | .putting _ => ∀ w, place w = .idle
  | .starting i => (∀ j : Fin n, place (.thread j) = .idle ↔ i ≤ j.val) ∧ place .last = .idle
  | .joining i => (∀ j : Fin n, place (.thread j) ≠ .idle ∧ (j.val < i → place (.thread j) = .finished)) ∧ place .last = .idle
  | .joiningLast => (∀ j : Fin n, place (.thread j) = .finished) ∧ place .last ≠ .idle
  | .done => ∀ w, place w = .finished ∨ place w = .idle ∧ queue w.queue = []

theorem Phase.work {main : Main} {place : Worker n → Place} {queue : Queue → List Job} (before : Phase main place queue)
    {w : Worker n} (started : place w ≠ .idle) (unfinished : place w ≠ .finished) {p : Place} (working : p ≠ .idle)
    (queue' : Queue → List Job) : Phase main (update place w p) queue' := by
  cases main with
  | putting rest => exact absurd (before w) started
  | starting i =>
    obtain ⟨threads,last⟩ := before
    cases w with
    | thread k =>
      refine ⟨fun j => ?_,by rwa [update_of_ne (by simp)]⟩
      by_cases same : j = k
      · rw [same,update_self,← threads k]
        exact iff_of_false working started
      · rw [update_of_ne (by simpa using same)]
        exact threads j
    | last => exact absurd last started
  | joining i =>
    obtain ⟨threads,last⟩ := before
    cases w with
    | thread k =>
      refine ⟨fun j => ?_,by rwa [update_of_ne (by simp)]⟩
      by_cases same : j = k
      · rw [same,update_self]
        exact ⟨working,fun early => absurd ((threads k).2 early) unfinished⟩
      · rw [update_of_ne (by simpa using same)]
        exact threads j
    | last => exact absurd last started
  | joiningLast =>
    obtain ⟨threads,last⟩ := before
    cases w with
    | thread k => exact absurd (threads k) unfinished
    | last =>
      refine ⟨fun j => ?_,by rwa [update_self]⟩
      rw [update_of_ne (by simp)]
      exact threads j
  | done =>
    rcases before w with ended | ⟨idle,_⟩
    · exact absurd ended unfinished
    · exact absurd idle started

theorem phase_move {s s' : State n} {a : Action n} (before : Phase s.main s.place s.queue) (move : Move popen s a s') :
    Phase s'.main s'.place s'.queue := by
  cases move with
  | put main =>
    rw [main] at before
    exact before
  | allPut main =>
    rw [main] at before
    exact ⟨fun j => iff_of_true (before _) (Nat.zero_le _),before _⟩
  | @start i main bound =>
    rw [main] at before
    obtain ⟨threads,last⟩ := before
    change Phase (.starting (i + 1)) (update s.place (.thread ⟨i,bound⟩) .testing) s.queue
    refine ⟨fun j => ?_,by rwa [update_of_ne (by simp)]⟩
    by_cases same : j = ⟨i,bound⟩
    · rw [same,update_self]
      exact iff_of_false (by simp) (by simp)
    · have different : j.val ≠ i := fun equal => same (Fin.ext equal)
      rw [update_of_ne (by simpa using same),threads j]
      omega
  | @allStarted i main bound =>
    rw [main] at before
    obtain ⟨threads,last⟩ := before
    refine ⟨fun j => ⟨?_,fun early => absurd early (Nat.not_lt_zero _)⟩,last⟩
    rw [Ne,threads j]
    have inside := j.isLt
    omega
  | @joined i main bound ended =>
    rw [main] at before
    obtain ⟨threads,last⟩ := before
    refine ⟨fun j => ⟨(threads j).1,fun early => ?_⟩,last⟩
    rcases Nat.lt_succ_iff_lt_or_eq.mp early with earlier | now
    · exact (threads j).2 earlier
    · have same : j = ⟨i,bound⟩ := Fin.ext now
      rw [same,ended]
  | @noneExclusive i main bound empty =>
    rw [main] at before
    obtain ⟨threads,last⟩ := before
    intro w
    cases w with
    | thread j => exact .inl ((threads j).2 (by have := j.isLt; omega))
    | last => exact .inr ⟨last,empty⟩
  | @startLast i main bound some =>
    rw [main] at before
    obtain ⟨threads,last⟩ := before
    change Phase .joiningLast (update s.place .last .testing) s.queue
    refine ⟨fun j => ?_,by simp⟩
    rw [update_of_ne (by simp)]
    exact (threads j).2 (by have := j.isLt; omega)
  | lastJoined main ended =>
    rw [main] at before
    obtain ⟨threads,last⟩ := before
    intro w
    cases w with
    | thread j => exact .inl (threads j)
    | last => exact .inl ended
  | leave place | see place | fail place | record place | count place | get place =>
    exact before.work (by simp [place]) (by simp [place]) (by simp) _
  | @run w job place =>
    apply before.work (by simp [place]) (by simp [place])
    rcases Place.after_cases job (runTest popen (w.queue.redirect n) job) with ⟨_,_,goes,_⟩ | ⟨_,goes⟩ | ⟨_,goes⟩ <;> simp [goes]

theorem phase_start (tests : List Job) (runMap : TestsRunMap) :
    Phase (start n tests runMap).main (start n tests runMap).place (start n tests runMap).queue := by
  unfold start
  cases tests with
  | nil => exact fun w => .inr ⟨rfl,rfl⟩
  | cons job rest => exact fun w => rfl

/-! No worker waits for a job that does not come. -/

/-- Every worker about to take a job finds one. -/
def Supplied (s : State n) : Prop := ∀ queue, getters s.place queue ≤ (s.queue queue).length

theorem gets_of_ne {queue : Queue} {w : Worker n} {p : Place} (elsewhere : p ≠ .getting) : gets queue w p = 0 :=
  if_neg fun both => elsewhere both.2

theorem gets_pos {queue : Queue} {w : Worker n} {p : Place} : 0 < gets queue w p ↔ w.queue = queue ∧ p = .getting := by
  unfold gets
  split <;> simp_all

theorem getters_update (place : Worker n → Place) (w : Worker n) (p : Place) (queue : Queue) :
    getters (update place w p) queue + gets queue w (place w) = getters place queue + gets queue w p := by
  obtain ⟨others,now,later⟩ := tally_update (gets queue) place w
  unfold getters
  rw [now,later]
  omega

theorem getters_same {place : Worker n → Place} {w : Worker n} (before : place w ≠ .getting) {p : Place}
    (after : p ≠ .getting) : getters (update place w p) = getters place := by
  funext queue
  have change := getters_update place w p queue
  rwa [gets_of_ne before,gets_of_ne after] at change

theorem exists_getter {place : Worker n → Place} {queue : Queue} :
    0 < getters place queue ↔ ∃ w, w.queue = queue ∧ place w = .getting := by
  unfold getters tally
  rw [Finset.sum_pos_iff]
  simp only [Finset.mem_univ,true_and,gets_pos]

theorem Supplied.elsewhere {s : State n} (before : Supplied s) {w : Worker n} (old : s.place w ≠ .getting) {p : Place}
    (new : p ≠ .getting) (queue : Queue) : getters (update s.place w p) queue ≤ (s.queue queue).length := by
  rw [getters_same old new]
  exact before queue

theorem Supplied.see {s : State n} (before : Supplied s) {w : Worker n} (testing : s.place w = .testing)
    (room : getters s.place w.queue < (s.queue w.queue).length) (queue : Queue) :
    getters (update s.place w .getting) queue ≤ (s.queue queue).length := by
  have change := getters_update s.place w .getting queue
  rw [testing,gets_of_ne (by simp)] at change
  by_cases same : w.queue = queue
  · rw [gets,if_pos ⟨same,rfl⟩] at change
    rw [same] at room
    omega
  · rw [gets,if_neg fun both => same both.1] at change
    exact change.le.trans (before queue)

theorem Supplied.get {s : State n} (before : Supplied s) {w : Worker n} (getting : s.place w = .getting) {job : Job}
    {rest : List Job} (front : s.queue w.queue = job :: rest) (queue : Queue) :
    getters (update s.place w (.running job)) queue ≤ (update s.queue w.queue rest queue).length := by
  have change := getters_update s.place w (.running job) queue
  rw [getting,gets_of_ne (p := .running job) (by simp)] at change
  have enough := before queue
  by_cases same : queue = w.queue
  · rw [gets,if_pos ⟨same.symm,rfl⟩] at change
    rw [same,update_self]
    rw [same,front,List.length_cons] at enough
    rw [same] at change
    omega
  · rw [update_of_ne same]
    omega

theorem Phase.thread_idle {place : Worker n → Place} {queue : Queue → List Job} {i : Nat}
    (phase : Phase (.starting i) place queue) (bound : i < n) : place (.thread ⟨i,bound⟩) = .idle :=
  (phase.1 ⟨i,bound⟩).mpr le_rfl

theorem supplied_move {s s' : State n} {a : Action n} (before : Supplied s) (phase : Phase s.main s.place s.queue)
    (covered : Covered s a) (move : Move popen s a s') : Supplied s' := by
  cases move with
  | @put job rest main =>
    intro queue
    apply (before queue).trans
    change (s.queue queue).length ≤ (update s.queue job.queue (s.queue job.queue ++ [job]) queue).length
    by_cases same : queue = job.queue
    · rw [same,update_self,List.length_append]
      exact Nat.le_add_right _ _
    · rw [update_of_ne same]
  | allPut | allStarted | joined | noneExclusive | lastJoined => exact before
  | @start i main bound =>
    rw [main] at phase
    exact before.elsewhere (by simp [phase.thread_idle bound]) (by simp)
  | @startLast i main bound some =>
    rw [main] at phase
    exact before.elsewhere (by simp [phase.2]) (by simp)
  | see testing some => exact before.see testing (covered some)
  | get getting front => exact before.get getting front
  | leave place | fail place | record place | count place => exact before.elsewhere (by simp [place]) (by simp)
  | @run w job place =>
    apply before.elsewhere (by simp [place])
    rcases Place.after_cases job (runTest popen (w.queue.redirect n) job) with ⟨_,_,goes,_⟩ | ⟨_,goes⟩ | ⟨_,goes⟩ <;> simp [goes]

theorem supplied_reachable {tests : List Job} {runMap : TestsRunMap} {s : State n}
    (reached : ((scheduling popen n tests runMap).restrict Covered).Reachable s) :
    Phase s.main s.place s.queue ∧ Supplied s := by
  apply reached.invariant (fun s => Phase s.main s.place s.queue ∧ Supplied s)
  · intro s initial
    rw [initial]
    refine ⟨phase_start tests runMap,fun queue => ?_⟩
    exact (tally_eq_zero fun w => gets_of_ne (by simp [start])).le
  · intro s a s' ⟨phase,supplied⟩ taken
    obtain ⟨covered,taken⟩ := System.restrict_step.mp taken
    have move := step_move taken
    exact ⟨phase_move phase move,supplied_move supplied phase covered move⟩

theorem Supplied.not_blocked {s : State n} (supplied : Supplied s) : ¬Blocked s := by
  intro ⟨_,w,getting,empty⟩
  have waiting : 0 < getters s.place w.queue := exists_getter.mpr ⟨w,rfl,getting⟩
  have enough := supplied w.queue
  rw [empty,List.length_nil] at enough
  omega

/-! Some step can always be taken, and there are only so many. -/

theorem worker_progress {s : State n} (supplied : Supplied s) {w : Worker n} (started : s.place w ≠ .idle)
    (unfinished : s.place w ≠ .finished) : ∃ a, Covered s a ∧ (step popen s a).isSome = true := by
  have take (u : Worker n) (getting : s.place u = .getting) : ∃ a, Covered s a ∧ (step popen s a).isSome = true := by
    have waiting : 0 < getters s.place u.queue := exists_getter.mpr ⟨u,rfl,getting⟩
    cases front : s.queue u.queue with
    | nil => exact absurd (supplied u.queue) (by rw [front,List.length_nil]; omega)
    | cons job rest => exact ⟨.get u,trivial,by simp [step,getting,front]⟩
  cases place : s.place w with
  | idle => exact absurd place started
  | finished => exact absurd place unfinished
  | testing =>
    by_cases room : getters s.place w.queue < (s.queue w.queue).length
    · exact ⟨.test w,fun _ => room,by simp [step,place]⟩
    · by_cases empty : s.queue w.queue = []
      · exact ⟨.test w,fun some => absurd empty some,by simp [step,place]⟩
      · have some : 0 < (s.queue w.queue).length := List.length_pos_iff.mpr empty
        obtain ⟨u,_,getting⟩ := exists_getter.mp (some.trans_le (Nat.not_lt.mp room))
        exact take u getting
  | getting => exact take w place
  | running job => exact ⟨.run w,trivial,by simp [step,place]⟩
  | failing job returncode => exact ⟨.fail w,trivial,by simp [step,place]⟩
  | recording job returncode => exact ⟨.record w,trivial,by simp [step,place]⟩
  | counting job => exact ⟨.count w,trivial,by simp [step,place]⟩

theorem progress {s : State n} (phase : Phase s.main s.place s.queue) (supplied : Supplied s)
    (unfinished : s.main ≠ .done) : ∃ a, Covered s a ∧ (step popen s a).isSome = true := by
  cases main : s.main with
  | putting rest =>
    cases rest with
    | nil => exact ⟨.put,trivial,by simp [step,stepMain,main]⟩
    | cons job rest => exact ⟨.put,trivial,by simp [step,stepMain,main]⟩
  | starting i =>
    by_cases bound : i < n
    · exact ⟨.start,trivial,by simp [step,stepMain,main,bound]⟩
    · exact ⟨.start,trivial,by simp [step,stepMain,main,bound]⟩
  | joining i =>
    rw [main] at phase
    by_cases bound : i < n
    · by_cases ended : s.place (.thread ⟨i,bound⟩) = .finished
      · exact ⟨.join,trivial,by simp [step,stepMain,main,bound,ended]⟩
      · exact worker_progress supplied (phase.1 ⟨i,bound⟩).1 ended
    · by_cases empty : s.queue .exclusiveJobQueue = []
      · exact ⟨.join,trivial,by simp [step,stepMain,main,bound,empty]⟩
      · exact ⟨.join,trivial,by simp [step,stepMain,main,bound,empty]⟩
  | joiningLast =>
    rw [main] at phase
    by_cases ended : s.place .last = .finished
    · exact ⟨.join,trivial,by simp [step,stepMain,main,ended]⟩
    · exact worker_progress supplied phase.2 ended
  | done => exact absurd main unfinished

def Main.left (n : Nat) : Main → Nat
  | .putting rest => 7 * rest.length + 2 * n + 4
  | .starting i => (n - i) + n + 3
  | .joining i => (n - i) + 2
  | .joiningLast => 1
  | .done => 0

def Place.left : Place → Nat
  | .idle => 3
  | .testing => 2
  | .getting => 1
  | .running _ => 6
  | .failing _ _ => 5
  | .recording _ _ => 4
  | .counting _ => 3
  | .finished => 0

/-- An upper bound for the steps that are left: a test that is queued needs six. -/
def work (s : State n) : Nat :=
  s.main.left n + tally (fun (_ : Worker n) p => p.left) s.place + tally (fun (_ : Queue) jobs => 6 * jobs.length) s.queue

theorem Place.left_after (job : Job) (o : Outcome) : (Place.after job o).left < (Place.running job).left := by
  rcases after_cases job o with ⟨_,_,goes,_⟩ | ⟨_,goes⟩ | ⟨_,goes⟩ <;> simp [goes,left]

theorem places_left (place : Worker n → Place) (w : Worker n) (p : Place) :
    tally (fun (_ : Worker n) p => p.left) (update place w p) + (place w).left =
      tally (fun (_ : Worker n) p => p.left) place + p.left := by
  obtain ⟨others,now,later⟩ := tally_update (fun (_ : Worker n) p => p.left) place w
  rw [now,later]
  omega

theorem queues_left (queue : Queue → List Job) (q : Queue) (jobs : List Job) :
    tally (fun (_ : Queue) jobs => 6 * jobs.length) (update queue q jobs) + 6 * (queue q).length =
      tally (fun (_ : Queue) jobs => 6 * jobs.length) queue + 6 * jobs.length := by
  obtain ⟨others,now,later⟩ := tally_update (fun (_ : Queue) (jobs : List Job) => 6 * jobs.length) queue q
  rw [now,later]
  omega

theorem work_move {s s' : State n} {a : Action n} (phase : Phase s.main s.place s.queue) (move : Move popen s a s') :
    work s' < work s := by
  unfold work
  cases move with
  | @put job rest main =>
    have queued := queues_left s.queue job.queue (s.queue job.queue ++ [job])
    rw [List.length_append,List.length_singleton] at queued
    simp only [main,Main.left,List.length_cons]
    omega
  | allPut main =>
    simp only [main,Main.left,List.length_nil]
    omega
  | @start i main bound =>
    have started := places_left s.place (.thread ⟨i,bound⟩) .testing
    rw [main] at phase
    rw [phase.thread_idle bound] at started
    simp only [main,Main.left,Place.left] at started ⊢
    omega
  | allStarted main bound =>
    simp only [main,Main.left]
    omega
  | joined main bound ended =>
    simp only [main,Main.left]
    omega
  | noneExclusive main bound empty =>
    simp only [main,Main.left]
    omega
  | startLast main bound some =>
    have started := places_left s.place .last .testing
    rw [main] at phase
    rw [phase.2] at started
    simp only [main,Main.left,Place.left] at started ⊢
    omega
  | lastJoined main ended =>
    simp only [main,Main.left]
    omega
  | @leave w place empty =>
    have moved := places_left s.place w .finished
    simp only [place,Place.left] at moved ⊢
    omega
  | @see w place some =>
    have moved := places_left s.place w .getting
    simp only [place,Place.left] at moved ⊢
    omega
  | @get w job rest place front =>
    have moved := places_left s.place w (.running job)
    have taken := queues_left s.queue w.queue rest
    rw [front,List.length_cons] at taken
    simp only [place,Place.left] at moved ⊢
    omega
  | @run w job place =>
    have moved := places_left s.place w (.after job (runTest popen (w.queue.redirect n) job))
    have less := Place.left_after job (runTest popen (w.queue.redirect n) job)
    rw [place] at moved
    dsimp only
    omega
  | @fail w job returncode place =>
    have moved := places_left s.place w (.recording job returncode)
    simp only [place,Place.left] at moved ⊢
    omega
  | @record w job returncode place =>
    have moved := places_left s.place w (.counting job)
    simp only [place,Place.left] at moved ⊢
    omega
  | @count w job place =>
    have moved := places_left s.place w .testing
    simp only [place,Place.left] at moved ⊢
    omega

/-- Then the main thread gets past joining its workers: nobody is blocked, some step can
be taken until all is done, and no run has more than so many steps. -/
theorem workers_joined {tests : List Job} {runMap : TestsRunMap} {labels : List (Action n)} {s : State n}
    (ran : ((scheduling popen n tests runMap).restrict Covered).run (start n tests runMap) labels = some s) :
    ¬Blocked s ∧ (s.main ≠ .done → ∃ a, Covered s a ∧ (step popen s a).isSome = true) ∧
      labels.length ≤ work (start n tests runMap) := by
  have started : ((scheduling popen n tests runMap).restrict Covered).Reachable (start n tests runMap) := .initial rfl
  obtain ⟨phase,supplied⟩ := supplied_reachable (started.run labels ran)
  have bounded := started.run_length work (fun s a s' reached taken =>
    work_move (supplied_reachable reached).1 (step_move (System.restrict_step.mp taken).2)) ran
  exact ⟨supplied.not_blocked,progress phase supplied,(Nat.le_add_right _ _).trans bounded⟩

/-- A single worker takes its job before it looks again. -/
theorem single_worker {s s' : State n} {a : Action n} (single : n ≤ 1) (taken : step popen s a = some s') : Covered s a := by
  cases step_move taken with
  | put | allPut | start | allStarted | joined | noneExclusive | startLast | lastJoined => trivial
  | get | run | fail | record | count => trivial
  | leave place empty => exact fun some => absurd empty some
  | @see w place some =>
    intro nonempty
    have nobody : getters s.place w.queue = 0 := by
      by_contra taking
      obtain ⟨u,same,getting⟩ := exists_getter.mp (Nat.pos_of_ne_zero taking)
      have only : u = w := by
        cases u with
        | thread i =>
          cases w with
          | thread j => exact congrArg _ (Fin.ext (by omega))
          | last => cases same
        | last =>
          cases w with
          | thread j => cases same
          | last => rfl
      rw [only,place] at getting
      cases getting
    rw [nobody]
    exact List.length_pos_iff.mpr some

def testNamed (name : String) : Job where
  target := ⟨"a",name,"cc_test",false,[],false,false,"",[]⟩
  runDir := "./build/a/" ++ name ++ ".runfiles"
  testEnv := [("PWD","/src")]
  cmd := ["/src/build/a/" ++ name]

def twoTests : List Job := [testNamed "x",testNamed "y"]

def succeeds : Popen := fun _ _ _ => .exited 0

/-- Two workers take one test each. -/
def oneEach : List (Action 2) :=
  [.put,.put,.put,.start,.start,.start,.test (.thread 0),.get (.thread 0),.test (.thread 1),.get (.thread 1),
    .run (.thread 0),.record (.thread 0),.count (.thread 0),.run (.thread 1),.record (.thread 1),.count (.thread 1),
    .test (.thread 0),.test (.thread 1),.join,.join,.join]

theorem workers_joined_twoTests : ∃ s : State 2, (s.main = .done ∧ s.numOfRunTests = 2) ∧ ¬Blocked s ∧
    (s.main ≠ .done → ∃ a, Covered s a ∧ (step succeeds s a).isSome = true) ∧ 21 ≤ work (start 2 twoTests []) := by
  have ended : (((scheduling succeeds 2 twoTests []).restrict Covered).run (start 2 twoTests []) oneEach).any
      (fun s => decide (s.main = .done ∧ s.numOfRunTests = 2)) = true := by decide
  obtain ⟨s,ran,done⟩ := (Option.any_eq_true _ _).mp ended
  exact ⟨s,of_decide_eq_true done,workers_joined ran⟩

/-- Both workers see the second test, and the first takes it. -/
def bothSee : List (Action 2) :=
  [.put,.put,.put,.start,.start,.start,.test (.thread 0),.get (.thread 0),.run (.thread 0),.record (.thread 0),
    .count (.thread 0),.test (.thread 0),.test (.thread 1),.get (.thread 0)]

theorem worker_left_waiting : ¬∀ (popen : Popen) (cpuCoreNum : Nat) (jobs : Int) (tests : List Job) (runMap : TestsRunMap) s,
    (scheduleJobs popen cpuCoreNum jobs tests runMap).Reachable s → ¬Blocked s := by
  intro never
  obtain ⟨s,reached,blocked⟩ : ∃ s : State 2, (scheduling succeeds 2 twoTests []).Reachable s ∧ Blocked s :=
    System.exists_reachable _ rfl bothSee (by decide)
  exact never succeeds 2 2 twoTests [] s reached blocked

end WebSearch.TestScheduler
