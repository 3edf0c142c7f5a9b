import WebSearch.TestSchedulerProgress
import Mathlib.Tactic.Abel
import Mathlib.Algebra.BigOperators.Group.Multiset.Basic

/-! `blade/test_scheduler.py`: what becomes of the tests. Every test is still to be
taken, with a worker, or has an outcome; every outcome is on its way into the results,
or in them, or its worker is gone. -/
namespace WebSearch.TestScheduler
open Library Function

variable {n : Nat} {popen : Popen} {s s' : State n} {a : Action n} {tests : List Job} {runMap : TestsRunMap}

def Main.rest : Main → Multiset Job
  | .putting rest => rest
  | _ => 0

def Place.taken : Place → Multiset Job
  | .running job => {job}
  | _ => 0

def Place.finishing : Place → Multiset Job
  | .failing job _ | .recording job _ | .counting job => {job}
  | _ => 0

def Place.reporting : Place → Multiset Job
  | .failing job _ => {job}
  | _ => 0

/-- The tests with an outcome that meets a condition. -/
def ended (outcomes : List (Job × Outcome)) (how : Outcome → Bool) : Multiset Job :=
  ((outcomes.filter fun e => how e.2).map Prod.fst : List Job)

def Outcome.returns : Outcome → Bool
  | .raised => false
  | _ => true

def Outcome.fails : Outcome → Bool
  | .raised | .exited 0 => false
  | _ => true

theorem ended_append (outcomes : List (Job × Outcome)) (how : Outcome → Bool) (job : Job) (o : Outcome) :
    ended (outcomes ++ [(job,o)]) how = ended outcomes how + if how o then {job} else 0 := by
  unfold ended
  cases holds : how o <;> simp [List.filter_append,holds,← Multiset.coe_add]

theorem mem_ended {outcomes : List (Job × Outcome)} {how : Outcome → Bool} {job : Job} :
    job ∈ ended outcomes how ↔ ∃ o, how o = true ∧ (job,o) ∈ outcomes := by
  simp [ended,and_comm]

/-- The tests that the workers have in some of their places. -/
def placed (worth : Place → Multiset Job) (place : Worker n → Place) : Multiset Job := tally (fun _ p => worth p) place

def queued (queue : Queue → List Job) : Multiset Job := tally (fun _ (jobs : List Job) => (jobs : Multiset Job)) queue

theorem placed_update (worth : Place → Multiset Job) (place : Worker n → Place) (w : Worker n) : ∃ others,
    placed worth place = worth (place w) + others ∧ ∀ p, placed worth (update place w p) = worth p + others :=
  tally_update (fun _ p => worth p) place w

theorem placed_same {worth : Place → Multiset Job} {place : Worker n → Place} {w : Worker n} {p : Place}
    (same : worth p = worth (place w)) : placed worth (update place w p) = placed worth place := by
  obtain ⟨others,now,later⟩ := placed_update worth place w
  rw [now,later,same]

theorem queued_update (queue : Queue → List Job) (q : Queue) : ∃ others,
    queued queue = (queue q : Multiset Job) + others ∧ ∀ jobs : List Job, queued (update queue q jobs) = jobs + others :=
  tally_update (fun _ (jobs : List Job) => (jobs : Multiset Job)) queue q

structure Conserved (tests : List Job) (s : State n) : Prop where
  scheduled : s.main.rest + queued s.queue + placed Place.taken s.place + ended s.outcomes (fun _ => true) = tests
  counted : (s.counted : Multiset Job) + placed Place.finishing s.place = ended s.outcomes Outcome.returns
  failed : (s.failedTargets : Multiset Target) + (placed Place.reporting s.place).map Job.target =
    (ended s.outcomes Outcome.fails).map Job.target
  number : s.numOfRunTests = s.counted.length

theorem conserved_start : Conserved tests (start n tests runMap) := by
  have places (worth : Place → Multiset Job) (idle : worth .idle = 0) : placed worth (start n tests runMap).place = 0 :=
    tally_eq_zero fun _ => idle
  have queues : queued (start n tests runMap).queue = 0 := tally_eq_zero fun _ => rfl
  refine ⟨?_,?_,?_,rfl⟩
  · rw [queues,places Place.taken rfl]
    cases tests <;> simp [start,Main.rest,ended]
  · rw [places Place.finishing rfl]
    rfl
  · rw [places Place.reporting rfl]
    rfl

theorem Conserved.elsewhere (before : Conserved tests s) {w : Worker n} {p : Place}
    (taken : p.taken = (s.place w).taken) (finishing : p.finishing = (s.place w).finishing)
    (reporting : p.reporting = (s.place w).reporting) {main : Main} (rest : main.rest = s.main.rest) :
    Conserved tests {s with main,place := update s.place w p} := by
  refine ⟨?_,?_,?_,before.number⟩
  · rw [← before.scheduled,placed_same taken,rest]
  · rw [← before.counted,placed_same finishing]
  · rw [← before.failed,placed_same reporting]

theorem Conserved.main (before : Conserved tests s) {main : Main} (rest : main.rest = s.main.rest) :
    Conserved tests {s with main} := by
  refine ⟨?_,before.counted,before.failed,before.number⟩
  rw [← before.scheduled,rest]

theorem Conserved.run (before : Conserved tests s) {w : Worker n} {job : Job} (place : s.place w = .running job) (o : Outcome) :
    Conserved tests {s with place := update s.place w (.after job o),outcomes := s.outcomes ++ [(job,o)]} := by
  obtain ⟨scheduled,counted,failed,number⟩ := before
  obtain ⟨takers,taken,took⟩ := placed_update Place.taken s.place w
  obtain ⟨finishers,finishing,finished⟩ := placed_update Place.finishing s.place w
  obtain ⟨reporters,reporting,reported⟩ := placed_update Place.reporting s.place w
  rw [place] at taken finishing reporting
  rw [taken] at scheduled
  rw [finishing] at counted
  rw [reporting] at failed
  refine ⟨?_,?_,?_,number⟩
  · rw [← scheduled,took,ended_append]
    have gone : (Place.after job o).taken = 0 := by
      rcases Place.after_cases job o with ⟨_,_,goes,_⟩ | ⟨_,goes⟩ | ⟨_,goes⟩ <;> rw [goes] <;> rfl
    rw [gone]
    simp only [Place.taken,if_true]
    abel
  · rw [finished,ended_append,← counted]
    have goes : (Place.after job o).finishing = if o.returns then {job} else 0 := by
      rcases Place.after_cases job o with ⟨_,_,goes,_,returned⟩ | ⟨same,goes⟩ | ⟨same,goes⟩
      · rw [goes]
        cases o <;> first | rfl | contradiction
      · rw [goes,same]
        rfl
      · rw [goes,same]
        rfl
    rw [goes]
    simp only [Place.finishing]
    abel
  · rw [reported,ended_append,Multiset.map_add,Multiset.map_add,← failed]
    have goes : (Place.after job o).reporting = if o.fails then {job} else 0 := by
      rcases Place.after_cases job o with ⟨_,_,goes,nonzero,returned⟩ | ⟨same,goes⟩ | ⟨same,goes⟩
      · rw [goes]
        have failing : o.fails = true := by
          unfold Outcome.fails
          split <;> simp_all
        rw [failing]
        rfl
      · rw [goes,same]
        rfl
      · rw [goes,same]
        rfl
    rw [goes]
    simp only [Place.reporting,Multiset.map_add,Multiset.map_zero]
    abel

theorem conserved_move (before : Conserved tests s) (phase : Phase s.main s.place s.queue) (move : Move popen s a s') :
    Conserved tests s' := by
  cases move with
  | @put job rest main =>
    obtain ⟨others,now,later⟩ := queued_update s.queue job.queue
    refine ⟨?_,before.counted,before.failed,before.number⟩
    rw [← before.scheduled,later,now,main,← Multiset.coe_add]
    rw [Multiset.coe_singleton]
    simp only [Main.rest,← Multiset.cons_coe,← Multiset.singleton_add]
    abel
  | allPut main | allStarted main | joined main | noneExclusive main | lastJoined main =>
    exact before.main (by rw [main]; rfl)
  | @start i main bound =>
    rw [main] at phase
    have idle := phase.thread_idle bound
    exact before.elsewhere (by rw [idle]; rfl) (by rw [idle]; rfl) (by rw [idle]; rfl) (by rw [main]; rfl)
  | @startLast i main bound some =>
    rw [main] at phase
    have idle := phase.2
    exact before.elsewhere (by rw [idle]; rfl) (by rw [idle]; rfl) (by rw [idle]; rfl) (by rw [main]; rfl)
  | @record w job returncode place =>
    have moved := before.elsewhere (w := w) (p := .counting job) (by rw [place]; rfl) (by rw [place]; rfl)
      (by rw [place]; rfl) (Eq.refl s.main.rest)
    exact ⟨moved.scheduled,moved.counted,moved.failed,moved.number⟩
  | leave place | see place =>
    exact before.elsewhere (by rw [place]; rfl) (by rw [place]; rfl) (by rw [place]; rfl) rfl
  | @get w job rest place front =>
    obtain ⟨others,now,later⟩ := queued_update s.queue w.queue
    obtain ⟨takers,taken,took⟩ := placed_update Place.taken s.place w
    refine ⟨?_,?_,?_,before.number⟩
    · rw [← before.scheduled,later,now,took,taken,place,front]
      simp only [Place.taken,← Multiset.cons_coe,← Multiset.singleton_add]
      abel
    · rw [← before.counted,placed_same (by rw [place]; rfl)]
    · rw [← before.failed,placed_same (by rw [place]; rfl)]
  | run place => exact before.run place _
  | @fail w job returncode place =>
    obtain ⟨reporters,reporting,reported⟩ := placed_update Place.reporting s.place w
    refine ⟨?_,?_,?_,before.number⟩
    · rw [← before.scheduled,placed_same (by rw [place]; rfl)]
    · rw [← before.counted,placed_same (by rw [place]; rfl)]
    · rw [← before.failed,reporting,reported,place,← Multiset.coe_add]
      simp only [Place.reporting,Multiset.map_add,Multiset.map_zero,Multiset.map_singleton,Multiset.coe_singleton]
      abel
  | @count w job place =>
    obtain ⟨finishers,finishing,finished⟩ := placed_update Place.finishing s.place w
    refine ⟨?_,?_,?_,?_⟩
    · rw [← before.scheduled,placed_same (by rw [place]; rfl)]
    · rw [← before.counted,finishing,finished,place,← Multiset.coe_add]
      simp only [Place.finishing,Multiset.coe_singleton]
      abel
    · rw [← before.failed,placed_same (by rw [place]; rfl)]
    · rw [before.number,List.length_append,List.length_singleton]

/-- Every test goes the way of its queue, and what comes of it is what its process does. -/
structure Routed (popen : Popen) (s : State n) : Prop where
  queue : ∀ q, ∀ job ∈ s.queue q, job.queue = q
  running : ∀ w job, s.place w = .running job → job.queue = w.queue
  outcomes : ∀ job o, (job,o) ∈ s.outcomes → o = runTest popen (job.queue.redirect n) job

/-- A worker is gone when its queue is empty, or by an exception. -/
def Settled (s : State n) : Prop :=
  ∀ w, s.place w = .finished → s.queue w.queue = [] ∨ ∃ job, (job,Outcome.raised) ∈ s.outcomes

theorem Routed.move (before : Routed popen s) (move : Move popen s a s') : Routed popen s' := by
  obtain ⟨queue,running,outcomes⟩ := before
  have elsewhere (w : Worker n) (p : Place) (idle : ∀ job, p ≠ .running job) :
      ∀ u job, update s.place w p u = .running job → job.queue = u.queue := by
    apply (forall_update_iff s.place fun u p => ∀ job, p = .running job → job.queue = u.queue).mpr
    exact ⟨fun job same => absurd same (idle job),fun u _ => running u⟩
  cases move with
  | @put job rest main =>
    refine ⟨(forall_update_iff s.queue fun q jobs => ∀ job ∈ jobs, job.queue = q).mpr ⟨?_,fun q _ => queue q⟩,running,outcomes⟩
    intro other member
    rcases List.mem_append.mp member with old | new
    · exact queue _ other old
    · rw [List.mem_singleton.mp new]
  | allPut | allStarted | joined | noneExclusive | lastJoined => exact ⟨queue,running,outcomes⟩
  | start | startLast | leave | see | fail | record | count => exact ⟨queue,elsewhere _ _ (by simp),outcomes⟩
  | @get w job rest place front =>
    have inside : ∀ other ∈ job :: rest, other.queue = w.queue := by
      rw [← front]
      exact queue w.queue
    refine ⟨?_,?_,outcomes⟩
    · apply (forall_update_iff s.queue fun q jobs => ∀ job ∈ jobs, job.queue = q).mpr
      exact ⟨fun other member => inside other (List.mem_cons_of_mem _ member),fun q _ => queue q⟩
    · apply (forall_update_iff s.place fun u p => ∀ job, p = .running job → job.queue = u.queue).mpr
      refine ⟨?_,fun u _ => running u⟩
      intro other same
      cases same
      exact inside job List.mem_cons_self
  | @run w job place =>
    refine ⟨queue,elsewhere _ _ ?_,?_⟩
    · intro other
      rcases Place.after_cases job (runTest popen (w.queue.redirect n) job) with ⟨_,_,goes,_⟩ | ⟨_,goes⟩ | ⟨_,goes⟩ <;>
        simp [goes]
    · intro other o member
      rcases List.mem_append.mp member with old | new
      · exact outcomes other o old
      · cases List.mem_singleton.mp new
        rw [running w job place]

theorem Settled.move (before : Settled s) (phase : Phase s.main s.place s.queue) (move : Move popen s a s') : Settled s' := by
  have elsewhere {w : Worker n} {p : Place} (unfinished : p ≠ .finished) :
      ∀ u, update s.place w p u = .finished → s.queue u.queue = [] ∨ ∃ job, (job,Outcome.raised) ∈ s.outcomes := by
    apply (forall_update_iff s.place fun u p => p = .finished →
      s.queue u.queue = [] ∨ ∃ job, (job,Outcome.raised) ∈ s.outcomes).mpr
    exact ⟨fun finished => absurd finished unfinished,fun u _ => before u⟩
  cases move with
  | put main =>
    rw [main] at phase
    intro w finished
    exact absurd ((phase w).symm.trans finished) (by simp)
  | allPut | allStarted | joined | noneExclusive | lastJoined => exact before
  | start | startLast | see | fail | record | count => exact elsewhere (by simp)
  | @leave w place empty =>
    apply (forall_update_iff s.place fun u p => p = .finished →
      s.queue u.queue = [] ∨ ∃ job, (job,Outcome.raised) ∈ s.outcomes).mpr
    exact ⟨fun _ => .inl empty,fun u _ => before u⟩
  | @get w job rest place front =>
    intro u finished
    change update s.queue w.queue rest u.queue = [] ∨ _
    rcases elsewhere (by simp) u finished with empty | lost
    · by_cases same : u.queue = w.queue
      · rw [same,front] at empty
        cases empty
      · rw [update_of_ne same]
        exact .inl empty
    · exact .inr lost
  | @run w job place =>
    apply (forall_update_iff s.place fun u p => p = .finished → s.queue u.queue = [] ∨
      ∃ other, (other,Outcome.raised) ∈ s.outcomes ++ [(job,runTest popen (w.queue.redirect n) job)]).mpr
    constructor
    · intro finished
      rcases Place.after_cases job (runTest popen (w.queue.redirect n) job) with ⟨_,_,goes,_⟩ | ⟨_,goes⟩ | ⟨raised,_⟩
      · rw [goes] at finished
        cases finished
      · rw [goes] at finished
        cases finished
      · rw [raised]
        exact .inr ⟨job,List.mem_append_right _ (List.mem_singleton_self _)⟩
    · intro u _ finished
      rcases before u finished with empty | ⟨other,lost⟩
      · exact .inl empty
      · exact .inr ⟨other,List.mem_append_left _ lost⟩

structure Inv (popen : Popen) (tests : List Job) (s : State n) : Prop where
  phase : Phase s.main s.place s.queue
  conserved : Conserved tests s
  routed : Routed popen s
  settled : Settled s

theorem inv_reachable (reached : (scheduling popen n tests runMap).Reachable s) : Inv popen tests s := by
  apply reached.invariant (Inv popen tests)
  · intro s initial
    rw [initial]
    refine ⟨phase_start tests runMap,conserved_start,⟨?_,?_,?_⟩,?_⟩ <;> simp [start,Settled]
  · intro s a s' inv taken
    obtain ⟨phase,conserved,routed,settled⟩ := inv
    have move := step_move taken
    exact ⟨phase_move phase move,conserved_move conserved phase move,routed.move move,settled.move phase move⟩

/-- The results say of each test what its process did, and say it once. -/
structure Reported (popen : Popen) (tests : List Job) (s : State n) : Prop where
  counted : s.counted.Perm tests
  number : s.numOfRunTests = tests.length
  failed : s.failedTargets.Perm ((tests.filter fun job => runTest popen (job.queue.redirect n) job ≠ .exited 0).map Job.target)
  ran : ∀ job ∈ tests, (job,runTest popen (job.queue.redirect n) job) ∈ s.outcomes

section Completed
variable (inv : Inv popen tests s) (done : s.main = .done)
include inv done

theorem Inv.resting (w : Worker n) : s.place w = .finished ∨ s.place w = .idle ∧ s.queue w.queue = [] := by
  have phase := inv.phase
  rw [done] at phase
  exact phase w

theorem Inv.nothing_placed {worth : Place → Multiset Job} (idle : worth .idle = 0) (finished : worth .finished = 0) :
    placed worth s.place = 0 := by
  apply tally_eq_zero
  intro w
  rcases inv.resting done w with ended | ⟨ended,_⟩
  · rw [ended]
    exact finished
  · rw [ended]
    exact idle

theorem Inv.nothing_queued (workers : 0 < n) (kept : ∀ job, (job,Outcome.raised) ∉ s.outcomes) : queued s.queue = 0 := by
  have served : ∀ w : Worker n, s.queue w.queue = [] := by
    intro w
    rcases inv.resting done w with ended | ⟨_,empty⟩
    · rcases inv.settled w ended with empty | ⟨job,lost⟩
      · exact empty
      · exact absurd lost (kept job)
    · exact empty
  apply tally_eq_zero
  intro q
  rw [Multiset.coe_eq_zero]
  cases q with
  | jobQueue => exact served (.thread ⟨0,workers⟩)
  | exclusiveJobQueue => exact served .last

/-- Every test is taken, unless a worker is gone. -/
theorem Inv.all_ended (workers : tests ≠ [] → 0 < n) (kept : ∀ job, (job,Outcome.raised) ∉ s.outcomes) :
    ended s.outcomes (fun _ => true) = tests := by
  have scheduled := inv.conserved.scheduled
  by_cases none : tests = []
  · rw [none] at scheduled ⊢
    exact (add_eq_zero.mp scheduled).2
  · have rest : s.main.rest = 0 := by rw [done]; rfl
    rw [rest,inv.nothing_queued done (workers none) kept,inv.nothing_placed done rfl rfl] at scheduled
    simpa using scheduled

end Completed

theorem Routed.ended_eq (routed : Routed popen s) (how : Outcome → Bool) : ended s.outcomes how =
    (ended s.outcomes fun _ => true).filter fun job => how (runTest popen (job.queue.redirect n) job) = true := by
  unfold ended
  rw [Multiset.filter_coe,List.filter_map,List.filter_filter]
  congr 2
  apply List.filter_congr
  intro ⟨job,o⟩ member
  simp [routed.outcomes job o member]

theorem Outcome.fails_iff {o : Outcome} (caught : o ≠ .raised) : o.fails = true ↔ o ≠ .exited 0 := by
  unfold fails
  split <;> simp_all

theorem Outcome.returns_iff {o : Outcome} : o.returns = true ↔ o ≠ .raised := by
  cases o <;> simp [returns]

theorem Inv.not_raised (inv : Inv popen tests s) {job : Job} (member : job ∈ s.counted) :
    runTest popen (job.queue.redirect n) job ≠ .raised := by
  have once : job ∈ ended s.outcomes Outcome.returns := by
    rw [← inv.conserved.counted]
    exact Multiset.mem_add.mpr (.inl member)
  obtain ⟨o,returned,ran⟩ := mem_ended.mp once
  rw [← inv.routed.outcomes job o ran]
  exact Outcome.returns_iff.mp returned

theorem Inv.outcome_scheduled (inv : Inv popen tests s) {job : Job} {o : Outcome} (ran : (job,o) ∈ s.outcomes) :
    job ∈ tests ∧ o = runTest popen (job.queue.redirect n) job := by
  have taken : job ∈ ended s.outcomes fun _ => true := mem_ended.mpr ⟨o,rfl,ran⟩
  refine ⟨?_,inv.routed.outcomes job o ran⟩
  rw [← Multiset.mem_coe,← inv.conserved.scheduled]
  exact Multiset.mem_add.mpr (.inr taken)

theorem Inv.reported (inv : Inv popen tests s) (done : s.main = .done) (workers : tests ≠ [] → 0 < n)
    (caught : ∀ job ∈ tests, runTest popen (job.queue.redirect n) job ≠ .raised) : Reported popen tests s := by
  obtain ⟨_,counted,failed,number⟩ := inv.conserved
  rw [inv.nothing_placed done rfl rfl,add_zero] at counted
  rw [inv.nothing_placed done rfl rfl,Multiset.map_zero,add_zero] at failed
  have kept : ∀ job, (job,Outcome.raised) ∉ s.outcomes := by
    intro job lost
    obtain ⟨member,raised⟩ := inv.outcome_scheduled lost
    exact caught job member raised.symm
  have all := inv.all_ended done workers kept
  rw [inv.routed.ended_eq,all,Multiset.filter_eq_self.mpr fun job member => Outcome.returns_iff.mpr (caught job member)]
    at counted
  rw [inv.routed.ended_eq,all,Multiset.filter_congr fun job member => Outcome.fails_iff (caught job member)] at failed
  have perm : s.counted.Perm tests := Multiset.coe_eq_coe.mp counted
  refine ⟨perm,number.trans perm.length_eq,Multiset.coe_eq_coe.mp failed,?_⟩
  intro job member
  have taken : job ∈ ended s.outcomes fun _ => true := by
    rw [all]
    exact member
  obtain ⟨o,_,ran⟩ := mem_ended.mp taken
  rw [← inv.routed.outcomes job o ran]
  exact ran

end WebSearch.TestScheduler
