import WebSearch.Mutex
import WebSearch.Library.Tally

/-! `BlockingCounter` of `base/mutex.h`: any number of threads call
`DecrementCount` and `Wait` on one counter, whose `count_` is the state that the
`Mutex` guards. -/
namespace WebSearch.BlockingCounter
open Library Library.Monitor Function

inductive Call
  | decrementCount
  | wait
  deriving DecidableEq

/-- Where a thread is in its first remaining call. `entry` is before `count_--` in
`DecrementCount` and all of `Wait`; `returns` has compared `count_` with 0. -/
inductive Code
  | entry
  | decremented
  | returns (result : Bool)
  deriving DecidableEq

structure Thread where
  calls : List Call
  code : Code

/-- `results` are the values that `DecrementCount` has returned, and `waited` counts
the calls of `Wait` that have returned. -/
structure State (τ : Type) where
  mutex : Mutex.State τ Int
  thread : τ → Thread
  results : List Bool
  waited : Nat

inductive Action (τ : Type)
  | lock (t : τ)
  | decrement (t : τ)
  | compare (t : τ)
  | lockWhen (t : τ)
  | eval (t : τ)
  | spurious (t : τ)
  | reacquire (t : τ)
  | signal (t : τ) (choice : Option τ)
  | unlock (t : τ)

variable {τ : Type} [Fintype τ] [DecidableEq τ]

def isZero : Mutex.Condition Int := fun count => count == 0

def step (s : State τ) : Action τ → Option (State τ)
  | .lock t => match s.thread t with
    | ⟨.decrementCount :: _,.entry⟩ => (Mutex.step s.mutex (.lock t)).map fun mutex => {s with mutex}
    | _ => none
  | .decrement t => match s.thread t with
    | ⟨.decrementCount :: rest,.entry⟩ => (Mutex.step s.mutex (.modify t (s.mutex.guarded - 1))).map
        fun mutex => {s with mutex,thread := update s.thread t ⟨.decrementCount :: rest,.decremented⟩}
    | _ => none
  | .compare t => match s.thread t with
    | ⟨calls,.decremented⟩ =>
      some {s with thread := update s.thread t ⟨calls,.returns (s.mutex.guarded == 0)⟩}
    | _ => none
  | .lockWhen t => match s.thread t with
    | ⟨.wait :: _,.entry⟩ => (Mutex.step s.mutex (.lockWhen t isZero)).map fun mutex => {s with mutex}
    | _ => none
  | .eval t => (Mutex.step s.mutex (.eval t)).map fun mutex => {s with mutex}
  | .spurious t => (Mutex.step s.mutex (.spurious t)).map fun mutex => {s with mutex}
  | .reacquire t => (Mutex.step s.mutex (.reacquire t)).map fun mutex => {s with mutex}
  | .signal t choice => match s.thread t with
    | ⟨.decrementCount :: _,.returns _⟩ | ⟨.wait :: _,.entry⟩ =>
      (Mutex.step s.mutex (.signal t choice)).map fun mutex => {s with mutex}
    | _ => none
  | .unlock t => match s.thread t with
    | ⟨.decrementCount :: rest,.returns result⟩ => (Mutex.step s.mutex (.unlock t)).map fun mutex => {s with
        mutex
        thread := update s.thread t ⟨rest,.entry⟩
        results := s.results ++ [result]}
    | ⟨.wait :: rest,.entry⟩ => (Mutex.step s.mutex (.unlock t)).map fun mutex => {s with
        mutex
        thread := update s.thread t ⟨rest,.entry⟩
        waited := s.waited + 1}
    | _ => none

/-- A counter made with `initial_count`, and the calls each thread is to make. -/
def system (initial_count : Int) (calls : τ → List Call) : System (State τ) (Action τ) where
  initial s := (Mutex.system _ _).initial s.mutex ∧ s.mutex.guarded = initial_count ∧
    (∀ t, s.thread t = ⟨calls t,.entry⟩) ∧ s.results = [] ∧ s.waited = 0
  step := step

/-- The count is 0, nobody holds the mutex or was signalled, and yet a `Wait` is blocked. -/
def Asleep (s : State τ) : Prop :=
  s.mutex.guarded = 0 ∧ Free s.mutex.place ∧ (∀ t cond, s.mutex.place t ≠ .woken cond) ∧
    ∃ t cond, s.mutex.place t = .waiting cond

/-- What a step can do. A `monitor` step only moves threads in the mutex. -/
inductive Move (s : State τ) : State τ → Prop
  | monitor {b : Mutex.Action τ Int} {mutex} (taken : Mutex.step s.mutex b = some mutex)
      (uses : b.Uses isZero) (reads : ∀ t next, b ≠ .modify t next)
      (stays : (∀ t, b ≠ .unlock t) ∧ ∀ t cond, b ≠ .await t cond)
      (locks : ∀ t, b = .lock t → (s.thread t).calls.head? = some .decrementCount) : Move s {s with mutex}
  | decrement {t rest mutex} (thread : s.thread t = ⟨.decrementCount :: rest,.entry⟩)
      (taken : Mutex.step s.mutex (.modify t (s.mutex.guarded - 1)) = some mutex) :
      Move s {s with mutex,thread := update s.thread t ⟨.decrementCount :: rest,.decremented⟩}
  | compare {t calls} (thread : s.thread t = ⟨calls,.decremented⟩) :
      Move s {s with thread := update s.thread t ⟨calls,.returns (s.mutex.guarded == 0)⟩}
  | decremented {t rest result mutex} (thread : s.thread t = ⟨.decrementCount :: rest,.returns result⟩)
      (taken : Mutex.step s.mutex (.unlock t) = some mutex) : Move s {s with
        mutex
        thread := update s.thread t ⟨rest,.entry⟩
        results := s.results ++ [result]}
  | waited {t rest mutex} (thread : s.thread t = ⟨.wait :: rest,.entry⟩)
      (taken : Mutex.step s.mutex (.unlock t) = some mutex) : Move s {s with
        mutex
        thread := update s.thread t ⟨rest,.entry⟩
        waited := s.waited + 1}

theorem step_move {s s' : State τ} {a : Action τ} (ok : step s a = some s') : Move s s' := by
  cases a with
  | lock t =>
    simp only [step] at ok
    split at ok
    · rename_i thread
      obtain ⟨mutex,taken,rfl⟩ := Option.map_eq_some_iff.mp ok
      exact .monitor taken trivial (by simp) (by simp) (by intro u same; cases same; rw [thread]; rfl)
    · contradiction
  | decrement t =>
    simp only [step] at ok
    split at ok
    · rename_i thread
      obtain ⟨mutex,taken,rfl⟩ := Option.map_eq_some_iff.mp ok
      exact .decrement thread taken
    · contradiction
  | compare t =>
    simp only [step] at ok
    split at ok
    · rename_i thread
      cases ok
      exact .compare thread
    · contradiction
  | lockWhen t =>
    simp only [step] at ok
    split at ok
    · obtain ⟨mutex,taken,rfl⟩ := Option.map_eq_some_iff.mp ok
      exact .monitor taken rfl (by simp) (by simp) (by simp)
    · contradiction
  | eval t =>
    obtain ⟨mutex,taken,rfl⟩ := Option.map_eq_some_iff.mp ok
    exact .monitor taken trivial (by simp) (by simp) (by simp)
  | spurious t =>
    obtain ⟨mutex,taken,rfl⟩ := Option.map_eq_some_iff.mp ok
    exact .monitor taken trivial (by simp) (by simp) (by simp)
  | reacquire t =>
    obtain ⟨mutex,taken,rfl⟩ := Option.map_eq_some_iff.mp ok
    exact .monitor taken trivial (by simp) (by simp) (by simp)
  | signal t choice =>
    simp only [step] at ok
    split at ok
    · obtain ⟨mutex,taken,rfl⟩ := Option.map_eq_some_iff.mp ok
      exact .monitor taken trivial (by simp) (by simp) (by simp)
    · obtain ⟨mutex,taken,rfl⟩ := Option.map_eq_some_iff.mp ok
      exact .monitor taken trivial (by simp) (by simp) (by simp)
    · contradiction
  | unlock t =>
    simp only [step] at ok
    split at ok
    · rename_i thread
      obtain ⟨mutex,taken,rfl⟩ := Option.map_eq_some_iff.mp ok
      exact .decremented thread taken
    · rename_i thread
      obtain ⟨mutex,taken,rfl⟩ := Option.map_eq_some_iff.mp ok
      exact .waited thread taken
    · contradiction

/-- The decrements a thread has still to make. -/
def Thread.owed (w : Thread) : Nat :=
  match w.code with
  | .entry => w.calls.count .decrementCount
  | _ => w.calls.tail.count .decrementCount

/-- One for a `DecrementCount` that is going to return true. -/
def Code.due (count : Int) : Code → Nat
  | .entry => 0
  | .decremented => (count == 0).toNat
  | .returns result => result.toNat

def owed (thread : τ → Thread) : Nat := tally (fun _ w => w.owed) thread

def due (count : Int) (thread : τ → Thread) : Nat := tally (fun _ w => w.code.due count) thread

structure Inv (initial_count : Int) (s : State τ) : Prop where
  mutex : Mutex.OneCondition isZero s.mutex
  busy : ∀ t, (s.thread t).code ≠ .entry →
    Mutex.inCode (s.mutex.place t) = true ∧ (s.thread t).calls.head? = some .decrementCount
  count : s.mutex.guarded = owed s.thread
  bounded : s.mutex.guarded ≤ initial_count
  results : s.results.count true + due s.mutex.guarded s.thread = (s.mutex.guarded == 0).toNat
  found : ∀ t, (s.thread t).calls.head? = some .wait → Mutex.inCode (s.mutex.place t) = true → s.mutex.guarded = 0
  waited : 0 < s.waited → s.mutex.guarded = 0

theorem owed_update (thread : τ → Thread) (t : τ) : ∃ others, owed thread = (thread t).owed + others ∧
    ∀ w, owed (update thread t w) = w.owed + others :=
  tally_update (fun _ w => w.owed) thread t

theorem due_update (count : Int) (thread : τ → Thread) (t : τ) : ∃ others,
    due count thread = (thread t).code.due count + others ∧
      ∀ w, due count (update thread t w) = w.code.due count + others :=
  tally_update (fun _ w => w.code.due count) thread t

omit [DecidableEq τ] in
theorem due_entries {thread : τ → Thread} (entries : ∀ t, (thread t).code = .entry) (count : Int) :
    due count thread = 0 :=
  tally_eq_zero fun t => by rw [entries t]; rfl

section Moves
variable {initial_count : Int} {s : State τ}

theorem Inv.monitor (inv : Inv initial_count s) {b : Mutex.Action τ Int} {mutex : Mutex.State τ Int}
    (taken : Mutex.step s.mutex b = some mutex) (uses : b.Uses isZero) (reads : ∀ t next, b ≠ .modify t next)
    (stays : (∀ t, b ≠ .unlock t) ∧ ∀ t cond, b ≠ .await t cond)
    (locks : ∀ t, b = .lock t → (s.thread t).calls.head? = some .decrementCount) :
    Inv initial_count {s with mutex} := by
  have same := Mutex.step_guarded taken reads
  refine ⟨inv.mutex.step uses taken,fun t inCall => ?_,?_,?_,?_,fun t calls own => ?_,?_⟩
  · obtain ⟨own,calls⟩ := inv.busy t inCall
    obtain still | unlocks | ⟨cond,awaits⟩ := Mutex.step_inCode taken own
    · exact ⟨still,calls⟩
    · exact absurd unlocks (stays.1 t)
    · exact absurd awaits (stays.2 t cond)
  · rw [same]
    exact inv.count
  · rw [same]
    exact inv.bounded
  · rw [same]
    exact inv.results
  · rw [same]
    obtain before | locked | ⟨cond,evaluating,value⟩ := Mutex.step_entered taken own
    · exact inv.found t calls before
    · rw [locks t locked] at calls
      contradiction
    · have only := inv.mutex.only t
      rw [evaluating] at only
      change cond = isZero at only
      rw [only] at value
      exact eq_of_beq value
  · rw [same]
    exact inv.waited

omit [DecidableEq τ] in
/-- Only the holder of the mutex is inside a call, so the others are at their entry. -/
theorem Inv.entry (inv : Inv initial_count s) {t u : τ} (running : s.mutex.place t = .inside .running)
    (different : u ≠ t) : (s.thread u).code = .entry := by
  by_contra inCall
  obtain ⟨own,_⟩ := inv.busy u inCall
  apply different
  refine inv.mutex.exclusive u t ?_ (by simp [running])
  cases place : s.mutex.place u <;> simp [place,Mutex.inCode] at own ⊢

theorem Inv.decrement (inv : Inv initial_count s) {t : τ} {rest : List Call} {mutex : Mutex.State τ Int}
    (thread : s.thread t = ⟨.decrementCount :: rest,.entry⟩)
    (taken : Mutex.step s.mutex (.modify t (s.mutex.guarded - 1)) = some mutex) :
    Inv initial_count {s with mutex,thread := update s.thread t ⟨.decrementCount :: rest,.decremented⟩} := by
  have keeps := inv.mutex.step (by trivial) taken
  obtain ⟨running,rfl⟩ := Mutex.step_modify taken
  obtain ⟨others,now,after⟩ := owed_update s.thread t
  have one : (s.thread t).owed = rest.count .decrementCount + 1 := by simp [thread,Thread.owed]
  have count := inv.count
  rw [now,one] at count
  have entries : ∀ u, (s.thread u).code = .entry := by
    intro u
    by_cases same : u = t
    · rw [same,thread]
    · exact inv.entry running same
  refine ⟨keeps,fun u inCall => ?_,?_,?_,?_,fun u calls own => ?_,fun some => ?_⟩
  · by_cases same : u = t
    · simp only [same,update_self,running]
      exact ⟨rfl,rfl⟩
    · simp only [update_of_ne same] at inCall
      exact absurd (entries u) inCall
  · have left : (⟨.decrementCount :: rest,.decremented⟩ : Thread).owed = rest.count .decrementCount := rfl
    simp only [after,left]
    omega
  · have bounded := inv.bounded
    simp only
    omega
  · have before := inv.results
    rw [due_entries entries] at before
    obtain ⟨others,none,after⟩ := due_update (s.mutex.guarded - 1) s.thread t
    rw [due_entries entries] at none
    have notZero : (s.mutex.guarded == 0) = false := beq_false_of_ne (by omega)
    rw [notZero] at before
    simp only [after,Code.due]
    have noTrue : s.results.count true = 0 := by simpa using before
    omega
  · by_cases same : u = t
    · simp [same] at calls
    · refine absurd (inv.mutex.exclusive u t ?_ (by simp [running])) same
      cases place : s.mutex.place u <;> simp [place,Mutex.inCode] at own ⊢
  · have zero := inv.waited some
    omega

theorem Inv.compare (inv : Inv initial_count s) {t : τ} {calls : List Call}
    (thread : s.thread t = ⟨calls,.decremented⟩) :
    Inv initial_count {s with thread := update s.thread t ⟨calls,.returns (s.mutex.guarded == 0)⟩} := by
  have sameCalls (u : τ) : (update s.thread t ⟨calls,.returns (s.mutex.guarded == 0)⟩ u).calls =
      (s.thread u).calls := by
    by_cases same : u = t
    · rw [same,update_self,thread]
    · rw [update_of_ne same]
  refine ⟨inv.mutex,fun u inCall => ?_,?_,inv.bounded,?_,fun u calls own => ?_,inv.waited⟩
  · by_cases same : u = t
    · have busy := inv.busy t (by simp [thread])
      rw [same,sameCalls]
      exact busy
    · simp only [update_of_ne same] at inCall ⊢
      exact inv.busy u inCall
  · obtain ⟨others,now,after⟩ := owed_update s.thread t
    rw [after,inv.count,now,thread]
    rfl
  · obtain ⟨others,now,after⟩ := due_update s.mutex.guarded s.thread t
    rw [after,← inv.results,now,thread]
    rfl
  · rw [sameCalls] at calls
    exact inv.found u calls own

/-- The thread `t` leaves its first call, and the others stay where they are. -/
theorem Inv.unlock (inv : Inv initial_count s) {t : τ} {mutex : Mutex.State τ Int}
    (taken : Mutex.step s.mutex (.unlock t) = some mutex) (rest : List Call) : mutex.guarded = s.mutex.guarded ∧
      (∀ u, (update s.thread t ⟨rest,.entry⟩ u).code ≠ .entry → Mutex.inCode (mutex.place u) = true ∧
        (update s.thread t ⟨rest,.entry⟩ u).calls.head? = some .decrementCount) ∧
      (∀ u, (update s.thread t ⟨rest,.entry⟩ u).calls.head? = some .wait →
        Mutex.inCode (mutex.place u) = true → s.mutex.guarded = 0) := by
  obtain ⟨unlocking,rfl⟩ := Mutex.step_unlock taken
  refine ⟨rfl,fun u inCall => ?_,fun u calls own => ?_⟩
  · by_cases same : u = t
    · simp [same] at inCall
    · simp only [update_of_ne same] at inCall ⊢
      exact inv.busy u inCall
  · by_cases same : u = t
    · simp [same,Mutex.inCode] at own
    · simp only [update_of_ne same] at calls own
      exact inv.found u calls own

theorem Inv.decremented (inv : Inv initial_count s) {t : τ} {rest : List Call} {result : Bool}
    {mutex : Mutex.State τ Int} (thread : s.thread t = ⟨.decrementCount :: rest,.returns result⟩)
    (taken : Mutex.step s.mutex (.unlock t) = some mutex) : Inv initial_count {s with
      mutex
      thread := update s.thread t ⟨rest,.entry⟩
      results := s.results ++ [result]} := by
  obtain ⟨same,busy,found⟩ := inv.unlock taken rest
  refine ⟨inv.mutex.step (by trivial) taken,busy,?_,?_,?_,?_,?_⟩
  · obtain ⟨others,now,after⟩ := owed_update s.thread t
    simp only [same,after]
    rw [inv.count,now,thread]
    rfl
  · simp only [same]
    exact inv.bounded
  · obtain ⟨others,now,after⟩ := due_update s.mutex.guarded s.thread t
    simp only [same,after]
    rw [← inv.results,now,thread]
    cases result <;> simp [Code.due,List.count_append,Nat.add_assoc]
  · simp only [same]
    exact found
  · simp only [same]
    exact inv.waited

theorem Inv.waitReturns (inv : Inv initial_count s) {t : τ} {rest : List Call} {mutex : Mutex.State τ Int}
    (thread : s.thread t = ⟨.wait :: rest,.entry⟩) (taken : Mutex.step s.mutex (.unlock t) = some mutex) :
    Inv initial_count {s with
      mutex
      thread := update s.thread t ⟨rest,.entry⟩
      waited := s.waited + 1} := by
  obtain ⟨same,busy,found⟩ := inv.unlock taken rest
  refine ⟨inv.mutex.step (by trivial) taken,busy,?_,?_,?_,?_,?_⟩
  · obtain ⟨others,now,after⟩ := owed_update s.thread t
    simp only [same,after]
    rw [inv.count,now,thread]
    simp [Thread.owed]
  · simp only [same]
    exact inv.bounded
  · obtain ⟨others,now,after⟩ := due_update s.mutex.guarded s.thread t
    simp only [same,after]
    rw [← inv.results,now,thread]
  · simp only [same]
    exact found
  · intro _
    obtain ⟨unlocking,_⟩ := Mutex.step_unlock taken
    simp only [same]
    exact inv.found t (by rw [thread]; rfl) (by rw [unlocking]; rfl)

theorem inv_move {s' : State τ} (inv : Inv initial_count s) (move : Move s s') : Inv initial_count s' := by
  cases move with
  | monitor taken uses reads stays locks => exact inv.monitor taken uses reads stays locks
  | decrement thread taken => exact inv.decrement thread taken
  | compare thread => exact inv.compare thread
  | decremented thread taken => exact inv.decremented thread taken
  | waited thread taken => exact inv.waitReturns thread taken

end Moves

theorem inv_reachable {n : Nat} {calls : τ → List Call} {s : State τ} (positive : 0 < n)
    (exact : ∑ t, (calls t).count .decrementCount = n) (reached : (system n calls).Reachable s) : Inv n s := by
  refine reached.invariant (Inv n) ?_ fun s a s' inv ok => inv_move inv (step_move ok)
  intro s ⟨mutex,count,threads,results,waited⟩
  have entries (t : τ) : (s.thread t).code = .entry := by rw [threads]
  exact {
    mutex := .start mutex
    busy := fun t inCall => absurd (entries t) inCall
    count := by
      rw [count,← exact]
      congr 1
      exact Finset.sum_congr rfl fun t _ => by rw [threads t]; rfl
    bounded := count.le
    results := by
      have notZero : ((n : Int) == 0) = false := beq_false_of_ne (by omega)
      rw [due_entries entries,count,results,notZero]
      rfl
    found := fun t _ own => by simp [mutex.1 t,Mutex.inCode] at own
    waited := by simp [waited]}

omit [DecidableEq τ] in
/-- With no decrement left the count is 0, and the one true result has been returned. -/
theorem Inv.one_true {initial_count : Int} {s : State τ} (inv : Inv initial_count s)
    (returned : ∀ t, .decrementCount ∉ (s.thread t).calls) : s.results.count true = 1 := by
  have entries (t : τ) : (s.thread t).code = .entry := by
    by_contra inCall
    exact returned t (List.mem_of_mem_head? (inv.busy t inCall).2)
  have nothing : owed s.thread = 0 := by
    refine tally_eq_zero fun t => ?_
    simp only [Thread.owed,entries t]
    exact List.count_eq_zero.mpr (returned t)
  have zero : s.mutex.guarded = 0 := by rw [inv.count,nothing]; rfl
  have results := inv.results
  rw [due_entries entries,zero] at results
  exact results

omit [DecidableEq τ] in
theorem Inv.not_asleep {initial_count : Int} {s : State τ} (inv : Inv initial_count s) : ¬Asleep s := by
  intro ⟨zero,free,nobody,t,cond,blocked⟩
  have only := inv.mutex.only t
  rw [blocked] at only
  change cond = isZero at only
  refine inv.mutex.not_lost ⟨free,nobody,t,cond,blocked,?_⟩
  rw [only,zero]
  rfl

/-- Of exactly `n` calls of `DecrementCount` one returns true, no `Wait` returns
while the count is not 0, and none sleeps once it is. -/
theorem counted_down {n : Nat} {calls : τ → List Call} {s : State τ} (positive : 0 < n)
    (exact : ∑ t, (calls t).count .decrementCount = n) (reached : (system n calls).Reachable s) :
    (s.results.count true ≤ 1 ∧
      ((∀ t, .decrementCount ∉ (s.thread t).calls) → s.results.count true = 1)) ∧
    (0 < s.waited → s.mutex.guarded = 0) ∧ ¬Asleep s ∧ 0 ≤ s.mutex.guarded ∧ s.mutex.guarded ≤ n := by
  have inv := inv_reachable positive exact reached
  refine ⟨⟨?_,inv.one_true⟩,inv.waited,inv.not_asleep,?_,inv.bounded⟩
  · have results := inv.results
    have most := Bool.toNat_le (s.mutex.guarded == 0)
    omega
  · rw [inv.count]
    exact Int.natCast_nonneg _

def threeThreads : Fin 3 → List Call
  | 0 | 1 => [.wait]
  | 2 => [.decrementCount,.decrementCount]

/-- Threads 0 and 1 wait while thread 2 counts down from two. -/
def twoWaiters : List (Action (Fin 3)) :=
  let decrement (choice : Option (Fin 3)) : List (Action (Fin 3)) :=
    [.lock 2,.decrement 2,.compare 2,.signal 2 choice,.unlock 2]
  [.lockWhen 0,.eval 0,.lockWhen 1,.eval 1] ++ decrement (some 0) ++ [.reacquire 0,.eval 0] ++
  decrement (some 1) ++ [.reacquire 1,.eval 1,.signal 1 (some 0),.unlock 1,
    .reacquire 0,.eval 0,.signal 0 none,.unlock 0]

theorem counted_down_twoWaiters : ∃ s : State (Fin 3), (s.waited = 2 ∧ s.results.length = 2) ∧
    s.mutex.guarded = 0 ∧ s.results.count true ≤ 1 := by
  obtain ⟨s,reached,waited,both⟩ : ∃ s, (system 2 threeThreads).Reachable s ∧
      (s.waited = 2 ∧ s.results.length = 2) := by
    refine System.exists_reachable (⟨⟨fun _ => .outside,false,2⟩,fun t => ⟨threeThreads t,.entry⟩,[],0⟩ : State (Fin 3))
      ?_ twoWaiters ?_
    · exact ⟨⟨fun _ => rfl,rfl⟩,rfl,fun _ => rfl,rfl,rfl⟩
    · decide
  have facts := counted_down (n := 2) (by decide) (by decide) reached
  exact ⟨s,⟨waited,both⟩,facts.2.1 (by rw [waited]; decide),facts.1.1⟩

end WebSearch.BlockingCounter
