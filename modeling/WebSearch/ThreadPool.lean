import WebSearch.Mutex
import WebSearch.Library.Tally
import Mathlib.Tactic.Abel
import Mathlib.Tactic.DeriveFintype
import Mathlib.Data.Fintype.Sum
import Mathlib.Data.Fintype.BigOperators
import Mathlib.Algebra.Order.BigOperators.Group.Finset

/-! `base/thread_pool.h` and `base/thread_pool.cc`: `ProducerConsumerQueue` and
`ThreadPool`. `n` workers `Get` from one queue under a `Mutex`, any number of
threads `Add` closures to it, and the destructor adds one NULL for each worker and
joins them. A NULL item is `none`. -/
namespace WebSearch.ThreadPool
open Library Library.Monitor Function

inductive Thread (n : Nat) (A : Type)
  | worker (i : Fin n)
  | adder (a : A)
  | destructor
  deriving DecidableEq, Fintype

/-- What a thread has still to do. `puts` and `pushed` are before and after the
`q_.push` of a `Put` of the first remaining item; `gets` and `got` are before and
after `TryGetInternal` in `Get`. -/
inductive Code (C : Type)
  | puts (items : List (Option C))
  | pushed (rest : List (Option C))
  | gets
  | got (item : Option C)
  | executes (closure : C)
  | returned

/-- `taken` records the items each thread got from the queue; `joined` counts the
workers the destructor has joined; `aborted` is a failed `CHECK`. -/
structure State (n : Nat) (A C : Type) where
  mutex : Mutex.State (Thread n A) (List (Option C))
  code : Thread n A → Code C
  destroying : Bool
  joined : Nat
  executed : List C
  taken : Thread n A → List (Option C)
  aborted : Bool

inductive Action (n : Nat) (A : Type)
  | lock (t : Thread n A)
  | push (t : Thread n A)
  | lockWhen (t : Thread n A)
  | eval (t : Thread n A)
  | spurious (t : Thread n A)
  | reacquire (t : Thread n A)
  | tryGet (t : Thread n A)
  | signal (t : Thread n A) (choice : Option (Thread n A))
  | unlock (t : Thread n A)
  | execute (t : Thread n A)
  | destroy
  | join

variable {n : Nat} {A C : Type} [Fintype A] [DecidableEq A]

def isQueueNotEmpty : Mutex.Condition (List (Option C)) := fun queue => !queue.isEmpty

/-- Where a worker goes on with the item that `Get` returned. -/
def Code.after : Option C → Code C
  | none => .returned
  | some closure => .executes closure

def Code.putting : Code C → Bool
  | .puts _ | .pushed _ => true
  | _ => false

def step (s : State n A C) : Action n A → Option (State n A C)
  | .lock t => match s.code t with
    | .puts (_ :: _) => (Mutex.step s.mutex (.lock t)).map fun mutex => {s with mutex}
    | _ => none
  | .push t => match s.code t with
    | .puts (item :: rest) => (Mutex.step s.mutex (.modify t (s.mutex.guarded ++ [item]))).map
        fun mutex => {s with mutex,code := update s.code t (.pushed rest)}
    | _ => none
  | .lockWhen t => match s.code t with
    | .gets => (Mutex.step s.mutex (.lockWhen t isQueueNotEmpty)).map fun mutex => {s with mutex}
    | _ => none
  | .eval t => (Mutex.step s.mutex (.eval t)).map fun mutex => {s with mutex}
  | .spurious t => (Mutex.step s.mutex (.spurious t)).map fun mutex => {s with mutex}
  | .reacquire t => (Mutex.step s.mutex (.reacquire t)).map fun mutex => {s with mutex}
  | .tryGet t => match s.code t, s.mutex.guarded with
    | .gets, item :: rest => (Mutex.step s.mutex (.modify t rest)).map fun mutex => {s with
        mutex
        code := update s.code t (.got item)
        taken := update s.taken t (s.taken t ++ [item])}
    | .gets, [] => (Mutex.step s.mutex (.modify t [])).map fun mutex => {s with mutex,aborted := true}
    | _, _ => none
  | .signal t choice => match s.code t with
    | .pushed _ | .got _ => (Mutex.step s.mutex (.signal t choice)).map fun mutex => {s with mutex}
    | _ => none
  | .unlock t => match s.code t with
    | .pushed rest => (Mutex.step s.mutex (.unlock t)).map
        fun mutex => {s with mutex,code := update s.code t (.puts rest)}
    | .got item => (Mutex.step s.mutex (.unlock t)).map
        fun mutex => {s with mutex,code := update s.code t (.after item)}
    | _ => none
  | .execute t => match s.code t with
    | .executes closure =>
      some {s with code := update s.code t .gets,executed := s.executed ++ [closure]}
    | _ => none
  | .destroy => match s.destroying, s.code .destructor with
    | false, .puts [] =>
      if ∀ a, (s.code (.adder a) matches .puts []) then some {s with
        code := update s.code .destructor (.puts (List.replicate n none))
        destroying := true}
      else none
    | _, _ => none
  | .join => match s.destroying, s.code .destructor with
    | true, .puts [] =>
      if next : s.joined < n then
        if s.code (.worker ⟨s.joined,next⟩) matches .returned then some {s with joined := s.joined + 1} else none
      else none
    | _, _ => none

/-- The adders `Add` the given closures; the workers have been started. -/
def system (n : Nat) {A C : Type} [Fintype A] [DecidableEq A] (closures : A → List C) :
    System (State n A C) (Action n A) where
  initial s := (Mutex.system _ _).initial s.mutex ∧ s.mutex.guarded = [] ∧
    (∀ i, s.code (.worker i) = .gets) ∧ (∀ a, s.code (.adder a) = .puts ((closures a).map some)) ∧
    s.code .destructor = .puts [] ∧ s.destroying = false ∧ s.joined = 0 ∧ s.executed = [] ∧
    (∀ t, s.taken t = []) ∧ s.aborted = false
  step := step

/-- The destructor has joined all workers. -/
def Destroyed (s : State n A C) : Prop :=
  s.destroying = true ∧ s.joined = n

instance (s : State n A C) : Decidable (Destroyed s) := inferInstanceAs (Decidable (_ ∧ _))

/-- The queue holds an item and nobody holds the mutex or was signalled, yet a
worker is blocked in `LockWhen`. -/
def Asleep (s : State n A C) : Prop :=
  s.mutex.guarded ≠ [] ∧ Free s.mutex.place ∧ (∀ t cond, s.mutex.place t ≠ .woken cond) ∧
    ∃ i cond, s.mutex.place (.worker i) = .waiting cond

theorem Code.eq_puts_nil {code : Code C} (finished : (code matches .puts []) = true) : code = .puts [] := by
  split at finished
  · rfl
  · contradiction

/-- What a step can do. A `monitor` step only moves threads in the mutex. -/
inductive Move (s : State n A C) : State n A C → Prop
  | monitor {b : Mutex.Action (Thread n A) (List (Option C))} {mutex} (taken : Mutex.step s.mutex b = some mutex)
      (uses : b.Uses isQueueNotEmpty) (reads : ∀ t next, b ≠ .modify t next)
      (adds : ∀ t, b = .lock t → (s.code t).putting = true)
      (gets : ∀ t cond, b = .lockWhen t cond → s.code t = .gets) : Move s {s with mutex}
  | push {t item rest mutex} (code : s.code t = .puts (item :: rest))
      (taken : Mutex.step s.mutex (.modify t (s.mutex.guarded ++ [item])) = some mutex) :
      Move s {s with mutex,code := update s.code t (.pushed rest)}
  | tryGet {t item rest mutex} (code : s.code t = .gets) (front : s.mutex.guarded = item :: rest)
      (taken : Mutex.step s.mutex (.modify t rest) = some mutex) :
      Move s {s with mutex,code := update s.code t (.got item),taken := update s.taken t (s.taken t ++ [item])}
  | abort {t mutex} (code : s.code t = .gets) (empty : s.mutex.guarded = [])
      (taken : Mutex.step s.mutex (.modify t []) = some mutex) : Move s {s with mutex,aborted := true}
  | put {t rest mutex} (code : s.code t = .pushed rest) (taken : Mutex.step s.mutex (.unlock t) = some mutex) :
      Move s {s with mutex,code := update s.code t (.puts rest)}
  | get {t item mutex} (code : s.code t = .got item) (taken : Mutex.step s.mutex (.unlock t) = some mutex) :
      Move s {s with mutex,code := update s.code t (.after item)}
  | execute {t closure} (code : s.code t = .executes closure) :
      Move s {s with code := update s.code t .gets,executed := s.executed ++ [closure]}
  | destroy (alive : s.destroying = false) (code : s.code .destructor = .puts [])
      (added : ∀ a, s.code (.adder a) = .puts []) :
      Move s {s with code := update s.code .destructor (.puts (List.replicate n none)),destroying := true}
  | join (next : s.joined < n) (code : s.code (.worker ⟨s.joined,next⟩) = .returned) :
      Move s {s with joined := s.joined + 1}

theorem step_move {s s' : State n A C} {a : Action n A} (ok : step s a = some s') : Move s s' := by
  cases a with
  | lock t =>
    simp only [step] at ok
    split at ok
    · rename_i code
      obtain ⟨mutex,taken,rfl⟩ := Option.map_eq_some_iff.mp ok
      exact .monitor taken trivial (by simp) (by intro u same; cases same; rw [code]; rfl) (by simp)
    · contradiction
  | push t =>
    simp only [step] at ok
    split at ok
    · rename_i code
      obtain ⟨mutex,taken,rfl⟩ := Option.map_eq_some_iff.mp ok
      exact .push code taken
    · contradiction
  | lockWhen t =>
    simp only [step] at ok
    split at ok
    · rename_i code
      obtain ⟨mutex,taken,rfl⟩ := Option.map_eq_some_iff.mp ok
      exact .monitor taken rfl (by simp) (by simp) (by intro u cond same; cases same; exact code)
    · contradiction
  | eval t =>
    obtain ⟨mutex,taken,rfl⟩ := Option.map_eq_some_iff.mp ok
    exact .monitor taken trivial (by simp) (by simp) (by simp)
  | spurious t =>
    obtain ⟨mutex,taken,rfl⟩ := Option.map_eq_some_iff.mp ok
    exact .monitor taken trivial (by simp) (by simp) (by simp)
  | reacquire t =>
    obtain ⟨mutex,taken,rfl⟩ := Option.map_eq_some_iff.mp ok
    exact .monitor taken trivial (by simp) (by simp) (by simp)
  | tryGet t =>
    simp only [step] at ok
    split at ok
    · rename_i item rest code front
      obtain ⟨mutex,taken,rfl⟩ := Option.map_eq_some_iff.mp ok
      exact .tryGet code front taken
    · rename_i code empty
      obtain ⟨mutex,taken,rfl⟩ := Option.map_eq_some_iff.mp ok
      exact .abort code empty taken
    · contradiction
  | signal t choice =>
    simp only [step] at ok
    split at ok
    · obtain ⟨mutex,taken,rfl⟩ := Option.map_eq_some_iff.mp ok
      exact .monitor taken trivial (by simp) (by simp) (by simp)
    · obtain ⟨mutex,taken,rfl⟩ := Option.map_eq_some_iff.mp ok
      exact .monitor taken trivial (by simp) (by simp) (by simp)
    · contradiction
  | unlock t =>
    simp only [step] at ok
    split at ok
    · rename_i code
      obtain ⟨mutex,taken,rfl⟩ := Option.map_eq_some_iff.mp ok
      exact .put code taken
    · rename_i code
      obtain ⟨mutex,taken,rfl⟩ := Option.map_eq_some_iff.mp ok
      exact .get code taken
    · contradiction
  | execute t =>
    simp only [step] at ok
    split at ok
    · rename_i code
      cases ok
      exact .execute code
    · contradiction
  | destroy =>
    simp only [step] at ok
    split at ok
    · rename_i alive code
      split at ok
      · rename_i added
        cases ok
        exact .destroy alive code fun a => Code.eq_puts_nil (added a)
      · contradiction
    · contradiction
  | join =>
    simp only [step] at ok
    split at ok
    · split at ok
      · rename_i next
        split at ok
        · rename_i code
          cases ok
          exact .join next code
        · contradiction
      · contradiction
    · contradiction

/-! Bookkeeping. `weight` adds up any measure of the items, so that one invariant
counts the closures and the NULLs alike. -/
section Bookkeeping
variable {M : Type} [AddCommMonoid M] (weight : Option C → M)

def Code.carried : Code C → M
  | .puts items | .pushed items => (items.map weight).sum
  | .gets => 0
  | .got item => weight item
  | .executes closure => weight (some closure)
  | .returned => weight none

theorem Code.carried_after (item : Option C) : (Code.after item).carried weight = weight item := by
  cases item <;> rfl

def total (code : Thread n A → Code C) : M := ∑ t, (code t).carried weight

theorem total_update (code : Thread n A → Code C) (t : Thread n A) : ∃ others,
    total weight code = (code t).carried weight + others ∧
      ∀ c, total weight (update code t c) = c.carried weight + others :=
  tally_update (fun _ c => c.carried weight) code t

/-- What was to be added, the sentinels included, is in the queue, with a thread,
or executed. -/
def Conserved (closures : A → List C) (s : State n A C) : Prop :=
  (s.mutex.guarded.map weight).sum + total weight s.code + (s.executed.map fun c => weight (some c)).sum =
    ∑ a, ((closures a).map fun c => weight (some c)).sum + if s.destroying then n • weight none else 0

theorem conserved_move {closures : A → List C} {s s' : State n A C} (before : Conserved weight closures s)
    (move : Move s s') : Conserved weight closures s' := by
  unfold Conserved at before ⊢
  cases move with
  | monitor taken _ reads => simpa only [Mutex.step_guarded taken reads] using before
  | @push t item rest mutex code taken =>
    obtain ⟨_,rfl⟩ := Mutex.step_modify taken
    obtain ⟨others,now,after⟩ := total_update weight s.code t
    rw [← before,after,now,code]
    simp only [Code.carried,List.map_append,List.sum_append,List.map_cons,List.sum_cons,List.map_nil,List.sum_nil]
    abel
  | @tryGet t item rest mutex code front taken =>
    obtain ⟨_,rfl⟩ := Mutex.step_modify taken
    obtain ⟨others,now,after⟩ := total_update weight s.code t
    rw [← before,after,now,code,front]
    simp only [Code.carried,List.map_cons,List.sum_cons]
    abel
  | abort code empty taken =>
    obtain ⟨_,rfl⟩ := Mutex.step_modify taken
    rwa [empty] at before
  | @put t rest mutex code taken =>
    obtain ⟨_,rfl⟩ := Mutex.step_unlock taken
    obtain ⟨others,now,after⟩ := total_update weight s.code t
    rw [← before,after,now,code]
    rfl
  | @get t item mutex code taken =>
    obtain ⟨_,rfl⟩ := Mutex.step_unlock taken
    obtain ⟨others,now,after⟩ := total_update weight s.code t
    rw [← before,after,now,code,Code.carried_after]
    rfl
  | @execute t closure code =>
    obtain ⟨others,now,after⟩ := total_update weight s.code t
    rw [← before,after,now,code]
    simp only [Code.carried,List.map_append,List.sum_append,List.map_cons,List.sum_cons,List.map_nil,List.sum_nil]
    abel
  | destroy alive code added =>
    obtain ⟨others,now,after⟩ := total_update weight s.code .destructor
    rw [now,code,alive] at before
    rw [after]
    simp only [Code.carried,List.map_nil,List.sum_nil,List.map_replicate,List.sum_replicate,if_true,zero_add,
      Bool.false_eq_true,if_false,add_zero] at before ⊢
    rw [← before]
    abel
  | join => exact before

end Bookkeeping

def Thread.putter : Thread n A → Bool
  | .worker _ => false
  | _ => true

/-- The NULLs a worker has taken. -/
def Code.nulls : Code C → Nat
  | .got none | .returned => 1
  | _ => 0

/-- The destructor adds nothing but NULLs. -/
def Sentinels : Code C → Prop
  | .puts items | .pushed items => ∀ x ∈ items, x = none
  | _ => False

def isNull (item : Option C) : Nat := if item.isNone then 1 else 0

theorem isNull_closures (l : List C) : (l.map fun c => isNull (some c)).sum = 0 := by
  simp [isNull]

theorem Code.nulls_le (code : Code C) : code.nulls ≤ code.carried isNull := by
  rcases code with _ | _ | _ | (_ | _) | _ | _ <;> simp [nulls,carried,isNull]

theorem Code.nulls_after (item : Option C) : (Code.after item).nulls = (Code.got item).nulls := by
  cases item <;> rfl

structure Inv (closures : A → List C) (s : State n A C) : Prop where
  mutex : Mutex.OneCondition isQueueNotEmpty s.mutex
  found : ∀ t, s.mutex.place t = .inside .running → s.code t = .gets → s.mutex.guarded ≠ []
  away : ∀ t closure, s.code t = .executes closure → s.mutex.place t = .outside
  roles : ∀ t, (s.code t).putting = t.putter
  counted : Conserved isNull closures s
  sentinels : Sentinels (s.code .destructor)
  added : s.destroying = true → ∀ a, s.code (.adder a) = .puts []
  sorted : s.mutex.guarded.Pairwise fun x y => x = none → y = none
  late : ∀ t, (s.code t).nulls ≠ 0 → ∀ x ∈ s.mutex.guarded, x = none
  taken : ∀ t, (s.taken t).countP Option.isNone = (s.code t).nulls
  joined : ∀ i : Fin n, i.val < s.joined → s.code (.worker i) = .returned
  aborted : s.aborted = false

omit [DecidableEq A] in
/-- Before the destructor runs there is no NULL anywhere. -/
theorem Inv.no_null {closures : A → List C} {s : State n A C} (inv : Inv closures s) (alive : s.destroying = false) :
    (∀ x ∈ s.mutex.guarded, x ≠ none) ∧ ∀ t, (s.code t).nulls = 0 := by
  have balance := inv.counted
  simp only [Conserved,isNull_closures,alive,Finset.sum_const_zero,Bool.false_eq_true,if_false] at balance
  obtain ⟨⟨queue,threads⟩,_⟩ : ((s.mutex.guarded.map isNull).sum = 0 ∧ total isNull s.code = 0) ∧ True := by
    simpa using balance
  refine ⟨fun x member => ?_,fun t => ?_⟩
  · intro null
    subst null
    have zero := List.sum_eq_zero_iff_forall_eq_nat.mp queue (isNull none) (List.mem_map_of_mem member)
    exact absurd zero (by simp [isNull])
  · have zero := Finset.sum_eq_zero_iff.mp threads t (Finset.mem_univ t)
    exact Nat.le_zero.mp (zero ▸ (s.code t).nulls_le)

section Moves
variable {closures : A → List C} {s s' : State n A C}

theorem Inv.mutex_move (inv : Inv closures s) (move : Move s s') :
    Mutex.OneCondition isQueueNotEmpty s'.mutex := by
  have step {b mutex} (taken : Mutex.step s.mutex b = some mutex) (uses : b.Uses isQueueNotEmpty) :
      Mutex.OneCondition isQueueNotEmpty mutex := inv.mutex.step uses taken
  cases move with
  | monitor taken uses => exact step taken uses
  | push code taken => exact step taken trivial
  | tryGet code front taken => exact step taken trivial
  | abort code empty taken => exact step taken trivial
  | put code taken => exact step taken trivial
  | get code taken => exact step taken trivial
  | execute | destroy | join => exact inv.mutex

theorem Inv.found_modify (inv : Inv closures s) {t : Thread n A} {c : Code C} {queue : List (Option C)}
    (running : s.mutex.place t = .inside .running) (past : c ≠ .gets) :
    ∀ u, s.mutex.place u = .inside .running → update s.code t c u = .gets → queue ≠ [] := by
  intro u inside code
  have same := inv.mutex.exclusive u t (by simp [inside]) (by simp [running])
  rw [same,update_self] at code
  exact absurd code past

theorem Inv.found_unlock (inv : Inv closures s) {t : Thread n A} (c : Code C) :
    ∀ u, update s.mutex.place t .outside u = .inside .running → update s.code t c u = .gets →
      s.mutex.guarded ≠ [] := by
  intro u inside code
  by_cases same : u = t
  · simp [same] at inside
  · rw [update_of_ne same] at inside code
    exact inv.found u inside code

theorem Inv.found_move (inv : Inv closures s) (move : Move s s') :
    ∀ t, s'.mutex.place t = .inside .running → s'.code t = .gets → s'.mutex.guarded ≠ [] := by
  cases move with
  | monitor taken uses reads adds =>
    intro t running code
    rw [Mutex.step_guarded taken reads]
    obtain before | rfl | ⟨cond,evaluating,value⟩ := Mutex.step_running taken running
    · exact inv.found t before code
    · have putting := adds t rfl
      rw [code] at putting
      exact absurd putting Bool.false_ne_true
    · have same := inv.mutex.only t
      rw [evaluating] at same
      intro empty
      change cond = isQueueNotEmpty at same
      rw [same,empty] at value
      exact absurd value Bool.false_ne_true
  | push code taken =>
    obtain ⟨running,rfl⟩ := Mutex.step_modify taken
    exact inv.found_modify running (by simp)
  | tryGet code front taken =>
    obtain ⟨running,rfl⟩ := Mutex.step_modify taken
    exact inv.found_modify running (by simp)
  | @abort t mutex code empty taken =>
    obtain ⟨running,rfl⟩ := Mutex.step_modify taken
    exact absurd empty (inv.found t running code)
  | put code taken =>
    obtain ⟨_,rfl⟩ := Mutex.step_unlock taken
    exact inv.found_unlock _
  | get code taken =>
    obtain ⟨_,rfl⟩ := Mutex.step_unlock taken
    exact inv.found_unlock _
  | @execute t closure code =>
    intro u running after
    have different : u ≠ t := by
      intro same
      simp [inv.away t closure code,same] at running
    exact inv.found u running (by simpa only [update_of_ne different] using after)
  | destroy =>
    intro u running code
    have different : u ≠ .destructor := by
      intro same
      simp [same] at code
    exact inv.found u running (by simpa only [update_of_ne different] using code)
  | join => exact inv.found

omit [Fintype A] in
/-- A property of all threads after the code of one of them has changed. -/
theorem code_update {P : Thread n A → Code C → Prop} {code : Thread n A → Code C} {t : Thread n A} {c : Code C}
    (new : P t c) (old : ∀ u, P u (code u)) : ∀ u, P u (update code t c u) := by
  intro u
  by_cases same : u = t
  · rw [same,update_self]
    exact new
  · rw [update_of_ne same]
    exact old u

theorem Inv.away_move (inv : Inv closures s) (move : Move s s') :
    ∀ t closure, s'.code t = .executes closure → s'.mutex.place t = .outside := by
  have keep {t : Thread n A} {c : Code C}
      {place : Thread n A → Place (Mutex.Point (List (Option C))) (Mutex.Condition (List (Option C)))}
      (new : ∀ closure, c = .executes closure → place t = .outside)
      (still : ∀ u, s.mutex.place u = .outside → place u = .outside) :
      ∀ u closure, update s.code t c u = .executes closure → place u = .outside :=
    code_update (P := fun u d => ∀ closure, d = .executes closure → place u = .outside) new
      fun u closure code => still u (inv.away u closure code)
  cases move with
  | monitor taken uses reads adds gets =>
    intro t closure code
    obtain outside | rfl | ⟨cond,rfl⟩ := Mutex.step_outside taken (inv.away t closure code)
    · exact outside
    · have putting := adds t rfl
      rw [code] at putting
      exact absurd putting Bool.false_ne_true
    · have getting := gets t cond rfl
      rw [code] at getting
      cases getting
  | push code taken =>
    obtain ⟨_,rfl⟩ := Mutex.step_modify taken
    exact keep (by simp) fun _ => id
  | tryGet code front taken =>
    obtain ⟨_,rfl⟩ := Mutex.step_modify taken
    exact keep (by simp) fun _ => id
  | abort code empty taken =>
    obtain ⟨_,rfl⟩ := Mutex.step_modify taken
    exact inv.away
  | put code taken =>
    obtain ⟨unlocking,rfl⟩ := Mutex.step_unlock taken
    exact keep (by simp) fun u outside => Mutex.outside_update outside (by simp [unlocking]) _
  | get code taken =>
    obtain ⟨unlocking,rfl⟩ := Mutex.step_unlock taken
    exact keep (by simp) fun u outside => Mutex.outside_update outside (by simp [unlocking]) _
  | execute code => exact keep (by simp) fun _ => id
  | destroy => exact keep (by simp) fun _ => id
  | join => exact inv.away

theorem Inv.roles_move (inv : Inv closures s) (move : Move s s') : ∀ t, (s'.code t).putting = t.putter := by
  have keep {t : Thread n A} {c : Code C} (same : c.putting = (s.code t).putting) :
      ∀ u, (update s.code t c u).putting = u.putter :=
    code_update (P := fun u d => d.putting = u.putter) (same.trans (inv.roles t)) inv.roles
  cases move with
  | monitor | abort | join => exact inv.roles
  | push code taken => exact keep (by rw [code]; rfl)
  | tryGet code front taken => exact keep (by rw [code]; rfl)
  | put code taken => exact keep (by rw [code]; rfl)
  | @get t item mutex code taken => exact keep (by rw [code]; cases item <;> rfl)
  | execute code => exact keep (by rw [code]; rfl)
  | destroy alive code added => exact keep (by rw [code]; rfl)

theorem Inv.sentinels_move (inv : Inv closures s) (move : Move s s') : Sentinels (s'.code .destructor) := by
  have keep {t : Thread n A} {c : Code C} (new : t = .destructor → Sentinels c) :
      Sentinels (update s.code t c .destructor) := by
    by_cases same : t = .destructor
    · rw [same,update_self]
      exact new same
    · rw [update_of_ne (Ne.symm same)]
      exact inv.sentinels
  -- Only `puts` and `pushed` are codes of the destructor.
  have own {t : Thread n A} {c : Code C} (code : s.code t = c) (destructor : t = .destructor) : Sentinels c := by
    rw [← code,destructor]
    exact inv.sentinels
  cases move with
  | monitor | abort | join => exact inv.sentinels
  | push code taken => exact keep fun same x member => own code same x (List.mem_cons_of_mem _ member)
  | tryGet code front taken => exact keep fun same => absurd (own code same) id
  | put code taken => exact keep fun same x member => own code same x member
  | get code taken => exact keep fun same => absurd (own code same) id
  | execute code => exact keep fun same => absurd (own code same) id
  | destroy alive code added =>
    have nulls : Sentinels (.puts (List.replicate n (none : Option C))) := fun x member =>
      List.eq_of_mem_replicate member
    exact keep (t := .destructor) fun _ => nulls

theorem Inv.added_move (inv : Inv closures s) (move : Move s s') :
    s'.destroying = true → ∀ a, s'.code (.adder a) = .puts [] := by
  have keep {t : Thread n A} {c d : Code C} (code : s.code t = d) (other : d ≠ .puts []) :
      s.destroying = true → ∀ a, update s.code t c (.adder a) = .puts [] := by
    intro destroying a
    have before := inv.added destroying a
    have different : _ ≠ t := fun same => other (code.symm.trans ((congrArg s.code same).symm.trans before))
    rw [update_of_ne different,before]
  cases move with
  | monitor | abort | join => exact inv.added
  | push code taken => exact keep code (by simp)
  | tryGet code front taken => exact keep code (by simp)
  | put code taken => exact keep code (by simp)
  | get code taken => exact keep code (by simp)
  | execute code => exact keep code (by simp)
  | destroy alive code added =>
    intro _ a
    have other : Thread.adder a ≠ (.destructor : Thread n A) := by simp
    simp only [update_of_ne other,added a]

omit [DecidableEq A] in
/-- A thread that still adds an item is an adder, and then there is no NULL, or
the destructor, and then the item is a NULL. -/
theorem Inv.adding (inv : Inv closures s) {t : Thread n A} {item : Option C} {rest : List (Option C)}
    (code : s.code t = .puts (item :: rest)) : s.destroying = false ∨ item = none := by
  cases t with
  | worker i =>
    have role := inv.roles (.worker i)
    rw [code] at role
    cases role
  | adder a =>
    refine .inl (Bool.eq_false_iff.mpr fun destroying => ?_)
    have done := inv.added destroying a
    rw [code] at done
    cases done
  | destructor =>
    have nulls := inv.sentinels
    rw [code] at nulls
    exact .inr (nulls item List.mem_cons_self)

theorem Inv.sorted_move (inv : Inv closures s) (move : Move s s') :
    s'.mutex.guarded.Pairwise fun x y => x = none → y = none := by
  cases move with
  | monitor taken uses reads => simpa only [Mutex.step_guarded taken reads] using inv.sorted
  | @push t item rest mutex code taken =>
    obtain ⟨_,rfl⟩ := Mutex.step_modify taken
    refine List.pairwise_append.mpr ⟨inv.sorted,List.pairwise_singleton _ _,?_⟩
    intro x member y new null
    rw [List.mem_singleton.mp new]
    obtain alive | sentinel := inv.adding code
    · exact absurd null ((inv.no_null alive).1 x member)
    · exact sentinel
  | tryGet code front taken =>
    obtain ⟨_,rfl⟩ := Mutex.step_modify taken
    have sorted := inv.sorted
    rw [front] at sorted
    exact sorted.of_cons
  | abort code empty taken =>
    obtain ⟨_,rfl⟩ := Mutex.step_modify taken
    exact List.Pairwise.nil
  | put code taken =>
    obtain ⟨_,rfl⟩ := Mutex.step_unlock taken
    exact inv.sorted
  | get code taken =>
    obtain ⟨_,rfl⟩ := Mutex.step_unlock taken
    exact inv.sorted
  | execute | destroy | join => exact inv.sorted

theorem Inv.late_move (inv : Inv closures s) (move : Move s s') :
    ∀ t, (s'.code t).nulls ≠ 0 → ∀ x ∈ s'.mutex.guarded, x = none := by
  have keep {t : Thread n A} {c : Code C} (same : c.nulls = (s.code t).nulls) :
      ∀ u, (update s.code t c u).nulls ≠ 0 → ∀ x ∈ s.mutex.guarded, x = none :=
    code_update (P := fun _ d => d.nulls ≠ 0 → ∀ x ∈ s.mutex.guarded, x = none)
      (fun null => inv.late t (same ▸ null)) inv.late
  cases move with
  | monitor taken uses reads => simpa only [Mutex.step_guarded taken reads] using inv.late
  | @push t item rest mutex code taken =>
    obtain ⟨_,rfl⟩ := Mutex.step_modify taken
    intro u null x member
    have before : (s.code u).nulls ≠ 0 := by
      by_cases same : u = t
      · simp [same,Code.nulls] at null
      · simpa only [update_of_ne same] using null
    obtain old | new := List.mem_append.mp member
    · exact inv.late u before x old
    · rw [List.mem_singleton.mp new]
      exact (inv.adding code).resolve_left fun alive => before ((inv.no_null alive).2 u)
  | @tryGet t item rest mutex code front taken =>
    obtain ⟨_,rfl⟩ := Mutex.step_modify taken
    intro u null x member
    have inside : x ∈ s.mutex.guarded := by
      rw [front]
      exact List.mem_cons_of_mem _ member
    by_cases same : u = t
    · simp only [same,update_self] at null
      have sorted := inv.sorted
      rw [front] at sorted
      cases item with
      | none => exact List.rel_of_pairwise_cons sorted member rfl
      | some closure => exact absurd rfl null
    · exact inv.late u (by simpa only [update_of_ne same] using null) x inside
  | abort code empty taken =>
    obtain ⟨_,rfl⟩ := Mutex.step_modify taken
    intro u null x member
    cases member
  | put code taken =>
    obtain ⟨_,rfl⟩ := Mutex.step_unlock taken
    exact keep (by rw [code]; rfl)
  | get code taken =>
    obtain ⟨_,rfl⟩ := Mutex.step_unlock taken
    exact keep (by rw [code,Code.nulls_after])
  | execute code => exact keep (by rw [code]; rfl)
  | destroy alive code added => exact keep (by rw [code]; rfl)
  | join => exact inv.late

theorem Inv.taken_move (inv : Inv closures s) (move : Move s s') :
    ∀ t, (s'.taken t).countP Option.isNone = (s'.code t).nulls := by
  have keep {t : Thread n A} {c : Code C} (same : c.nulls = (s.code t).nulls) :
      ∀ u, (s.taken u).countP Option.isNone = (update s.code t c u).nulls :=
    code_update (P := fun u d => (s.taken u).countP Option.isNone = d.nulls)
      ((inv.taken t).trans same.symm) inv.taken
  cases move with
  | monitor | abort | join => exact inv.taken
  | push code taken => exact keep (by rw [code]; rfl)
  | @tryGet t item rest mutex code front taken =>
    intro u
    by_cases same : u = t
    · have before := inv.taken t
      rw [code] at before
      cases item <;> simp [same,before,Code.nulls]
    · simpa only [update_of_ne same] using inv.taken u
  | put code taken => exact keep (by rw [code]; rfl)
  | get code taken => exact keep (by rw [code,Code.nulls_after])
  | execute code => exact keep (by rw [code]; rfl)
  | destroy alive code added => exact keep (by rw [code]; rfl)

theorem Inv.joined_move (inv : Inv closures s) (move : Move s s') :
    ∀ i : Fin n, i.val < s'.joined → s'.code (.worker i) = .returned := by
  have keep {t : Thread n A} {c d : Code C} (code : s.code t = d) (other : d ≠ .returned) :
      ∀ i : Fin n, i.val < s.joined → update s.code t c (.worker i) = .returned := by
    intro i earlier
    have before := inv.joined i earlier
    have different : _ ≠ t := fun same => other (code.symm.trans ((congrArg s.code same).symm.trans before))
    rw [update_of_ne different,before]
  cases move with
  | monitor | abort => exact inv.joined
  | push code taken => exact keep code (by simp)
  | tryGet code front taken => exact keep code (by simp)
  | put code taken => exact keep code (by simp)
  | get code taken => exact keep code (by simp)
  | execute code => exact keep code (by simp)
  | destroy alive code added => exact keep (c := .puts (List.replicate n none)) code (by simp)
  | join next code =>
    intro i earlier
    obtain before | same := Nat.lt_succ_iff_lt_or_eq.mp earlier
    · exact inv.joined i before
    · rw [← code]
      exact congrArg (fun i => s.code (.worker i)) (Fin.ext same)

theorem Inv.aborted_move (inv : Inv closures s) (move : Move s s') : s'.aborted = false := by
  cases move with
  | abort code empty taken =>
    obtain ⟨running,_⟩ := Mutex.step_modify taken
    exact absurd empty (inv.found _ running code)
  | _ => exact inv.aborted

theorem inv_move (inv : Inv closures s) (move : Move s s') : Inv closures s' where
  mutex := inv.mutex_move move
  found := inv.found_move move
  away := inv.away_move move
  roles := inv.roles_move move
  counted := conserved_move isNull inv.counted move
  sentinels := inv.sentinels_move move
  added := inv.added_move move
  sorted := inv.sorted_move move
  late := inv.late_move move
  taken := inv.taken_move move
  joined := inv.joined_move move
  aborted := inv.aborted_move move

end Moves

omit [DecidableEq A] in
theorem total_start {M : Type} [AddCommMonoid M] (weight : Option C → M) {closures : A → List C}
    {code : Thread n A → Code C} (workers : ∀ i, code (.worker i) = .gets)
    (adders : ∀ a, code (.adder a) = .puts ((closures a).map some)) (destructor : code .destructor = .puts []) :
    total weight code = ∑ a, ((closures a).map fun c => weight (some c)).sum := by
  let adder : A ↪ Thread n A := ⟨.adder,fun a b same => by cases same; rfl⟩
  have others (t : Thread n A) (absent : t ∉ Finset.univ.map adder) : (code t).carried weight = 0 := by
    cases t with
    | worker i => rw [workers]; rfl
    | adder a => exact absurd (Finset.mem_map_of_mem adder (Finset.mem_univ a)) absent
    | destructor => rw [destructor]; rfl
  calc total weight code
    _ = ∑ t ∈ Finset.univ.map adder, (code t).carried weight :=
      (Finset.sum_subset (Finset.subset_univ _) fun t _ absent => others t absent).symm
    _ = ∑ a, (code (.adder a)).carried weight := Finset.sum_map ..
    _ = ∑ a, ((closures a).map fun c => weight (some c)).sum := by
      simp only [adders,Code.carried,List.map_map,Function.comp_def]

theorem conserved_reachable {M : Type} [AddCommMonoid M] (weight : Option C → M) {closures : A → List C}
    {s : State n A C} (reached : (system n closures).Reachable s) : Conserved weight closures s := by
  refine reached.invariant (Conserved weight closures) ?_ fun s a s' before ok =>
    conserved_move weight before (step_move ok)
  intro s ⟨_,queue,workers,adders,destructor,alive,_,executed,_⟩
  simp [Conserved,queue,alive,executed,total_start weight workers adders destructor]

theorem inv_reachable {closures : A → List C} {s : State n A C} (reached : (system n closures).Reachable s) :
    Inv closures s := by
  refine reached.invariant (Inv closures) ?_ fun s a s' inv ok => inv_move inv (step_move ok)
  intro s start
  have counted : Conserved isNull closures s := conserved_reachable isNull (.initial start)
  obtain ⟨mutex,queue,workers,adders,destructor,alive,joined,executed,taken,aborted⟩ := start
  have noNulls (t : Thread n A) : (s.code t).nulls = 0 := by
    cases t <;> simp [workers,adders,destructor,Code.nulls]
  exact {
    mutex := .start mutex
    found := fun t running => by simp [mutex.1 t] at running
    away := fun t closure _ => mutex.1 t
    roles := fun t => by cases t <;> simp [workers,adders,destructor,Code.putting,Thread.putter]
    counted
    sentinels := by simp [destructor,Sentinels]
    added := fun destroying => by simp [alive] at destroying
    sorted := by simp [queue]
    late := fun t null => absurd (noNulls t) null
    taken := fun t => by simp [taken,noNulls]
    joined := fun i earlier => by simp [joined] at earlier
    aborted := aborted}

omit [DecidableEq A] in
theorem Inv.returned {closures : A → List C} {s : State n A C} (inv : Inv closures s) (destroyed : Destroyed s)
    (i : Fin n) : s.code (.worker i) = .returned := by
  apply inv.joined i
  rw [destroyed.2]
  exact i.isLt

omit [DecidableEq A] in
/-- A worker has taken a NULL, so the queue holds nothing else, and the workers
have taken all NULLs there are. -/
theorem Inv.queue_empty {closures : A → List C} {s : State n A C} (inv : Inv closures s) (started : 0 < n)
    (destroyed : Destroyed s) : s.mutex.guarded = [] := by
  have returned := inv.returned destroyed
  let worker : Fin n ↪ Thread n A := ⟨.worker,fun i j same => by cases same; rfl⟩
  have one (i : Fin n) : (s.code (worker i)).carried isNull = 1 := congrArg (Code.carried isNull) (returned i)
  have taken : n ≤ total isNull s.code := by
    calc n
      _ = ∑ i : Fin n, (s.code (worker i)).carried isNull := by simp [one]
      _ = ∑ t ∈ Finset.univ.map worker, (s.code t).carried isNull :=
        (Finset.sum_map Finset.univ worker fun t => (s.code t).carried isNull).symm
      _ ≤ total isNull s.code := Finset.sum_le_sum_of_subset (Finset.subset_univ _)
  have balance := inv.counted
  simp only [Conserved,destroyed.1,if_true,isNull_closures,Finset.sum_const_zero] at balance
  have sentinels : n • isNull (none : Option C) = n := by simp [isNull]
  have noNull : (s.mutex.guarded.map isNull).sum = 0 := by omega
  refine List.eq_nil_iff_forall_not_mem.mpr fun x member => ?_
  obtain rfl := inv.late (.worker ⟨0,started⟩) (by simp [returned,Code.nulls]) x member
  have zero := List.sum_eq_zero_iff_forall_eq_nat.mp noNull _ (List.mem_map_of_mem member)
  exact absurd zero (by simp [isNull])

def closureOf : Option C → Multiset C
  | none => 0
  | some closure => {closure}

theorem sum_closureOf (l : List C) : (l.map fun c => closureOf (some c)).sum = (l : Multiset C) := by
  have singletons := Multiset.sum_map_singleton (l : Multiset C)
  rwa [Multiset.map_coe,Multiset.sum_coe] at singletons

omit [DecidableEq A] in
/-- When the destructor has returned no thread carries a closure any more. -/
theorem Inv.all_executed {closures : A → List C} {s : State n A C} (inv : Inv closures s)
    (conserved : Conserved closureOf closures s) (started : 0 < n) (destroyed : Destroyed s) :
    (s.executed : Multiset C) = ∑ a, (closures a : Multiset C) := by
  have empty := inv.queue_empty started destroyed
  have nothing : total closureOf s.code = 0 := by
    refine Finset.sum_eq_zero fun t _ => ?_
    cases t with
    | worker i => rw [inv.returned destroyed i]; rfl
    | adder a => rw [inv.added destroyed.1 a]; rfl
    | destructor =>
      have nulls := inv.sentinels
      cases code : s.code .destructor with
      | puts items | pushed items =>
        rw [code] at nulls
        refine List.sum_eq_zero fun x member => ?_
        obtain ⟨item,inside,rfl⟩ := List.mem_map.mp member
        rw [nulls item inside]
        rfl
      | _ =>
        rw [code] at nulls
        exact absurd nulls id
  have sentinels : n • closureOf (none : Option C) = 0 := nsmul_zero n
  simpa only [Conserved,empty,nothing,sum_closureOf,sentinels,destroyed.1,if_true,List.map_nil,List.sum_nil,
    zero_add,add_zero] using conserved

omit [DecidableEq A] in
/-- All waiters have one `Condition`, so the mutex loses no wake-up. -/
theorem Inv.not_asleep {closures : A → List C} {s : State n A C} (inv : Inv closures s) : ¬Asleep s := by
  intro ⟨notEmpty,free,nobody,i,cond,blocked⟩
  have same := inv.mutex.only (.worker i)
  rw [blocked] at same
  refine inv.mutex.not_lost ⟨free,nobody,.worker i,cond,blocked,?_⟩
  change cond = isQueueNotEmpty at same
  rw [same]
  cases queue : s.mutex.guarded with
  | nil => exact absurd queue notEmpty
  | cons => rfl

/-- Shutdown is complete: every closure ran exactly once, every worker took one
NULL and the queue is empty; and no worker sleeps beside a non-empty queue. -/
theorem shutdown_complete {closures : A → List C} {s : State n A C} (started : 0 < n)
    (reached : (system n closures).Reachable s) :
    (Destroyed s → (s.executed : Multiset C) = ∑ a, (closures a : Multiset C) ∧
      (∀ i, (s.taken (.worker i)).countP Option.isNone = 1) ∧ s.mutex.guarded = []) ∧
    ¬Asleep s ∧ s.aborted = false := by
  have inv := inv_reachable reached
  refine ⟨fun destroyed => ⟨?_,fun i => ?_,?_⟩,inv.not_asleep,inv.aborted⟩
  · exact inv.all_executed (conserved_reachable closureOf reached) started destroyed
  · rw [inv.taken,inv.returned destroyed i]
    rfl
  · exact inv.queue_empty started destroyed

/-- Two workers and two closures: worker 1 is blocked when the first is added. -/
def twoWorkers : List (Action 2 Unit) :=
  let add (t : Thread 2 Unit) (choice : Option (Thread 2 Unit)) : List (Action 2 Unit) :=
    [.lock t,.push t,.signal t choice,.unlock t]
  let get (t : Thread 2 Unit) : List (Action 2 Unit) := [.eval t,.tryGet t,.signal t none,.unlock t]
  [.lockWhen (.worker 1),.eval (.worker 1)] ++ add (.adder ()) (some (.worker 1)) ++
  [.lockWhen (.worker 0)] ++ get (.worker 0) ++ [.execute (.worker 0)] ++ add (.adder ()) none ++
  [.reacquire (.worker 1)] ++ get (.worker 1) ++ [.execute (.worker 1),.destroy] ++
  add .destructor none ++ add .destructor none ++
  [.lockWhen (.worker 0)] ++ get (.worker 0) ++ [.lockWhen (.worker 1)] ++ get (.worker 1) ++ [.join,.join]

theorem shutdown_twoWorkers : ∃ s : State 2 Unit Nat, Destroyed s ∧ (s.executed : Multiset Nat) = {7,8} := by
  obtain ⟨s,reached,destroyed⟩ : ∃ s, (system 2 fun _ : Unit => [7,8]).Reachable s ∧ Destroyed s := by
    refine System.exists_reachable (⟨⟨fun _ => .outside,false,[]⟩,fun
      | .worker _ => .gets
      | .adder _ => .puts [some 7,some 8]
      | .destructor => .puts [],false,0,[],fun _ => [],false⟩ : State 2 Unit Nat) ?_ twoWorkers ?_
    · exact ⟨⟨fun _ => rfl,rfl⟩,rfl,fun _ => rfl,fun _ => rfl,rfl,rfl,rfl,rfl,fun _ => rfl,rfl⟩
    · decide
  refine ⟨s,destroyed,?_⟩
  rw [((shutdown_complete (by decide) reached).1 destroyed).1]
  rfl

end WebSearch.ThreadPool
