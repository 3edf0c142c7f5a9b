import WebSearch.Library.Transition
import WebSearch.Library.Monitor

/-! `base/mutex.h`: `Mutex` with `LockWhen` and `Await`. The pthread mutex and
condition variable are the monitor of the library; what a blocked thread waits
for is its `Condition` over the protected state. `Unlock` sends at most one
signal, and `WaitLoop` blocks again without sending one. -/
namespace WebSearch.Mutex
open Library Library.Monitor Function

abbrev Condition (σ : Type) := σ → Bool

/-- Where the holder of the mutex is: in its own code, in `WaitLoop` before
`cond.Eval()`, or in `Unlock` after the signal. -/
inductive Point (σ : Type)
  | running
  | evaluating (cond : Condition σ)
  | unlocking

structure State (τ σ : Type) where
  place : τ → Place (Point σ) (Condition σ)
  signalAtUnlock : Bool
  guarded : σ

/-- The steps of a thread `t`. `lockWhen` and `await` are the entry to `WaitLoop`,
which sets `signal_at_unlock_`; `reacquire` is the return from
`pthread_cond_wait`, and `spurious` lets it return without a signal; `modify` is
any write of a critical section. -/
inductive Action (τ σ : Type)
  | lock (t : τ)
  | lockWhen (t : τ) (cond : Condition σ)
  | await (t : τ) (cond : Condition σ)
  | eval (t : τ)
  | spurious (t : τ)
  | reacquire (t : τ)
  | modify (t : τ) (next : σ)
  | signal (t : τ) (choice : Option τ)
  | unlock (t : τ)

variable {τ σ : Type} [Fintype τ] [DecidableEq τ]

def step (s : State τ σ) : Action τ σ → Option (State τ σ)
  | .lock t => match s.place t with
    | .outside => if Free s.place then some {s with place := update s.place t (.inside .running)} else none
    | _ => none
  | .lockWhen t cond => match s.place t with
    | .outside => if Free s.place then
        some {s with place := update s.place t (.inside (.evaluating cond)),signalAtUnlock := true} else none
    | _ => none
  | .await t cond => match s.place t with
    | .inside .running =>
      some {s with place := update s.place t (.inside (.evaluating cond)),signalAtUnlock := true}
    | _ => none
  | .eval t => match s.place t with
    | .inside (.evaluating cond) =>
      if cond s.guarded then some {s with place := update s.place t (.inside .running)}
      else some {s with place := update s.place t (.waiting cond)}
    | _ => none
  | .spurious t => match s.place t with
    | .waiting cond => some {s with place := update s.place t (.woken cond)}
    | _ => none
  | .reacquire t => match s.place t with
    | .woken cond => if Free s.place then
        some {s with place := update s.place t (.inside (.evaluating cond))} else none
    | _ => none
  | .modify t next => match s.place t with
    | .inside .running => some {s with guarded := next}
    | _ => none
  | .signal t choice => match s.place t with
    | .inside .running =>
      if s.signalAtUnlock then
        (signal s.place choice).map fun place => {s with place := update place t (.inside .unlocking)}
      else if choice = none then some {s with place := update s.place t (.inside .unlocking)}
      else none
    | _ => none
  | .unlock t => match s.place t with
    | .inside .unlocking => some {s with place := update s.place t .outside}
    | _ => none

/-- Any number of threads, each free to lock, wait on any conditions, write the
protected state and unlock. -/
def system (τ σ : Type) [Fintype τ] [DecidableEq τ] : System (State τ σ) (Action τ σ) where
  initial s := (∀ t, s.place t = .outside) ∧ s.signalAtUnlock = false
  step := step

def TrueWaiter (place : τ → Place (Point σ) (Condition σ)) (guarded : σ) : Prop :=
  ∃ t cond, place t = .waiting cond ∧ cond guarded = true

def TrueWoken (place : τ → Place (Point σ) (Condition σ)) (guarded : σ) : Prop :=
  ∃ t cond, place t = .woken cond ∧ cond guarded = true

/-- The mutex is free and no signal is on its way, yet a thread is blocked in
`WaitLoop` with its own `Condition` true. -/
def Lost (s : State τ σ) : Prop :=
  Free s.place ∧ (∀ t cond, s.place t ≠ .woken cond) ∧ TrueWaiter s.place s.guarded

def ready (guarded : σ) : Place (Point σ) (Condition σ) → Bool
  | .waiting cond => cond guarded
  | _ => false

def resuming (guarded : σ) : Place (Point σ) (Condition σ) → Bool
  | .woken cond => cond guarded
  | _ => false

def signalled : Place (Point σ) (Condition σ) → Bool
  | .woken _ => true
  | _ => false

omit [Fintype τ] [DecidableEq τ] in
theorem trueWaiter_iff {place : τ → Place (Point σ) (Condition σ)} {guarded : σ} :
    TrueWaiter place guarded ↔ ∃ t, ready guarded (place t) = true := by
  constructor
  · intro ⟨t,cond,blocked,value⟩
    exact ⟨t,by simpa [ready,blocked] using value⟩
  · intro ⟨t,value⟩
    cases blocked : place t with
    | waiting cond => exact ⟨t,cond,blocked,by simpa [ready,blocked] using value⟩
    | _ => simp [ready,blocked] at value

omit [Fintype τ] [DecidableEq τ] in
theorem trueWoken_iff {place : τ → Place (Point σ) (Condition σ)} {guarded : σ} :
    TrueWoken place guarded ↔ ∃ t, resuming guarded (place t) = true := by
  constructor
  · intro ⟨t,cond,woken,value⟩
    exact ⟨t,by simpa [resuming,woken] using value⟩
  · intro ⟨t,value⟩
    cases woken : place t with
    | woken cond => exact ⟨t,cond,woken,by simpa [resuming,woken] using value⟩
    | _ => simp [resuming,woken] at value

instance (place : τ → Place (Point σ) (Condition σ)) (guarded : σ) : Decidable (TrueWaiter place guarded) :=
  decidable_of_iff' _ trueWaiter_iff

instance (place : τ → Place (Point σ) (Condition σ)) (guarded : σ) : Decidable (TrueWoken place guarded) :=
  decidable_of_iff' _ trueWoken_iff

omit [Fintype τ] [DecidableEq τ] in
theorem lost_iff {s : State τ σ} : Lost s ↔
    Free s.place ∧ (∀ t, signalled (s.place t) = false) ∧ ∃ t, ready s.guarded (s.place t) = true := by
  have quiet (t : τ) : (∀ cond, s.place t ≠ .woken cond) ↔ signalled (s.place t) = false := by
    cases s.place t <;> simp [signalled]
  simp only [Lost,trueWaiter_iff,quiet]

instance (s : State τ σ) : Decidable (Lost s) := decidable_of_iff' _ lost_iff

/-- While a thread with a true `Condition` is blocked and none is on its way, the
signal of an `Unlock` goes to such a thread, and no `Await` blocks. -/
def Relays (s : State τ σ) : Action τ σ → Prop
  | .signal _ choice => TrueWaiter s.place s.guarded → ¬TrueWoken s.place s.guarded →
    ∃ t, choice = some t ∧ ready s.guarded (s.place t) = true
  | .await _ cond => TrueWaiter s.place s.guarded → ¬TrueWoken s.place s.guarded → cond s.guarded = true
  | _ => True

instance (s : State τ σ) (a : Action τ σ) : Decidable (Relays s a) :=
  match a with
  | .signal _ choice => inferInstanceAs (Decidable (TrueWaiter s.place s.guarded →
      ¬TrueWoken s.place s.guarded → ∃ t, choice = some t ∧ ready s.guarded (s.place t) = true))
  | .await _ cond => inferInstanceAs (Decidable (TrueWaiter s.place s.guarded →
      ¬TrueWoken s.place s.guarded → cond s.guarded = true))
  | .lock _ | .lockWhen _ _ | .eval _ | .spurious _ | .reacquire _ | .modify _ _ | .unlock _ => .isTrue trivial

theorem step_lock {s s' : State τ σ} {t : τ} (ok : step s (.lock t) = some s') :
    s.place t = .outside ∧ Free s.place ∧ s' = {s with place := update s.place t (.inside .running)} := by
  simp only [step] at ok
  split at ok <;> simp_all

theorem step_lockWhen {s s' : State τ σ} {t : τ} {cond : Condition σ} (ok : step s (.lockWhen t cond) = some s') :
    s.place t = .outside ∧ Free s.place ∧
      s' = {s with place := update s.place t (.inside (.evaluating cond)),signalAtUnlock := true} := by
  simp only [step] at ok
  split at ok <;> simp_all

theorem step_await {s s' : State τ σ} {t : τ} {cond : Condition σ} (ok : step s (.await t cond) = some s') :
    s.place t = .inside .running ∧
      s' = {s with place := update s.place t (.inside (.evaluating cond)),signalAtUnlock := true} := by
  simp only [step] at ok
  split at ok <;> simp_all

theorem step_eval {s s' : State τ σ} {t : τ} (ok : step s (.eval t) = some s') :
    ∃ cond, s.place t = .inside (.evaluating cond) ∧
      ((cond s.guarded = true ∧ s' = {s with place := update s.place t (.inside .running)}) ∨
       (cond s.guarded = false ∧ s' = {s with place := update s.place t (.waiting cond)})) := by
  simp only [step] at ok
  split at ok
  · rename_i cond at_eval
    refine ⟨cond,at_eval,?_⟩
    cases value : cond s.guarded <;> simp_all
  · contradiction

theorem step_spurious {s s' : State τ σ} {t : τ} (ok : step s (.spurious t) = some s') :
    ∃ cond, s.place t = .waiting cond ∧ s' = {s with place := update s.place t (.woken cond)} := by
  simp only [step] at ok
  split at ok
  · rename_i cond waiting
    exact ⟨cond,waiting,(Option.some.inj ok).symm⟩
  · contradiction

theorem step_reacquire {s s' : State τ σ} {t : τ} (ok : step s (.reacquire t) = some s') :
    ∃ cond, s.place t = .woken cond ∧ Free s.place ∧
      s' = {s with place := update s.place t (.inside (.evaluating cond))} := by
  simp only [step] at ok
  split at ok
  · rename_i cond at_woken
    exact ⟨cond,at_woken,by simp_all⟩
  · contradiction

theorem step_modify {s s' : State τ σ} {t : τ} {next : σ} (ok : step s (.modify t next) = some s') :
    s.place t = .inside .running ∧ s' = {s with guarded := next} := by
  simp only [step] at ok
  split at ok <;> simp_all

theorem step_signal {s s' : State τ σ} {t : τ} {choice : Option τ} (ok : step s (.signal t choice) = some s') :
    s.place t = .inside .running ∧ ∃ place, s' = {s with place := update place t (.inside .unlocking)} ∧
      ((s.signalAtUnlock = true ∧ signal s.place choice = some place) ∨
       (s.signalAtUnlock = false ∧ choice = none ∧ place = s.place)) := by
  simp only [step] at ok
  split at ok
  · rename_i running
    refine ⟨running,?_⟩
    cases flag : s.signalAtUnlock with
    | true =>
      rw [flag,if_pos rfl,Option.map_eq_some_iff] at ok
      obtain ⟨place,sent,same⟩ := ok
      exact ⟨place,same.symm,.inl ⟨rfl,sent⟩⟩
    | false =>
      rw [flag,if_neg Bool.false_ne_true] at ok
      split at ok
      · rename_i nobody
        exact ⟨s.place,(Option.some.inj ok).symm,.inr ⟨rfl,nobody,rfl⟩⟩
      · contradiction
  · contradiction

theorem step_unlock {s s' : State τ σ} {t : τ} (ok : step s (.unlock t) = some s') :
    s.place t = .inside .unlocking ∧ s' = {s with place := update s.place t .outside} := by
  simp only [step] at ok
  split at ok <;> simp_all

theorem step_guarded {s s' : State τ σ} {a : Action τ σ} (ok : step s a = some s')
    (reads : ∀ t next, a ≠ .modify t next) : s'.guarded = s.guarded := by
  cases a with
  | lock t => obtain ⟨_,_,rfl⟩ := step_lock ok; rfl
  | lockWhen t cond => obtain ⟨_,_,rfl⟩ := step_lockWhen ok; rfl
  | await t cond => obtain ⟨_,rfl⟩ := step_await ok; rfl
  | eval t => obtain ⟨_,_,⟨_,rfl⟩ | ⟨_,rfl⟩⟩ := step_eval ok <;> rfl
  | spurious t => obtain ⟨_,_,rfl⟩ := step_spurious ok; rfl
  | reacquire t => obtain ⟨_,_,_,rfl⟩ := step_reacquire ok; rfl
  | modify t next => exact absurd rfl (reads t next)
  | signal t choice => obtain ⟨_,_,rfl,_⟩ := step_signal ok; rfl
  | unlock t => obtain ⟨_,rfl⟩ := step_unlock ok; rfl

/-- What a step can make of the place of a thread. -/
inductive Turn (guarded : σ) : Action τ σ → τ → Place (Point σ) (Condition σ) → Place (Point σ) (Condition σ) → Prop
  | lock {u} : Turn guarded (.lock u) u .outside (.inside .running)
  | lockWhen {u cond} : Turn guarded (.lockWhen u cond) u .outside (.inside (.evaluating cond))
  | await {u cond} : Turn guarded (.await u cond) u (.inside .running) (.inside (.evaluating cond))
  | found {u cond} (value : cond guarded = true) :
      Turn guarded (.eval u) u (.inside (.evaluating cond)) (.inside .running)
  | blocked {u cond} (value : cond guarded = false) :
      Turn guarded (.eval u) u (.inside (.evaluating cond)) (.waiting cond)
  | spurious {u cond} : Turn guarded (.spurious u) u (.waiting cond) (.woken cond)
  | signalled {t u cond} : Turn guarded (.signal t (some u)) u (.waiting cond) (.woken cond)
  | reacquire {u cond} : Turn guarded (.reacquire u) u (.woken cond) (.inside (.evaluating cond))
  | signal {u choice} : Turn guarded (.signal u choice) u (.inside .running) (.inside .unlocking)
  | unlock {u} : Turn guarded (.unlock u) u (.inside .unlocking) .outside

omit [Fintype τ] in
theorem turn_update {place : τ → Place (Point σ) (Condition σ)} {guarded : σ} {a : Action τ σ} {t : τ}
    {old new : Place (Point σ) (Condition σ)} (before : place t = old) (turn : Turn guarded a t old new) (u : τ) :
    update place t new u = place u ∨ Turn guarded a u (place u) (update place t new u) := by
  by_cases same : u = t
  · subst same
    rw [update_self,before]
    exact .inr turn
  · exact .inl (update_of_ne same ..)

theorem step_turn {s s' : State τ σ} {a : Action τ σ} (ok : step s a = some s') (u : τ) :
    s'.place u = s.place u ∨ Turn s.guarded a u (s.place u) (s'.place u) := by
  cases a with
  | lock t =>
    obtain ⟨outside,_,rfl⟩ := step_lock ok
    exact turn_update outside .lock u
  | lockWhen t cond =>
    obtain ⟨outside,_,rfl⟩ := step_lockWhen ok
    exact turn_update outside .lockWhen u
  | await t cond =>
    obtain ⟨running,rfl⟩ := step_await ok
    exact turn_update running .await u
  | eval t =>
    obtain ⟨cond,evaluating,⟨value,rfl⟩ | ⟨value,rfl⟩⟩ := step_eval ok
    · exact turn_update evaluating (.found value) u
    · exact turn_update evaluating (.blocked value) u
  | spurious t =>
    obtain ⟨_,waiting,rfl⟩ := step_spurious ok
    exact turn_update waiting .spurious u
  | reacquire t =>
    obtain ⟨_,woken,_,rfl⟩ := step_reacquire ok
    exact turn_update woken .reacquire u
  | modify t next =>
    obtain ⟨_,rfl⟩ := step_modify ok
    exact .inl rfl
  | signal t choice =>
    obtain ⟨running,place,rfl,⟨_,sent⟩ | ⟨_,_,rfl⟩⟩ := step_signal ok
    · obtain ⟨_,rfl,_⟩ | ⟨v,cond,rfl,waiting,rfl⟩ := signal_cases sent
      · exact turn_update running .signal u
      · by_cases same : u = t
        · subst same
          simp only [running,update_self]
          exact .inr .signal
        · simp only [update_of_ne same]
          exact turn_update waiting .signalled u
    · exact turn_update running .signal u
  | unlock t =>
    obtain ⟨unlocking,rfl⟩ := step_unlock ok
    exact turn_update unlocking .unlock u

/-- A thread comes into its own code by `Lock`, or by seeing its `Condition` true. -/
theorem step_running {s s' : State τ σ} {a : Action τ σ} (ok : step s a = some s') {u : τ}
    (running : s'.place u = .inside .running) : s.place u = .inside .running ∨ a = .lock u ∨
      ∃ cond, s.place u = .inside (.evaluating cond) ∧ cond s.guarded = true := by
  obtain same | turn := step_turn ok u
  · exact .inl (same ▸ running)
  · rw [running] at turn
    generalize s.place u = old at turn
    cases turn with
    | lock => exact .inr (.inl rfl)
    | found value => exact .inr (.inr ⟨_,rfl,value⟩)

omit [Fintype τ] in
theorem outside_update {place : τ → Place (Point σ) (Condition σ)} {t u : τ} (outside : place u = .outside)
    (busy : place t ≠ .outside) (p : Place (Point σ) (Condition σ)) : update place t p u = .outside := by
  have different : u ≠ t := fun same => busy (same ▸ outside)
  rw [update_of_ne different,outside]

/-- A thread outside stays there unless it locks. -/
theorem step_outside {s s' : State τ σ} {a : Action τ σ} (ok : step s a = some s') {u : τ}
    (outside : s.place u = .outside) : s'.place u = .outside ∨ a = .lock u ∨ ∃ cond, a = .lockWhen u cond := by
  obtain same | turn := step_turn ok u
  · exact .inl (same.trans outside)
  · rw [outside] at turn
    generalize s'.place u = new at turn
    cases turn with
    | lock => exact .inr (.inl rfl)
    | lockWhen => exact .inr (.inr ⟨_,rfl⟩)

/-- The thread holds the mutex and is not in `WaitLoop`. -/
def inCode : Place (Point σ) (Condition σ) → Bool
  | .inside .running | .inside .unlocking => true
  | _ => false

theorem step_inCode {s s' : State τ σ} {a : Action τ σ} (ok : step s a = some s') {u : τ}
    (own : inCode (s.place u) = true) :
    inCode (s'.place u) = true ∨ a = .unlock u ∨ ∃ cond, a = .await u cond := by
  obtain same | turn := step_turn ok u
  · exact .inl (same ▸ own)
  · generalize s.place u = old at turn own
    generalize s'.place u = new at turn
    cases turn with
    | await => exact .inr (.inr ⟨_,rfl⟩)
    | signal => exact .inl rfl
    | unlock => exact .inr (.inl rfl)
    | lock | lockWhen | found | blocked | spurious | signalled | reacquire => exact absurd own Bool.false_ne_true

/-- A thread is past `WaitLoop` only by `Lock`, or by seeing its `Condition` true. -/
theorem step_entered {s s' : State τ σ} {a : Action τ σ} (ok : step s a = some s') {u : τ}
    (own : inCode (s'.place u) = true) : inCode (s.place u) = true ∨ a = .lock u ∨
      ∃ cond, s.place u = .inside (.evaluating cond) ∧ cond s.guarded = true := by
  obtain same | turn := step_turn ok u
  · exact .inl (same ▸ own)
  · generalize s'.place u = new at turn own
    generalize s.place u = old at turn
    cases turn with
    | lock => exact .inr (.inl rfl)
    | found value => exact .inr (.inr ⟨_,rfl,value⟩)
    | signal => exact .inl rfl
    | lockWhen | await | blocked | spurious | signalled | reacquire | unlock => exact absurd own Bool.false_ne_true

omit [Fintype τ] in
theorem TrueWaiter.before {place : τ → Place (Point σ) (Condition σ)} {guarded : σ} {t : τ}
    {p : Place (Point σ) (Condition σ)} (waiter : TrueWaiter (update place t p) guarded)
    (silent : ∀ cond, p = .waiting cond → cond guarded = false) : TrueWaiter place guarded := by
  obtain ⟨u,cond,blocked,value⟩ := waiter
  by_cases same : u = t
  · rw [same,update_self] at blocked
    rw [silent cond blocked] at value
    exact absurd value Bool.false_ne_true
  · exact ⟨u,cond,by rwa [update_of_ne same] at blocked,value⟩

omit [Fintype τ] in
theorem TrueWoken.after {place : τ → Place (Point σ) (Condition σ)} {guarded : σ} {t : τ}
    (woken : TrueWoken place guarded) (p : Place (Point σ) (Condition σ))
    (idle : ∀ cond, place t = .woken cond → cond guarded = false) : TrueWoken (update place t p) guarded := by
  obtain ⟨u,cond,signalled,value⟩ := woken
  have different : u ≠ t := by
    intro same
    rw [idle cond (same ▸ signalled)] at value
    exact Bool.false_ne_true value
  exact ⟨u,cond,by rwa [update_of_ne different],value⟩

/-- The thread has entered `WaitLoop` and not left it. -/
def InWaitLoop : Place (Point σ) (Condition σ) → Prop
  | .waiting _ | .woken _ | .inside (.evaluating _) => True
  | _ => False

/-- What every run that relays its signals keeps. While the holder is in its own
code nothing is asked; from its signal on, and all the time the mutex is free, a
blocked thread with a true `Condition` is matched by a signalled one. -/
structure Relayed (s : State τ σ) : Prop where
  exclusive : Exclusive s.place
  flagged : ∀ t, InWaitLoop (s.place t) → s.signalAtUnlock = true
  matched : (∃ t, s.place t = .inside .running) ∨
    (∃ t cond, s.place t = .inside (.evaluating cond) ∧ cond s.guarded = true) ∨
    (TrueWaiter s.place s.guarded → TrueWoken s.place s.guarded)

omit [Fintype τ] [DecidableEq τ] in
theorem Relayed.of_free {s : State τ σ} (inv : Relayed s) (free : Free s.place) :
    TrueWaiter s.place s.guarded → TrueWoken s.place s.guarded := by
  obtain ⟨t,running⟩ | ⟨t,cond,evaluating,_⟩ | matched := inv.matched
  · exact absurd (free t) (by simp [running])
  · exact absurd (free t) (by simp [evaluating])
  · exact matched

omit [Fintype τ] [DecidableEq τ] in
/-- The same for a holder that is neither in its own code nor about to see a true
`Condition`: no other thread can be. -/
theorem Relayed.of_holder {s : State τ σ} (inv : Relayed s) {t : τ} {point : Point σ}
    (held : s.place t = .inside point) (notRunning : point ≠ .running)
    (notTrue : ∀ cond, point = .evaluating cond → cond s.guarded = false) :
    TrueWaiter s.place s.guarded → TrueWoken s.place s.guarded := by
  have unique (u : τ) (other : Point σ) (inside : s.place u = .inside other) : other = point := by
    have same := inv.exclusive u t (by simp [inside]) (by simp [held])
    rw [same,held] at inside
    cases inside
    rfl
  obtain ⟨u,running⟩ | ⟨u,cond,evaluating,value⟩ | matched := inv.matched
  · exact absurd (unique u _ running).symm notRunning
  · rw [notTrue cond (unique u _ evaluating).symm] at value
    exact absurd value Bool.false_ne_true
  · exact matched

omit [Fintype τ] in
theorem flagged_update {place : τ → Place (Point σ) (Condition σ)} {flag : Bool}
    (flagged : ∀ t, InWaitLoop (place t) → flag = true) (t : τ) {p : Place (Point σ) (Condition σ)}
    (entered : InWaitLoop p → flag = true) : ∀ u, InWaitLoop (update place t p u) → flag = true := by
  intro u loop
  by_cases same : u = t
  · rw [same,update_self] at loop
    exact entered loop
  · rw [update_of_ne same] at loop
    exact flagged u loop

/-- The signal of an `Unlock` either finds nobody with a true `Condition`, or moves
such a thread on. -/
theorem relayed_signal {s : State τ σ} {t : τ} {choice : Option τ} (inv : Relayed s)
    (relays : Relays s (.signal t choice)) (running : s.place t = .inside .running)
    {place : τ → Place (Point σ) (Condition σ)} (sent : signal s.place choice = some place) :
    Relayed {s with place := update place t (.inside .unlocking)} := by
  have exclusive := inv.exclusive.signal sent
  obtain ⟨_,rfl,nobody⟩ | ⟨u,cond,rfl,blocked,rfl⟩ := signal_cases sent
  · refine ⟨exclusive.move (by simp [running]) _,flagged_update inv.flagged t (by simp [InWaitLoop]),
      .inr (.inr fun waiter => ?_)⟩
    obtain ⟨u,cond,blocked,_⟩ := waiter.before (by simp)
    exact absurd blocked (nobody u cond)
  · have different : t ≠ u := ne_of_apply_ne s.place (by simp [running,blocked])
    have flag := inv.flagged u (by simp [blocked,InWaitLoop])
    have stays : update s.place u (.woken cond) t = .inside .running := by rw [update_of_ne different,running]
    refine ⟨exclusive.move (by simp [stays]) _,?_,.inr (.inr fun waiter => ?_)⟩
    · exact flagged_update (flagged_update inv.flagged u (fun _ => flag)) t (by simp [InWaitLoop])
    · have before := (waiter.before (by simp)).before (by simp)
      have woken : TrueWoken (update s.place u (.woken cond)) s.guarded := by
        by_cases already : TrueWoken s.place s.guarded
        · exact already.after _ (by simp [blocked])
        · obtain ⟨v,same,value⟩ := relays before already
          cases same
          rw [blocked] at value
          exact ⟨u,cond,update_self ..,value⟩
      exact woken.after _ (by simp [stays])

theorem relayed_step {s s' : State τ σ} {a : Action τ σ} (inv : Relayed s) (relays : Relays s a)
    (ok : step s a = some s') : Relayed s' := by
  cases a with
  | lock t =>
    obtain ⟨_,free,rfl⟩ := step_lock ok
    exact ⟨.acquire free t _,flagged_update inv.flagged t (by simp [InWaitLoop]),.inl ⟨t,update_self ..⟩⟩
  | lockWhen t cond =>
    obtain ⟨outside,free,rfl⟩ := step_lockWhen ok
    refine ⟨.acquire free t _,fun _ _ => rfl,.inr (.inr fun waiter => ?_)⟩
    have before := waiter.before (by simp)
    exact (inv.of_free free before).after _ (by simp [outside])
  | await t cond =>
    obtain ⟨running,rfl⟩ := step_await ok
    refine ⟨inv.exclusive.move (by simp [running]) _,fun _ _ => rfl,.inr ?_⟩
    by_cases blocks : TrueWaiter s.place s.guarded ∧ ¬TrueWoken s.place s.guarded
    · exact .inl ⟨t,cond,update_self ..,relays blocks.1 blocks.2⟩
    · refine .inr fun waiter => ?_
      have woken := not_not.mp fun nobody => blocks ⟨waiter.before (by simp),nobody⟩
      exact woken.after _ (by simp [running])
  | eval t =>
    obtain ⟨cond,evaluating,⟨value,rfl⟩ | ⟨value,rfl⟩⟩ := step_eval ok
    · exact ⟨inv.exclusive.move (by simp [evaluating]) _,flagged_update inv.flagged t (by simp [InWaitLoop]),
        .inl ⟨t,update_self ..⟩⟩
    · have flag := inv.flagged t (by simp [evaluating,InWaitLoop])
      refine ⟨inv.exclusive.release t rfl,flagged_update inv.flagged t (fun _ => flag),.inr (.inr fun waiter => ?_)⟩
      have before := waiter.before fun other same => Place.waiting.inj same ▸ value
      have noTrue : ∀ other, Point.evaluating cond = .evaluating other → other s.guarded = false :=
        fun other same => Point.evaluating.inj same ▸ value
      exact (inv.of_holder evaluating (by simp) noTrue before).after _ (by simp [evaluating])
  | spurious t =>
    obtain ⟨cond,waiting,rfl⟩ := step_spurious ok
    have flag := inv.flagged t (by simp [waiting,InWaitLoop])
    have others {u : τ} {point : Point σ} (inside : s.place u = .inside point) :
        update s.place t (.woken cond) u = .inside point := by
      have different : u ≠ t := ne_of_apply_ne s.place (by simp [inside,waiting])
      rw [update_of_ne different,inside]
    refine ⟨inv.exclusive.release t rfl,flagged_update inv.flagged t (fun _ => flag),?_⟩
    obtain ⟨u,running⟩ | ⟨u,other,evaluating,value⟩ | matched := inv.matched
    · exact .inl ⟨u,others running⟩
    · exact .inr (.inl ⟨u,other,others evaluating,value⟩)
    · refine .inr (.inr fun waiter => ?_)
      exact (matched (waiter.before (by simp))).after _ (by simp [waiting])
  | reacquire t =>
    obtain ⟨cond,woken,free,rfl⟩ := step_reacquire ok
    have flag := inv.flagged t (by simp [woken,InWaitLoop])
    refine ⟨.acquire free t _,flagged_update inv.flagged t (fun _ => flag),.inr ?_⟩
    cases value : cond s.guarded with
    | true => exact .inl ⟨t,cond,update_self ..,value⟩
    | false =>
      refine .inr fun waiter => ?_
      have before := waiter.before (by simp)
      refine (inv.of_free free before).after _ ?_
      intro other signalled
      rw [woken] at signalled
      cases signalled
      exact value
  | modify t next =>
    obtain ⟨running,rfl⟩ := step_modify ok
    exact ⟨inv.exclusive,inv.flagged,.inl ⟨t,running⟩⟩
  | signal t choice =>
    obtain ⟨running,place,rfl,⟨flag,sent⟩ | ⟨flag,_,rfl⟩⟩ := step_signal ok
    · exact relayed_signal inv relays running sent
    · -- Nobody has ever entered `WaitLoop`, so there is no waiter to signal.
      refine ⟨inv.exclusive.move (by simp [running]) _,flagged_update inv.flagged t (by simp [InWaitLoop]),
        .inr (.inr fun waiter => ?_)⟩
      obtain ⟨u,cond,blocked,_⟩ := waiter.before (by simp)
      rw [inv.flagged u (by simp [blocked,InWaitLoop])] at flag
      exact absurd flag Bool.noConfusion
  | unlock t =>
    obtain ⟨unlocking,rfl⟩ := step_unlock ok
    refine ⟨inv.exclusive.release t rfl,flagged_update inv.flagged t (by simp [InWaitLoop]),.inr (.inr fun waiter => ?_)⟩
    have before := waiter.before (by simp)
    exact (inv.of_holder unlocking (by simp) (by simp) before).after _ (by simp [unlocking])

theorem relayed_reachable {s : State τ σ} (reached : ((system τ σ).restrict Relays).Reachable s) :
    Relayed s := by
  refine reached.invariant Relayed ?_ ?_
  · intro s start
    refine ⟨fun t u held => ?_,fun t loop => ?_,.inr (.inr fun ⟨t,cond,blocked,_⟩ => ?_)⟩
    · simp [start.1 t] at held
    · simp [start.1 t,InWaitLoop] at loop
    · simp [start.1 t] at blocked
  · intro s a s' inv ok
    obtain ⟨relays,taken⟩ := System.restrict_step.mp ok
    exact relayed_step inv relays taken

omit [Fintype τ] [DecidableEq τ] in
theorem Relayed.not_lost {s : State τ σ} (inv : Relayed s) : ¬Lost s := by
  intro ⟨free,nobody,waiter⟩
  obtain ⟨t,cond,woken,_⟩ := inv.of_free free waiter
  exact nobody t cond woken

/-- In a run where every signal is relayed no wake-up is lost. -/
theorem relayed_run_not_lost {s : State τ σ} (reached : ((system τ σ).restrict Relays).Reachable s) :
    ¬Lost s :=
  (relayed_reachable reached).not_lost

/-- The same runs as in `wrongWake` with thread 1 signalled: it goes on with its
`Condition` true, and thread 0 stays blocked with a false one. -/
def rightWake : List (Action (Fin 3) (Bool × Bool)) :=
  [.lockWhen 0 Prod.fst,.eval 0,.lockWhen 1 Prod.snd,.eval 1,
   .lock 2,.modify 2 (false,true),.signal 2 (some 1),.unlock 2,.reacquire 1,.eval 1,.signal 1 (some 0),.unlock 1]

theorem relayed_rightWake_not_lost : ∃ s : State (Fin 3) (Bool × Bool),
    (signalled (s.place 0) = true ∧ s.guarded = (false,true)) ∧ ¬Lost s := by
  obtain ⟨s,reached,woken⟩ : ∃ s, ((system (Fin 3) (Bool × Bool)).restrict Relays).Reachable s ∧
      (signalled (s.place 0) = true ∧ s.guarded = (false,true)) := by
    refine System.exists_reachable (⟨fun _ => .outside,false,(false,false)⟩ : State (Fin 3) (Bool × Bool))
      ?_ rightWake ?_
    · exact ⟨fun _ => rfl,rfl⟩
    · decide
  exact ⟨s,woken,relayed_run_not_lost reached⟩

/-- Threads 0 and 1 wait for the two halves of the protected pair; thread 2 makes
the second true and its signal wakes thread 0. -/
def wrongWake : List (Action (Fin 3) (Bool × Bool)) :=
  [.lockWhen 0 Prod.fst,.eval 0,.lockWhen 1 Prod.snd,.eval 1,
   .lock 2,.modify 2 (false,true),.signal 2 (some 0),.unlock 2,.reacquire 0,.eval 0]

theorem wake_up_lost : ∃ s, (system (Fin 3) (Bool × Bool)).Reachable s ∧ Lost s := by
  refine System.exists_reachable (⟨fun _ => .outside,false,(false,false)⟩ : State (Fin 3) (Bool × Bool))
    ?_ wrongWake ?_
  · exact ⟨fun _ => rfl,rfl⟩
  · decide

/-! When all waiters share one `Condition` every waiter can use every signal, so
each step relays by itself. -/
section OneCondition
variable {cond : Condition σ} {s s' : State τ σ} {a : Action τ σ}

def WaitsFor (cond : Condition σ) : Place (Point σ) (Condition σ) → Prop
  | .waiting other | .woken other | .inside (.evaluating other) => other = cond
  | _ => True

def Action.Uses (cond : Condition σ) : Action τ σ → Prop
  | .lockWhen _ other | .await _ other => other = cond
  | _ => True

structure OneCondition (cond : Condition σ) (s : State τ σ) : Prop extends Relayed s where
  only : ∀ t, WaitsFor cond (s.place t)

theorem OneCondition.relays (inv : OneCondition cond s) (uses : a.Uses cond) (ok : step s a = some s') :
    Relays s a := by
  cases a with
  | signal t choice =>
    intro ⟨u,other,blocked,value⟩ _
    have known := inv.only u
    rw [blocked] at known
    obtain ⟨_,place,_,⟨_,sent⟩ | ⟨flag,_⟩⟩ := step_signal ok
    · obtain ⟨_,_,nobody⟩ | ⟨v,chosen,rfl,waiting,_⟩ := signal_cases sent
      · exact absurd blocked (nobody u other)
      · have same := inv.only v
        rw [waiting] at same
        refine ⟨v,rfl,?_⟩
        have used : chosen = other := same.trans known.symm
        rw [waiting,ready,used]
        exact value
    · rw [inv.flagged u (by simp [blocked,InWaitLoop])] at flag
      exact absurd flag Bool.noConfusion
  | await t other =>
    intro ⟨u,waited,blocked,value⟩ _
    have known := inv.only u
    rw [blocked] at known
    have used : other = waited := uses.trans known.symm
    rw [used]
    exact value
  | lock | lockWhen | eval | spurious | reacquire | modify | unlock => trivial

theorem OneCondition.step (inv : OneCondition cond s) (uses : a.Uses cond) (ok : step s a = some s') :
    OneCondition cond s' := by
  refine ⟨relayed_step inv.toRelayed (inv.relays uses ok) ok,fun u => ?_⟩
  have before := inv.only u
  obtain same | turn := step_turn ok u
  · rwa [same]
  · generalize s.place u = old at turn before
    generalize s'.place u = new at turn
    cases turn with
    | lockWhen | await => exact uses
    | blocked | spurious | signalled | reacquire => exact before
    | lock | found | signal | unlock => trivial

theorem OneCondition.start (start : (system τ σ).initial s) : OneCondition cond s := by
  refine ⟨relayed_reachable (.initial start),fun t => ?_⟩
  rw [start.1 t]
  trivial

end OneCondition

end WebSearch.Mutex
