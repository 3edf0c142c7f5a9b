import WebSearch.Library.Transition
import WebSearch.Library.Monitor

/-! `base/concurrent_queue.h`: `ConcurrentQueue`. Only `Pop` waits, and only `Push`
sends a `Signal`. `inserted` and `removed` are the items in the order in which they
went in and came out. -/
namespace WebSearch.ConcurrentQueue
open Library Library.Monitor Function

inductive Call (D : Type)
  | push (data : D)
  | pop
  | tryPop
  | empty
  | size
  deriving DecidableEq

/-- What a call gives back; `missed` is the false of `TryPop`. -/
inductive Result (D : Type)
  | void
  | popped (value : D)
  | missed
  | empty (answer : Bool)
  | size (answer : Nat)
  deriving DecidableEq

/-- The holder is at the start of its critical section, where `Pop` has its loop,
before `front()`, before the `Signal`, or at the end. -/
inductive Point
  | testing
  | front
  | signalling
  | unlocking
  deriving DecidableEq

/-- `underflow` is set when `front()` is taken from an empty queue. -/
structure State (τ D : Type) where
  place : τ → Place Point Unit
  queue : List D
  calls : τ → List (Call D)
  results : τ → List (Result D)
  inserted : List D
  removed : List D
  underflow : Bool

inductive Action (τ : Type)
  | lock (t : τ)
  | test (t : τ)
  | take (t : τ)
  | signal (t : τ) (choice : Option τ)
  | unlock (t : τ)
  | spurious (t : τ)
  | resume (t : τ)

variable {τ D : Type} [Fintype τ] [DecidableEq τ]

def State.move (s : State τ D) (t : τ) (p : Place Point Unit) : State τ D := {s with place := update s.place t p}

/-- The thread has its result and goes on to the end of its critical section. -/
def State.answer (s : State τ D) (t : τ) (result : Result D) : State τ D :=
  {s with place := update s.place t (.inside .unlocking),results := update s.results t (s.results t ++ [result])}

def step (s : State τ D) : Action τ → Option (State τ D)
  | .lock t => match s.place t, s.calls t with
    | .outside, _ :: _ => if Free s.place then some (s.move t (.inside .testing)) else none
    | _, _ => none
  | .test t => match s.place t, s.calls t with
    | .inside .testing, .push data :: _ =>
      some {s.move t (.inside .signalling) with queue := s.queue ++ [data],inserted := s.inserted ++ [data]}
    | .inside .testing, .pop :: _ => some (s.move t (if s.queue.isEmpty then .waiting () else .inside .front))
    | .inside .testing, .tryPop :: _ =>
      some (if s.queue.isEmpty then s.answer t .missed else s.move t (.inside .front))
    | .inside .testing, .empty :: _ => some (s.answer t (.empty s.queue.isEmpty))
    | .inside .testing, .size :: _ => some (s.answer t (.size s.queue.length))
    | _, _ => none
  | .take t => match s.place t with
    | .inside .front => match s.queue with
      | [] => some {s.move t (.inside .unlocking) with underflow := true}
      | front :: rest => some {s.answer t (.popped front) with queue := rest,removed := s.removed ++ [front]}
    | _ => none
  | .signal t choice => match s.place t with
    | .inside .signalling => (signal s.place choice).map fun place =>
        State.answer {s with place := place} t .void
    | _ => none
  | .unlock t => match s.place t with
    | .inside .unlocking => some {s.move t .outside with calls := update s.calls t (s.calls t).tail}
    | _ => none
  | .spurious t => match s.place t with
    | .waiting _ => some (s.move t (.woken ()))
    | _ => none
  | .resume t => match s.place t with
    | .woken _ => if Free s.place then some (s.move t (.inside .testing)) else none
    | _ => none

def system (τ D : Type) [Fintype τ] [DecidableEq τ] : System (State τ D) (Action τ) where
  initial s := (∀ t, s.place t = .outside ∧ s.results t = []) ∧ s.queue = [] ∧ s.inserted = [] ∧ s.removed = [] ∧
    s.underflow = false
  step := step

/-- The queue has an item, the mutex is free and no signalled consumer is about to
run, yet a consumer is blocked in the wait of `Pop`. -/
def Lost (s : State τ D) : Prop :=
  s.queue ≠ [] ∧ Free s.place ∧ (∀ t, s.place t ≠ .woken ()) ∧ ∃ t, s.place t = .waiting ()

section Steps
variable {s s' : State τ D} {t : τ}

theorem step_lock (ok : step s (.lock t) = some s') :
    s.place t = .outside ∧ Free s.place ∧ s' = s.move t (.inside .testing) := by
  simp only [step] at ok
  split at ok <;> simp_all

theorem step_take (ok : step s (.take t) = some s') : s.place t = .inside .front ∧
    ((s.queue = [] ∧ s' = {s.move t (.inside .unlocking) with underflow := true}) ∨
      ∃ front rest, s.queue = front :: rest ∧
        s' = {s.answer t (.popped front) with queue := rest,removed := s.removed ++ [front]}) := by
  simp only [step] at ok
  split at ok
  · rename_i at_front
    refine ⟨at_front,?_⟩
    cases queue : s.queue <;> simp_all
  · contradiction

theorem step_signal {choice : Option τ} (ok : step s (.signal t choice) = some s') :
    s.place t = .inside .signalling ∧ ∃ place, signal s.place choice = some place ∧
      s' = State.answer {s with place := place} t .void := by
  simp only [step] at ok
  split at ok
  · rename_i signalling
    obtain ⟨place,sent,same⟩ := Option.map_eq_some_iff.mp ok
    exact ⟨signalling,place,sent,same.symm⟩
  · contradiction

theorem step_unlock (ok : step s (.unlock t) = some s') : s.place t = .inside .unlocking ∧
    s' = {s.move t .outside with calls := update s.calls t (s.calls t).tail} := by
  simp only [step] at ok
  split at ok <;> simp_all

theorem step_spurious (ok : step s (.spurious t) = some s') : s.place t = .waiting () ∧ s' = s.move t (.woken ()) := by
  simp only [step] at ok
  split at ok <;> simp_all

theorem step_resume (ok : step s (.resume t) = some s') :
    s.place t = .woken () ∧ Free s.place ∧ s' = s.move t (.inside .testing) := by
  simp only [step] at ok
  split at ok <;> simp_all

end Steps

/-- A thread that stands for one item being taken: signalled, a `Pop` that has the
mutex, or a `Push` with its signal still to send. -/
def credits : Option (Call D) → Place Point Unit → Bool
  | _, .woken _ | _, .inside .signalling => true
  | some .pop, .inside .testing | some .pop, .inside .front => true
  | _, _ => false

section Credits
variable (head : Option (Call D))

@[simp] theorem credits_outside : credits head .outside = false := by unfold credits; split <;> simp_all
@[simp] theorem credits_waiting (w : Unit) : credits head (.waiting w) = false := by unfold credits; split <;> simp_all
@[simp] theorem credits_woken (w : Unit) : credits head (.woken w) = true := by unfold credits; split <;> simp_all
@[simp] theorem credits_signalling : credits head (.inside .signalling) = true := by unfold credits; split <;> simp_all
@[simp] theorem credits_unlocking : credits head (.inside .unlocking) = false := by unfold credits; split <;> simp_all

end Credits

def State.head (s : State τ D) (t : τ) : Option (Call D) := (s.calls t).head?

def State.credit (s : State τ D) : Nat :=
  (Finset.univ.filter fun t => credits (s.head t) (s.place t) = true).card

structure Inv (s : State τ D) : Prop where
  exclusive : Exclusive s.place
  history : s.inserted = s.removed ++ s.queue
  front : ∀ t, s.place t = .inside .front → s.queue ≠ []
  no_underflow : s.underflow = false
  popping : ∀ t, s.place t = .waiting () ∨ s.place t = .woken () → s.head t = some .pop
  enough : (∃ t, s.place t = .waiting ()) → s.queue.length ≤ s.credit

/-- A thread moves and nothing that concerns the others changes, unless a waiting
thread sees an item come or a credit go. -/
theorem Inv.change {s s' : State τ D} {t : τ} {p : Place Point Unit} (inv : Inv s) (moved : s'.place = update s.place t p)
    (calls : s'.calls = s.calls) (exclusive : Exclusive s'.place) (history : s'.inserted = s'.removed ++ s'.queue)
    (no_underflow : s'.underflow = false) (front : ∀ u, s'.place u = .inside .front → s'.queue ≠ [])
    (popping : p = .waiting () ∨ p = .woken () → s.head t = some .pop)
    (balance : s'.queue = [] ∨ p ≠ .waiting () ∧ s'.queue.length + (if credits (s.head t) (s.place t) = true then 1 else 0) ≤
      s.queue.length + (if credits (s.head t) p = true then 1 else 0)) : Inv s' := by
  have head (u : τ) : s'.head u = s.head u := by rw [State.head,State.head,calls]
  refine ⟨exclusive,history,front,no_underflow,?_,?_⟩
  · intro u pending
    rw [head]
    rw [moved] at pending
    by_cases same : u = t
    · rw [same,update_self] at pending
      rw [same]
      exact popping pending
    · rw [update_of_ne same] at pending
      exact inv.popping u pending
  · intro ⟨u,waiting⟩
    rcases balance with empty | ⟨moving,balance⟩
    · rw [empty]
      exact Nat.zero_le _
    · have different : u ≠ t := by
        intro same
        rw [moved,same,update_self] at waiting
        exact moving waiting
      rw [moved,update_of_ne different] at waiting
      have before := inv.enough ⟨u,waiting⟩
      have change := card_update (fun u => credits (s.head u)) s.place t p
      have after : s'.credit = (Finset.univ.filter fun u => credits (s.head u) (update s.place t p u) = true).card := by
        rw [State.credit]
        simp only [head,moved]
      rw [State.credit] at before
      omega

omit [Fintype τ] in
theorem front_update {place : τ → Place Point Unit} {queue : List D} (front : ∀ u, place u = .inside .front → queue ≠ [])
    {t : τ} {p : Place Point Unit} (new : p = .inside .front → queue ≠ []) :
    ∀ u, update place t p u = .inside .front → queue ≠ [] := by
  intro u at_front
  by_cases same : u = t
  · rw [same,update_self] at at_front
    exact new at_front
  · rw [update_of_ne same] at at_front
    exact front u at_front

omit [Fintype τ] in
/-- While a thread is inside no other one is before `front()`. -/
theorem only_front {place : τ → Place Point Unit} (exclusive : Exclusive place) {t u : τ} {point : Point} {p : Place Point Unit}
    (inside : place t = .inside point) (moving : p ≠ .inside .front) : update place t p u ≠ .inside .front := by
  intro at_front
  by_cases same : u = t
  · rw [same,update_self] at at_front
    exact moving at_front
  · rw [update_of_ne same] at at_front
    exact same (exclusive u t (by simp [at_front]) (by simp [inside]))

theorem inv_test {s s' : State τ D} {t : τ} (inv : Inv s) (ok : step s (.test t) = some s') : Inv s' := by
  simp only [step] at ok
  split at ok
  · rename_i data rest testing current
    have head : s.head t = some (.push data) := by rw [State.head,current,List.head?_cons]
    cases ok
    refine inv.change rfl rfl (inv.exclusive.move (by simp [testing]) _) ?_ inv.no_underflow ?_ (by simp) (.inr ⟨by simp,?_⟩)
    · simp [State.move,inv.history]
    · intro u _
      exact List.concat_ne_nil data s.queue
    · simp [testing,head,credits]
  · rename_i rest testing current
    have head : s.head t = some .pop := by rw [State.head,current,List.head?_cons]
    cases ok
    cases queue : s.queue with
    | nil =>
      exact inv.change rfl rfl (inv.exclusive.release t rfl) inv.history inv.no_underflow
        (front_update inv.front (by simp)) (fun _ => head) (.inl queue)
    | cons item items =>
      refine inv.change rfl rfl (inv.exclusive.move (by simp [testing]) _) inv.history inv.no_underflow
        (front_update inv.front fun _ => by simp [queue]) (by simp) (.inr ⟨by simp,?_⟩)
      simp [testing,head,credits,State.move]
  · rename_i rest testing current
    have head : s.head t = some .tryPop := by rw [State.head,current,List.head?_cons]
    cases ok
    cases queue : s.queue with
    | nil =>
      exact inv.change rfl rfl (inv.exclusive.move (by simp [testing]) _) inv.history inv.no_underflow
        (front_update inv.front (by simp)) (by simp) (.inl queue)
    | cons item items =>
      refine inv.change rfl rfl (inv.exclusive.move (by simp [testing]) _) inv.history inv.no_underflow
        (front_update inv.front fun _ => by simp [queue]) (by simp) (.inr ⟨by simp,?_⟩)
      simp [testing,head,credits,State.move]
  · rename_i rest testing current
    have head : s.head t = some .empty := by rw [State.head,current,List.head?_cons]
    cases ok
    refine inv.change rfl rfl (inv.exclusive.move (by simp [testing]) _) inv.history inv.no_underflow
      (front_update inv.front (by simp)) (by simp) (.inr ⟨by simp,?_⟩)
    simp [testing,head,credits,State.answer]
  · rename_i rest testing current
    have head : s.head t = some .size := by rw [State.head,current,List.head?_cons]
    cases ok
    refine inv.change rfl rfl (inv.exclusive.move (by simp [testing]) _) inv.history inv.no_underflow
      (front_update inv.front (by simp)) (by simp) (.inr ⟨by simp,?_⟩)
    simp [testing,head,credits,State.answer]
  · contradiction

/-- A signal hands the credit of the `Push` to the consumer that it wakes. -/
theorem inv_signal {s s' : State τ D} {t : τ} {choice : Option τ} (inv : Inv s)
    (ok : step s (.signal t choice) = some s') : Inv s' := by
  obtain ⟨signalling,place,sent,rfl⟩ := step_signal ok
  have exclusive := inv.exclusive.signal sent
  rcases signal_cases sent with ⟨_,rfl,nobody⟩ | ⟨u,_,rfl,blocked,rfl⟩
  · refine ⟨exclusive.move (by simp [signalling]) _,inv.history,front_update inv.front (by simp),inv.no_underflow,?_,?_⟩
    · intro v pending
      by_cases same : v = t
      · simp [State.answer,same] at pending
      · exact inv.popping v (by simpa [State.answer,update_of_ne same] using pending)
    · intro ⟨v,waiting⟩
      by_cases same : v = t
      · simp [State.answer,same] at waiting
      · exact absurd (by simpa [State.answer,update_of_ne same] using waiting) (nobody v ())
  · have different : t ≠ u := ne_of_apply_ne s.place (by simp [signalling,blocked])
    have waker := inv.popping u (.inl blocked)
    refine ⟨exclusive.move (by simp [update_of_ne different,signalling]) _,inv.history,
      front_update (front_update inv.front (by simp)) (by simp),inv.no_underflow,?_,?_⟩
    · intro v pending
      by_cases same : v = t
      · simp [State.answer,same] at pending
      · by_cases woken : v = u
        · rw [woken]
          exact waker
        · exact inv.popping v (by simpa [State.answer,update_of_ne same,update_of_ne woken] using pending)
    · intro ⟨v,_⟩
      have before := inv.enough ⟨u,blocked⟩
      have wake := card_update (fun u => credits (s.head u)) s.place u (.woken ())
      have sent := card_update (fun u => credits (s.head u)) (update s.place u (.woken ())) t (.inside .unlocking)
      simp only [blocked,credits_waiting,credits_woken] at wake
      simp only [update_of_ne different,signalling,credits_signalling,credits_unlocking] at sent
      change s.queue.length ≤ (Finset.univ.filter fun v =>
        credits (s.head v) (update (update s.place u (.woken ())) t (.inside .unlocking) v) = true).card
      rw [State.credit] at before
      simp only [Bool.false_eq_true,if_true,if_false] at wake sent
      omega

theorem inv_unlock {s : State τ D} {t : τ} (inv : Inv s) (unlocking : s.place t = .inside .unlocking) :
    Inv {s.move t .outside with calls := update s.calls t (s.calls t).tail} := by
  have others {u : τ} (different : u ≠ t) :
      State.head {s.move t .outside with calls := update s.calls t (s.calls t).tail} u = s.head u := by
    simp [State.head,update_of_ne different]
  refine ⟨inv.exclusive.release t rfl,inv.history,front_update inv.front (by simp),inv.no_underflow,?_,?_⟩
  · intro u pending
    have different : u ≠ t := by
      intro same
      simp [State.move,same] at pending
    rw [others different]
    exact inv.popping u (by simpa [State.move,update_of_ne different] using pending)
  · intro ⟨u,waiting⟩
    have different : u ≠ t := by
      intro same
      simp [State.move,same] at waiting
    refine le_trans (inv.enough ⟨u,by simpa [State.move,update_of_ne different] using waiting⟩) ?_
    apply Finset.card_le_card
    intro v member
    simp only [Finset.mem_filter,Finset.mem_univ,true_and] at member ⊢
    have other : v ≠ t := by
      intro same
      simp [same,unlocking,credits] at member
    rw [others other]
    simpa [State.move,update_of_ne other] using member

theorem inv_step {s s' : State τ D} {a : Action τ} (inv : Inv s) (ok : step s a = some s') : Inv s' := by
  cases a with
  | lock t =>
    obtain ⟨outside,free,rfl⟩ := step_lock ok
    refine inv.change rfl rfl (.acquire free t _) inv.history inv.no_underflow
      (front_update inv.front (by simp)) (by simp) (.inr ⟨by simp,?_⟩)
    simp [outside,credits,State.move]
  | test t => exact inv_test inv ok
  | take t =>
    obtain ⟨at_front,⟨empty,_⟩ | ⟨item,rest,queue,rfl⟩⟩ := step_take ok
    · exact absurd empty (inv.front t at_front)
    · refine inv.change rfl rfl (inv.exclusive.move (by simp [at_front]) _) ?_ inv.no_underflow
        (fun u taking => absurd taking (only_front inv.exclusive at_front (by simp))) (by simp) (.inr ⟨by simp,?_⟩)
      · simp [State.answer,inv.history,queue]
      · have one : (if credits (s.head t) (s.place t) = true then 1 else 0) ≤ 1 := by split <;> omega
        rw [queue,List.length_cons]
        exact le_trans (Nat.add_le_add_left one _) (Nat.le_add_right _ _)
  | signal t choice => exact inv_signal inv ok
  | unlock t =>
    obtain ⟨unlocking,rfl⟩ := step_unlock ok
    exact inv_unlock inv unlocking
  | spurious t =>
    obtain ⟨waiting,rfl⟩ := step_spurious ok
    refine inv.change rfl rfl (inv.exclusive.release t rfl) inv.history inv.no_underflow
      (front_update inv.front (by simp)) (fun _ => inv.popping t (.inl waiting)) (.inr ⟨by simp,?_⟩)
    simp [waiting,credits,State.move]
  | resume t =>
    obtain ⟨woken,free,rfl⟩ := step_resume ok
    have head := inv.popping t (.inr woken)
    refine inv.change rfl rfl (.acquire free t _) inv.history inv.no_underflow
      (front_update inv.front (by simp)) (by simp) (.inr ⟨by simp,?_⟩)
    simp [woken,head,credits,State.move]

theorem inv_reachable {s : State τ D} (reached : (system τ D).Reachable s) : Inv s := by
  refine reached.invariant Inv ?_ fun s a s' inv ok => inv_step inv ok
  intro s ⟨outside,queue,inserted,removed,no_underflow⟩
  refine ⟨fun t u held => ?_,by rw [inserted,removed,queue]; rfl,fun t at_front => ?_,no_underflow,fun t pending => ?_,
    fun ⟨t,waiting⟩ => ?_⟩
  · simp [(outside t).1] at held
  · simp [(outside t).1] at at_front
  · simp [(outside t).1] at pending
  · simp [(outside t).1] at waiting

omit [DecidableEq τ] in
/-- With the mutex free and nobody signalled there is no credit, so whoever waits
waits for an empty queue. -/
theorem Inv.not_lost {s : State τ D} (inv : Inv s) : ¬Lost s := by
  intro ⟨notEmpty,free,nobody,waiting⟩
  have noCredit : s.credit = 0 := by
    apply Finset.card_eq_zero.mpr
    apply Finset.filter_eq_empty_iff.mpr
    intro t _
    have idle := free t
    cases at_place : s.place t with
    | inside point => simp [at_place] at idle
    | woken => exact absurd at_place (nobody t)
    | outside | waiting => simp [credits]
  have enough := inv.enough waiting
  rw [noCredit] at enough
  exact notEmpty (List.eq_nil_of_length_eq_zero (Nat.le_zero.mp enough))

end WebSearch.ConcurrentQueue
