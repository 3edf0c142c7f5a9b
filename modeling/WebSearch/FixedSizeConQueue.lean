import WebSearch.Library.Transition
import WebSearch.Library.Monitor
import Mathlib.Data.Fin.VecNotation

/-! `base/concurrent_queue.h`: `FixedSizeConQueue`. Producers and consumers wait
on one condition variable under one mutex, and every successful `Push` or `Pop`
sends one `Signal`, which wakes an arbitrary blocked thread of either kind. -/
namespace WebSearch.FixedSizeConQueue
open Library Library.Monitor Function

inductive Call (D : Type)
  | push (data : D)
  | pop

inductive Kind
  | push
  | pop
  deriving DecidableEq

def Kind.other : Kind → Kind
  | push => pop
  | pop => push

def Call.kind {D : Type} : Call D → Kind
  | push _ => .push
  | pop => .pop

/-- The holder is at the test of its `while` loop, behind the queue operation, or
behind the `Signal`. -/
inductive Point
  | testing
  | signalling
  | unlocking
  deriving DecidableEq

/-- `calls t` are the calls thread `t` has not returned from, its current one
first; `received t` are the values its `Pop` calls gave it. -/
structure State (τ D : Type) where
  place : τ → Place Point Unit
  queue : List D
  calls : τ → List (Call D)
  received : τ → List D

/-- `spurious` is a return of `pthread_cond_wait` that no signal caused. -/
inductive Action (τ : Type)
  | lock (t : τ)
  | test (t : τ)
  | signal (t : τ) (choice : Option τ)
  | unlock (t : τ)
  | spurious (t : τ)
  | resume (t : τ)

variable {τ D : Type} [Fintype τ] [DecidableEq τ]

def step (maxSize : Nat) (s : State τ D) : Action τ → Option (State τ D)
  | .lock t => match s.place t, s.calls t with
    | .outside, _ :: _ =>
      if Free s.place then some {s with place := update s.place t (.inside .testing)} else none
    | _, _ => none
  | .test t => match s.place t, s.calls t with
    | .inside .testing, .push data :: _ =>
      if s.queue.length = maxSize then some {s with place := update s.place t (.waiting ())}
      else some {s with place := update s.place t (.inside .signalling),queue := s.queue ++ [data]}
    | .inside .testing, .pop :: _ => match s.queue with
      | [] => some {s with place := update s.place t (.waiting ())}
      | front :: rest => some {s with
          place := update s.place t (.inside .signalling)
          queue := rest
          received := update s.received t (s.received t ++ [front])}
    | _, _ => none
  | .signal t choice => match s.place t with
    | .inside .signalling =>
      (signal s.place choice).map fun place => {s with place := update place t (.inside .unlocking)}
    | _ => none
  | .unlock t => match s.place t with
    | .inside .unlocking =>
      some {s with place := update s.place t .outside,calls := update s.calls t (s.calls t).tail}
    | _ => none
  | .spurious t => match s.place t with
    | .waiting _ => some {s with place := update s.place t (.woken ())}
    | _ => none
  | .resume t => match s.place t with
    | .woken _ =>
      if Free s.place then some {s with place := update s.place t (.inside .testing)} else none
    | _ => none

def system (τ D : Type) [Fintype τ] [DecidableEq τ] (maxSize : Nat) : System (State τ D) (Action τ) where
  initial s := (∀ t, s.place t = .outside) ∧ s.queue = [] ∧ ∀ t, s.received t = []
  step := step maxSize

def State.kind (s : State τ D) (t : τ) : Option Kind := (s.calls t).head?.map Call.kind

def Blocked (s : State τ D) (k : Kind) (t : τ) : Prop := s.place t = .waiting () ∧ s.kind t = some k

instance (s : State τ D) (k : Kind) (t : τ) : Decidable (Blocked s k t) :=
  inferInstanceAs (Decidable (_ ∧ _))

/-- Every unfinished thread is blocked in `Wait` and no signal is pending, while
the queue would let one of them go on. -/
def Stuck (maxSize : Nat) (s : State τ D) : Prop :=
  (∀ t, s.calls t = [] ∨ s.place t = .waiting ()) ∧ (∀ t, s.place t ≠ .woken ()) ∧
    ((s.queue.length ≠ 0 ∧ ∃ t, Blocked s .pop t) ∨ (s.queue.length ≠ maxSize ∧ ∃ t, Blocked s .push t))

instance (maxSize : Nat) (s : State τ D) : Decidable (Stuck maxSize s) :=
  inferInstanceAs (Decidable (_ ∧ _ ∧ _))

/-- How many calls of a kind can go through before one has to wait. -/
def room (maxSize : Nat) (s : State τ D) : Kind → Nat
  | .push => maxSize - s.queue.length
  | .pop => s.queue.length

/-- The signalled threads of a kind that have not got the mutex back. -/
def onTheWay (s : State τ D) (k : Kind) : Nat :=
  (Finset.univ.filter fun t => s.place t = .woken () ∧ s.kind t = some k).card

/-- A signal wakes a blocked thread of the other kind than its sender's, unless
there is none or enough of them are on the way already. -/
def Relays (maxSize : Nat) (s : State τ D) : Action τ → Prop
  | .signal t choice => ∀ k, s.kind t = some k.other → (∃ u, Blocked s k u) →
    onTheWay s k < room maxSize s k → ∃ u, choice = some u ∧ Blocked s k u
  | _ => True

instance : Fintype Kind := ⟨{.push,.pop},fun k => by cases k <;> decide⟩

instance (maxSize : Nat) (s : State τ D) (a : Action τ) : Decidable (Relays maxSize s a) :=
  match a with
  | .signal t choice => inferInstanceAs (Decidable (∀ k, s.kind t = some k.other → (∃ u, Blocked s k u) →
      onTheWay s k < room maxSize s k → ∃ u, choice = some u ∧ Blocked s k u))
  | .lock _ | .test _ | .unlock _ | .spurious _ | .resume _ => .isTrue trivial

/-- Threads 0 and 1 pop, thread 2 pushes twice, and the queue holds one item. -/
def wrongWake : List (Action (Fin 3)) :=
  [.lock 0,.test 0,.lock 1,.test 1,.lock 2,.test 2,.signal 2 (some 0),.unlock 2,.lock 2,.test 2,
   .resume 0,.test 0,.signal 0 (some 1),.unlock 0,.resume 1,.test 1]

theorem deadlock_reachable : ∃ s, (system (Fin 3) Nat 1).Reachable s ∧ Stuck 1 s := by
  refine System.exists_reachable
    (⟨fun _ => .outside,[],![[.pop],[.pop],[.push 1,.push 2]],fun _ => []⟩ : State (Fin 3) Nat) ?_ wrongWake ?_
  · exact ⟨fun _ => rfl,rfl,fun _ => rfl⟩
  · decide

section Steps
variable {maxSize : Nat} {s s' : State τ D} {t : τ}

theorem step_lock (ok : step maxSize s (.lock t) = some s') :
    s.place t = .outside ∧ s.calls t ≠ [] ∧ Free s.place ∧
      s' = {s with place := update s.place t (.inside .testing)} := by
  simp only [step] at ok
  split at ok
  · rename_i call rest outside current
    split at ok
    · rename_i free
      exact ⟨outside,by simp [current],free,(Option.some.inj ok).symm⟩
    · contradiction
  · contradiction

/-- A test blocks its thread exactly when there is no room for its call; else it
takes one place of its own kind and gives one to the other kind. -/
theorem step_test (bounded : s.queue.length ≤ maxSize) (ok : step maxSize s (.test t) = some s') :
    s.place t = .inside .testing ∧ s'.calls = s.calls ∧ s'.queue.length ≤ maxSize ∧
      ∃ k, s.kind t = some k ∧
        ((room maxSize s k = 0 ∧ s'.place = update s.place t (.waiting ()) ∧ s'.queue = s.queue) ∨
         (s'.place = update s.place t (.inside .signalling) ∧ room maxSize s k = room maxSize s' k + 1 ∧
           room maxSize s' k.other = room maxSize s k.other + 1)) := by
  simp only [step] at ok
  split at ok
  · rename_i data rest testing current
    split at ok
    · rename_i full
      cases ok
      exact ⟨testing,rfl,bounded,.push,by simp [State.kind,current,Call.kind],.inl ⟨by simp [room,full],rfl,rfl⟩⟩
    · rename_i notFull
      cases ok
      refine ⟨testing,rfl,?_,.push,by simp [State.kind,current,Call.kind],.inr ⟨rfl,?_,?_⟩⟩
      · simp only [List.length_append,List.length_singleton]
        omega
      · simp only [room,List.length_append,List.length_singleton]
        omega
      · simp [room,Kind.other]
  · rename_i rest testing current
    split at ok
    · rename_i empty
      cases ok
      exact ⟨testing,rfl,bounded,.pop,by simp [State.kind,current,Call.kind],.inl ⟨by simp [room,empty],rfl,rfl⟩⟩
    · rename_i front others queue
      cases ok
      rw [queue,List.length_cons] at bounded
      refine ⟨testing,rfl,by simp only; omega,.pop,by simp [State.kind,current,Call.kind],.inr ⟨rfl,?_,?_⟩⟩
      · simp [room,queue]
      · simp only [room,Kind.other,queue,List.length_cons]
        omega
  · contradiction

theorem step_signal {choice : Option τ} (ok : step maxSize s (.signal t choice) = some s') :
    s.place t = .inside .signalling ∧ ∃ place, signal s.place choice = some place ∧
      s' = {s with place := update place t (.inside .unlocking)} := by
  simp only [step] at ok
  split at ok
  · rename_i signalling
    obtain ⟨place,sent,same⟩ := Option.map_eq_some_iff.mp ok
    exact ⟨signalling,place,sent,same.symm⟩
  · contradiction

theorem step_unlock (ok : step maxSize s (.unlock t) = some s') :
    s.place t = .inside .unlocking ∧
      s' = {s with place := update s.place t .outside,calls := update s.calls t (s.calls t).tail} := by
  simp only [step] at ok
  split at ok <;> simp_all

theorem step_spurious (ok : step maxSize s (.spurious t) = some s') :
    s.place t = .waiting () ∧ s' = {s with place := update s.place t (.woken ())} := by
  simp only [step] at ok
  split at ok <;> simp_all

theorem step_resume (ok : step maxSize s (.resume t) = some s') :
    s.place t = .woken () ∧ Free s.place ∧ s' = {s with place := update s.place t (.inside .testing)} := by
  simp only [step] at ok
  split at ok
  · rename_i woken
    split at ok
    · rename_i free
      exact ⟨woken,free,(Option.some.inj ok).symm⟩
    · contradiction
  · contradiction

end Steps

/-- A thread that stands for one call of kind `k` going through: of that kind and
signalled or at its test, or of the other kind with its signal still to send. -/
def credits (k : Kind) (kind : Option Kind) : Place Point Unit → Bool
  | .woken _ | .inside .testing => kind == some k
  | .inside .signalling => kind == some k.other
  | _ => false

def credit (place : τ → Place Point Unit) (kind : τ → Option Kind) (k : Kind) : Nat :=
  (Finset.univ.filter fun t => credits k (kind t) (place t) = true).card

theorem credit_update (place : τ → Place Point Unit) (kind : τ → Option Kind) (k : Kind) (t : τ)
    (p : Place Point Unit) : credit (update place t p) kind k + (if credits k (kind t) (place t) = true then 1 else 0) =
      credit place kind k + (if credits k (kind t) p = true then 1 else 0) :=
  card_update (fun u => credits k (kind u)) place t p

/-- What every run that relays its signals keeps: while a thread of some kind is
blocked, no more calls of that kind could go through than are on their way. -/
structure Relayed (maxSize : Nat) (s : State τ D) : Prop where
  exclusive : Exclusive s.place
  bounded : s.queue.length ≤ maxSize
  busy : ∀ t, s.place t ≠ .outside → s.calls t ≠ []
  enough : ∀ k, (∃ t, Blocked s k t) → room maxSize s k ≤ credit s.place s.kind k

omit [Fintype τ] in
theorem Blocked.before {s s' : State τ D} {t u : τ} {k : Kind} {p : Place Point Unit}
    (blocked : Blocked s' k u) (calls : s'.calls = s.calls) (moved : s'.place = update s.place t p)
    (quiet : p ≠ .waiting () ∨ s.kind t ≠ some k) : Blocked s k u := by
  obtain ⟨waiting,kind⟩ := blocked
  have sameKind : s'.kind u = s.kind u := by unfold State.kind; rw [calls]
  rw [sameKind] at kind
  by_cases same : u = t
  · subst same
    rw [moved,update_self] at waiting
    exact absurd kind (quiet.resolve_left (fun other => other waiting))
  · rw [moved,update_of_ne same] at waiting
    exact ⟨waiting,kind⟩

theorem Kind.ne_other (k : Kind) : k ≠ k.other := by cases k <;> decide

theorem Kind.eq_other {j k : Kind} (different : j ≠ k) : k = j.other := by
  cases j <;> cases k <;> simp_all [Kind.other]

theorem Kind.other_other (k : Kind) : k.other.other = k := by cases k <;> rfl

omit [Fintype τ] in
theorem busy_update {place : τ → Place Point Unit} {calls : τ → List (Call D)} {t : τ}
    (busy : ∀ u, place u ≠ .outside → calls u ≠ []) (current : calls t ≠ []) (p : Place Point Unit) :
    ∀ u, update place t p u ≠ .outside → calls u ≠ [] := by
  intro u inside
  by_cases same : u = t
  · rw [same]
    exact current
  · exact busy u (by rwa [update_of_ne same] at inside)

theorem relayed_test {maxSize : Nat} {s s' : State τ D} {t : τ} (inv : Relayed maxSize s)
    (ok : step maxSize s (.test t) = some s') : Relayed maxSize s' := by
  obtain ⟨testing,calls,bounded,j,kind,move⟩ := step_test inv.bounded ok
  have held : holds (s.place t) = true := by simp [testing]
  have sameKind : s'.kind = s.kind := by funext u; unfold State.kind; rw [calls]
  have busy {p : Place Point Unit} (moved : s'.place = update s.place t p) :
      ∀ u, s'.place u ≠ .outside → s'.calls u ≠ [] := by
    rw [moved,calls]
    exact busy_update inv.busy (inv.busy t (by simp [testing])) p
  obtain ⟨full,moved,queue⟩ | ⟨moved,own,other⟩ := move
  · refine ⟨moved ▸ inv.exclusive.release t rfl,bounded,busy moved,?_⟩
    intro k ⟨u,blocked⟩
    by_cases same : k = j
    · subst same
      have none : room maxSize s' k = 0 := by cases k <;> simpa [room,queue] using full
      omega
    · have before := inv.enough k ⟨u,blocked.before calls moved (.inr (by simp [kind,Ne.symm same]))⟩
      have change := credit_update s.place s.kind k t (.waiting ())
      have sameRoom : room maxSize s' k = room maxSize s k := by cases k <;> simp [room,queue]
      rw [← moved] at change
      simp only [testing,credits,kind,beq_iff_eq,Option.some.injEq,Ne.symm same,if_false,
        Bool.false_eq_true] at change
      rw [sameRoom,sameKind]
      omega
  · refine ⟨moved ▸ inv.exclusive.move held _,bounded,busy moved,?_⟩
    intro k ⟨u,blocked⟩
    have before := inv.enough k ⟨u,blocked.before calls moved (.inl (by simp))⟩
    have change := credit_update s.place s.kind k t (.inside .signalling)
    rw [← moved] at change
    rw [sameKind]
    by_cases same : k = j
    · subst same
      simp only [testing,credits,kind,beq_iff_eq,Option.some.injEq,if_true,k.ne_other,if_false] at change
      omega
    · obtain rfl := Kind.eq_other (Ne.symm same)
      simp only [testing,credits,kind,beq_iff_eq,Option.some.injEq,j.ne_other,if_false,
        Kind.other_other,if_true] at change
      omega

theorem onTheWay_le_credit {s : State τ D} {t u : τ} (k : Kind) (signalling : s.place t = .inside .signalling)
    (blocked : s.place u = .waiting ()) (p q : Place Point Unit) :
    onTheWay s k ≤ credit (update (update s.place u p) t q) s.kind k := by
  apply Finset.card_le_card
  intro v member
  simp only [Finset.mem_filter,Finset.mem_univ,true_and] at member ⊢
  obtain ⟨woken,kind⟩ := member
  have notT : v ≠ t := ne_of_apply_ne s.place (by simp [woken,signalling])
  have notU : v ≠ u := ne_of_apply_ne s.place (by simp [woken,blocked])
  rw [update_of_ne notT,update_of_ne notU,woken]
  simp [credits,kind]

/-- A signalled thread takes over the credit of its signaller, unless enough
threads of the other kind are on their way already. -/
theorem relayed_wake {maxSize : Nat} {s : State τ D} {t u : τ} (inv : Relayed maxSize s)
    (relays : Relays maxSize s (.signal t (some u))) (signalling : s.place t = .inside .signalling)
    (blocked : s.place u = .waiting ()) (k : Kind) (waiters : ∃ v, Blocked s k v) :
    room maxSize s k ≤ credit (update (update s.place u (.woken ())) t (.inside .unlocking)) s.kind k := by
  have different : t ≠ u := ne_of_apply_ne s.place (by simp [signalling,blocked])
  have before := inv.enough k waiters
  have wake := credit_update s.place s.kind k u (.woken ())
  have sent := credit_update (update s.place u (.woken ())) s.kind k t (.inside .unlocking)
  simp only [blocked,credits,Bool.false_eq_true,if_false,beq_iff_eq] at wake
  simp only [update_of_ne different,signalling,credits,Bool.false_eq_true,if_false,beq_iff_eq] at sent
  by_cases paid : s.kind t = some k.other ∧ s.kind u ≠ some k
  · obtain ⟨sender,other⟩ := paid
    refine le_trans ?_ (onTheWay_le_credit k signalling blocked _ _)
    by_contra few
    obtain ⟨v,same,_,kind⟩ := relays k sender waiters (not_le.mp few)
    cases same
    exact other kind
  · by_cases sender : s.kind t = some k.other
    · have kind : s.kind u = some k := by_contra fun other => paid ⟨sender,other⟩
      rw [if_pos kind] at wake
      rw [if_pos sender] at sent
      omega
    · rw [if_neg sender] at sent
      omega

theorem relayed_signal {maxSize : Nat} {s s' : State τ D} {t : τ} {choice : Option τ} (inv : Relayed maxSize s)
    (relays : Relays maxSize s (.signal t choice)) (ok : step maxSize s (.signal t choice) = some s') :
    Relayed maxSize s' := by
  obtain ⟨signalling,place,sent,rfl⟩ := step_signal ok
  have exclusive := inv.exclusive.signal sent
  have current := inv.busy t (by simp [signalling])
  obtain ⟨_,rfl,nobody⟩ | ⟨u,_,rfl,blocked,rfl⟩ := signal_cases sent
  · refine ⟨exclusive.move (by simp [signalling]) _,inv.bounded,busy_update inv.busy current _,?_⟩
    intro k ⟨v,waiting⟩
    have old : Blocked s k v := waiting.before (s := s) (t := t) rfl rfl (.inl (by simp))
    exact absurd old.1 (nobody v ())
  · have different : t ≠ u := ne_of_apply_ne s.place (by simp [signalling,blocked])
    refine ⟨exclusive.move (by simp [update_of_ne different,signalling]) _,inv.bounded,?_,?_⟩
    · exact busy_update (busy_update inv.busy (inv.busy u (by simp [blocked])) _) current _
    · intro k ⟨v,waiting⟩
      have middle : Blocked {s with place := update s.place u (.woken ())} k v :=
        waiting.before (t := t) rfl rfl (.inl (by simp))
      have old : Blocked s k v := middle.before (t := u) rfl rfl (.inl (by simp))
      exact relayed_wake inv relays signalling blocked k ⟨v,old⟩

/-- A thread that moves without touching the queue and without giving up credit. -/
theorem Relayed.advance {maxSize : Nat} {s : State τ D} {t : τ} {p : Place Point Unit} (inv : Relayed maxSize s)
    (exclusive : Exclusive (update s.place t p)) (current : s.calls t ≠ []) (quiet : p ≠ .waiting ())
    (kept : ∀ k, credits k (s.kind t) (s.place t) = true → credits k (s.kind t) p = true) :
    Relayed maxSize {s with place := update s.place t p} := by
  refine ⟨exclusive,inv.bounded,busy_update inv.busy current p,?_⟩
  intro k ⟨u,blocked⟩
  have old : Blocked s k u := blocked.before (t := t) rfl rfl (.inl quiet)
  have before := inv.enough k ⟨u,old⟩
  have change := credit_update s.place s.kind k t p
  have more : (if credits k (s.kind t) (s.place t) = true then 1 else 0) ≤
      if credits k (s.kind t) p = true then 1 else 0 := by
    split
    · rename_i credited
      rw [if_pos (kept k credited)]
    · exact Nat.zero_le _
  have same : room maxSize {s with place := update s.place t p} k = room maxSize s k := by cases k <;> rfl
  rw [same]
  exact le_trans before (by change _ ≤ credit (update s.place t p) s.kind k; omega)

/-- The end of a call: its thread had no credit left and waits for nothing. -/
theorem relayed_unlock {maxSize : Nat} {s : State τ D} {t : τ} (inv : Relayed maxSize s)
    (unlocking : s.place t = .inside .unlocking) : Relayed maxSize
      {s with place := update s.place t .outside,calls := update s.calls t (s.calls t).tail} := by
  refine ⟨inv.exclusive.release t rfl,inv.bounded,?_,?_⟩
  · intro u inside
    have different : u ≠ t := by intro same; simp [same] at inside
    simp only [update_of_ne different] at inside ⊢
    exact inv.busy u inside
  · intro k ⟨u,waiting,kind⟩
    have different : u ≠ t := by intro same; simp [same] at waiting
    simp only [update_of_ne different] at waiting
    have old : s.kind u = some k := by simpa [State.kind,update_of_ne different] using kind
    refine le_trans (inv.enough k ⟨u,waiting,old⟩) ?_
    apply Finset.card_le_card
    intro v member
    simp only [Finset.mem_filter,Finset.mem_univ,true_and] at member ⊢
    have other : v ≠ t := by intro same; simp [same,unlocking,credits] at member
    simpa [State.kind,update_of_ne other] using member

theorem relayed_step {maxSize : Nat} {s s' : State τ D} {a : Action τ} (inv : Relayed maxSize s)
    (relays : Relays maxSize s a) (ok : step maxSize s a = some s') : Relayed maxSize s' := by
  cases a with
  | lock t =>
    obtain ⟨outside,current,free,rfl⟩ := step_lock ok
    exact inv.advance (.acquire free t _) current (by simp) (by simp [outside,credits])
  | test t => exact relayed_test inv ok
  | signal t choice => exact relayed_signal inv relays ok
  | unlock t =>
    obtain ⟨unlocking,rfl⟩ := step_unlock ok
    exact relayed_unlock inv unlocking
  | spurious t =>
    obtain ⟨waiting,rfl⟩ := step_spurious ok
    have current := inv.busy t (by simp [waiting])
    exact inv.advance (inv.exclusive.release t rfl) current (by simp) (by simp [waiting,credits])
  | resume t =>
    obtain ⟨woken,free,rfl⟩ := step_resume ok
    have current := inv.busy t (by simp [woken])
    exact inv.advance (.acquire free t _) current (by simp) (by simp [woken,credits])

theorem relayed_reachable {maxSize : Nat} {s : State τ D}
    (reached : ((system τ D maxSize).restrict (Relays maxSize)).Reachable s) : Relayed maxSize s := by
  refine reached.invariant (Relayed maxSize) ?_ ?_
  · intro s ⟨outside,empty,_⟩
    refine ⟨fun t u held => ?_,by simp [empty],fun t inside => absurd (outside t) inside,?_⟩
    · simp [outside t] at held
    · intro k ⟨t,waiting,_⟩
      simp [outside t] at waiting
  · intro s a s' inv ok
    obtain ⟨relays,taken⟩ := System.restrict_step.mp ok
    exact relayed_step inv relays taken

omit [DecidableEq τ] in
/-- When nobody runs and nobody is signalled there is no credit, so whoever is
blocked has no room. -/
theorem Relayed.not_stuck {maxSize : Nat} {s : State τ D} (inv : Relayed maxSize s) : ¬Stuck maxSize s := by
  intro ⟨idle,_,room⟩
  have noCredit (k : Kind) : credit s.place s.kind k = 0 := by
    apply Finset.card_eq_zero.mpr
    apply Finset.filter_eq_empty_iff.mpr
    intro t _
    obtain done | waiting := idle t
    · have outside : s.place t = .outside := by_contra fun inside => inv.busy t inside done
      simp [outside,credits]
    · simp [waiting,credits]
  have bounded := inv.bounded
  obtain ⟨notEmpty,blocked⟩ | ⟨notFull,blocked⟩ := room
  · have enough := inv.enough .pop blocked
    rw [noCredit] at enough
    exact notEmpty (Nat.le_zero.mp enough)
  · have enough := inv.enough .push blocked
    rw [noCredit] at enough
    exact notFull (le_antisymm bounded (Nat.sub_eq_zero_iff_le.mp (Nat.le_zero.mp enough)))

/-- In a run where every signal is relayed nobody stays blocked with room for its call. -/
theorem relayed_run_not_stuck {maxSize : Nat} {s : State τ D}
    (reached : ((system τ D maxSize).restrict (Relays maxSize)).Reachable s) : ¬Stuck maxSize s :=
  (relayed_reachable reached).not_stuck

/-- The same calls as in `wrongWake` with consumer 0 sending its signal to the
blocked producer: everything is popped. -/
def rightWake : List (Action (Fin 3)) :=
  [.lock 0,.test 0,.lock 1,.test 1,.lock 2,.test 2,.signal 2 (some 0),.unlock 2,.lock 2,.test 2,
   .resume 0,.test 0,.signal 0 (some 2),.unlock 0,.resume 2,.test 2,.signal 2 (some 1),.unlock 2,
   .resume 1,.test 1,.signal 1 none,.unlock 1]

theorem relayed_rightWake_not_stuck : ∃ s : State (Fin 3) Nat,
    (s.received 0 = [1] ∧ s.received 1 = [2]) ∧ ¬Stuck 1 s := by
  obtain ⟨s,reached,popped⟩ : ∃ s, ((system (Fin 3) Nat 1).restrict (Relays 1)).Reachable s ∧
      (s.received 0 = [1] ∧ s.received 1 = [2]) := by
    refine System.exists_reachable
      (⟨fun _ => .outside,[],![[.pop],[.pop],[.push 1,.push 2]],fun _ => []⟩ : State (Fin 3) Nat) ?_ rightWake ?_
    · exact ⟨fun _ => rfl,rfl,fun _ => rfl⟩
    · decide
  exact ⟨s,popped,relayed_run_not_stuck reached⟩

end WebSearch.FixedSizeConQueue
