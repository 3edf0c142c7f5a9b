import WebSearch.ConcurrentQueue
import WebSearch.FixedSizeConQueue

/-! The runs of a `FixedSizeConQueue` with the items that went in and came out, and
what both queues keep of their order. -/
namespace WebSearch.FixedSizeConQueue
open Library Library.Monitor Function

/-- `underflow` is set when a `Pop` takes `front()` from an empty queue. -/
structure History (τ D : Type) where
  state : State τ D
  inserted : List D
  removed : List D
  underflow : Bool

variable {τ D : Type} [Fintype τ] [DecidableEq τ]

/-- What a step that led to `next` adds. A test that goes on to its `Signal` has been
through the queue operation. -/
def History.record (h : History τ D) (next : State τ D) : Action τ → History τ D
  | .test t => match next.place t, h.state.calls t with
    | .inside .signalling, .push data :: _ => {h with state := next,inserted := h.inserted ++ [data]}
    | .inside .signalling, .pop :: _ => match h.state.queue with
      | [] => {h with state := next,underflow := true}
      | front :: _ => {h with state := next,removed := h.removed ++ [front]}
    | _, _ => {h with state := next}
  | _ => {h with state := next}

def history (τ D : Type) [Fintype τ] [DecidableEq τ] (maxSize : Nat) : System (History τ D) (Action τ) where
  initial h := (system τ D maxSize).initial h.state ∧ h.inserted = [] ∧ h.removed = [] ∧ h.underflow = false
  step h a := (step maxSize h.state a).map fun next => h.record next a

structure InOrder (maxSize : Nat) (h : History τ D) : Prop where
  order : h.inserted = h.removed ++ h.state.queue
  bounded : h.state.queue.length ≤ maxSize
  no_underflow : h.underflow = false

theorem inOrder_test {maxSize : Nat} {h : History τ D} {next : State τ D} {t : τ} (inv : InOrder maxSize h)
    (ok : step maxSize h.state (.test t) = some next) : InOrder maxSize (h.record next (.test t)) := by
  obtain ⟨order,bounded,no_underflow⟩ := inv
  simp only [step] at ok
  split at ok
  · rename_i data rest testing current
    split at ok
    · cases ok
      simp only [History.record,update_self]
      exact ⟨order,bounded,no_underflow⟩
    · rename_i room
      cases ok
      simp only [History.record,update_self,current]
      refine ⟨?_,?_,no_underflow⟩
      · rw [order,List.append_assoc]
      · rw [List.length_append,List.length_singleton]
        omega
  · rename_i rest testing current
    split at ok
    · cases ok
      simp only [History.record,update_self]
      exact ⟨order,bounded,no_underflow⟩
    · rename_i front items queue
      cases ok
      simp only [History.record,update_self,current,queue]
      rw [queue] at order bounded
      refine ⟨?_,Nat.le_of_succ_le bounded,no_underflow⟩
      rw [order,List.append_assoc,List.singleton_append]
  · contradiction

theorem step_queue {maxSize : Nat} {s next : State τ D} {a : Action τ} (ok : step maxSize s a = some next)
    (other : ∀ t, a ≠ .test t) : next.queue = s.queue := by
  cases a with
  | lock t =>
    obtain ⟨_,_,_,rfl⟩ := step_lock ok
    rfl
  | test t => exact absurd rfl (other t)
  | signal t choice =>
    obtain ⟨_,place,_,rfl⟩ := step_signal ok
    rfl
  | unlock t =>
    obtain ⟨_,rfl⟩ := step_unlock ok
    rfl
  | spurious t =>
    obtain ⟨_,rfl⟩ := step_spurious ok
    rfl
  | resume t =>
    obtain ⟨_,_,rfl⟩ := step_resume ok
    rfl

theorem inOrder_step {maxSize : Nat} {h : History τ D} {next : State τ D} {a : Action τ} (inv : InOrder maxSize h)
    (ok : step maxSize h.state a = some next) : InOrder maxSize (h.record next a) := by
  have kept (other : ∀ t, a ≠ .test t) : InOrder maxSize {h with state := next} := by
    have queue := step_queue ok other
    exact ⟨queue ▸ inv.order,queue ▸ inv.bounded,inv.no_underflow⟩
  cases a with
  | test t => exact inOrder_test inv ok
  | lock | signal | unlock | spurious | resume => exact kept (by simp)

theorem inOrder_reachable {maxSize : Nat} {h : History τ D} (reached : (history τ D maxSize).Reachable h) :
    InOrder maxSize h := by
  refine reached.invariant (InOrder maxSize) ?_ ?_
  · intro h ⟨⟨_,queue,_⟩,inserted,removed,no_underflow⟩
    exact ⟨by rw [inserted,removed,queue]; rfl,by rw [queue]; exact Nat.zero_le _,no_underflow⟩
  · intro h a next inv taken
    obtain ⟨state,moved,same⟩ := Option.map_eq_some_iff.mp taken
    exact same ▸ inOrder_step inv moved

/-- Consumer 0 waits, thread 1 pushes and wakes it, but thread 2 is first with its
`TryPop`. -/
def stolen : List (ConcurrentQueue.Action (Fin 3)) :=
  [.lock 0,.test 0,.lock 1,.test 1,.signal 1 (some 0),.unlock 1,.lock 2,.test 2,.take 2,.unlock 2,.resume 0,.test 0]

end WebSearch.FixedSizeConQueue
