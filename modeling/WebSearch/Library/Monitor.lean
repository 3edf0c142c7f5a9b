import Mathlib.Data.Fintype.Card
import Mathlib.Logic.Function.Basic

/-! One mutex with one condition variable, as the threads see it. A thread is
outside, holds the mutex at some point of its critical section, is blocked in a
wait, or was signalled and has not got the mutex back yet. A signal moves one
arbitrary blocked thread on, and is lost exactly when no thread is blocked. -/
namespace WebSearch.Library

inductive Place (κ ω : Type)
  | outside
  | inside (point : κ)
  | waiting (reason : ω)
  | woken (reason : ω)
  deriving DecidableEq

namespace Monitor
variable {τ κ ω : Type}

def holds : Place κ ω → Bool
  | .inside _ => true
  | _ => false

def waits : Place κ ω → Bool
  | .waiting _ => true
  | _ => false

@[simp] theorem holds_outside : holds (.outside : Place κ ω) = false := rfl
@[simp] theorem holds_inside (k : κ) : holds (.inside k : Place κ ω) = true := rfl
@[simp] theorem holds_waiting (w : ω) : holds (.waiting w : Place κ ω) = false := rfl
@[simp] theorem holds_woken (w : ω) : holds (.woken w : Place κ ω) = false := rfl

theorem waits_iff {p : Place κ ω} : waits p = true ↔ ∃ w, p = .waiting w := by
  cases p <;> simp [waits]

def Free (place : τ → Place κ ω) : Prop := ∀ t, holds (place t) = false

instance [Fintype τ] (place : τ → Place κ ω) : Decidable (Free place) :=
  inferInstanceAs (Decidable (∀ t, holds (place t) = false))

/-- The mutex has at most one holder. -/
def Exclusive (place : τ → Place κ ω) : Prop :=
  ∀ t u, holds (place t) = true → holds (place u) = true → t = u

variable [DecidableEq τ]

theorem Exclusive.acquire {place : τ → Place κ ω} (free : Free place) (t : τ) (p : Place κ ω) :
    Exclusive (Function.update place t p) := by
  have only (u : τ) (held : holds (Function.update place t p u) = true) : u = t := by
    by_contra different
    rw [Function.update_of_ne different,free u] at held
    exact Bool.false_ne_true held
  intro u v first second
  exact (only u first).trans (only v second).symm

theorem Exclusive.move {place : τ → Place κ ω} (exclusive : Exclusive place) {t : τ}
    (held : holds (place t) = true) (p : Place κ ω) : Exclusive (Function.update place t p) := by
  have old (u : τ) (now : holds (Function.update place t p u) = true) : holds (place u) = true := by
    by_cases same : u = t
    · rw [same]; exact held
    · rwa [Function.update_of_ne same] at now
  intro u v first second
  exact exclusive u v (old u first) (old v second)

theorem Exclusive.release {place : τ → Place κ ω} (exclusive : Exclusive place) (t : τ)
    {p : Place κ ω} (released : holds p = false) : Exclusive (Function.update place t p) := by
  have old (u : τ) (now : holds (Function.update place t p u) = true) : holds (place u) = true := by
    by_cases same : u = t
    · rw [same,Function.update_self,released] at now
      exact absurd now Bool.false_ne_true
    · rwa [Function.update_of_ne same] at now
  intro u v first second
  exact exclusive u v (old u first) (old v second)

/-- A signal to the chosen thread; `none` when nobody is blocked. -/
def signal [Fintype τ] (place : τ → Place κ ω) : Option τ → Option (τ → Place κ ω)
  | none => if ∀ t, waits (place t) = false then some place else none
  | some t => match place t with
    | .waiting w => some (Function.update place t (.woken w))
    | _ => none

theorem signal_cases [Fintype τ] {place after : τ → Place κ ω} {choice : Option τ}
    (sent : signal place choice = some after) :
    (choice = none ∧ after = place ∧ ∀ t w, place t ≠ .waiting w) ∨
    ∃ t w, choice = some t ∧ place t = .waiting w ∧ after = Function.update place t (.woken w) := by
  cases choice with
  | none =>
    simp only [signal] at sent
    split at sent
    · rename_i nobody
      refine .inl ⟨rfl,(Option.some.inj sent).symm,?_⟩
      intro t w blocked
      have idle := nobody t
      rw [waits_iff.mpr ⟨w,blocked⟩] at idle
      exact Bool.false_ne_true idle.symm
    · contradiction
  | some t =>
    simp only [signal] at sent
    split at sent
    · rename_i w blocked
      exact .inr ⟨t,w,rfl,blocked,(Option.some.inj sent).symm⟩
    · contradiction

theorem Exclusive.signal [Fintype τ] {place after : τ → Place κ ω} {choice : Option τ}
    (exclusive : Exclusive place) (sent : Monitor.signal place choice = some after) : Exclusive after := by
  obtain ⟨_,same,_⟩ | ⟨t,w,_,_,same⟩ := signal_cases sent
  · exact same ▸ exclusive
  · exact same ▸ exclusive.release t rfl

/-- Counting threads when the counted property changes for one thread only. -/
theorem card_change [Fintype τ] (P Q : τ → Prop) [DecidablePred P] [DecidablePred Q] (t : τ)
    (others : ∀ u, u ≠ t → (P u ↔ Q u)) :
    (Finset.univ.filter Q).card + (if P t then 1 else 0) =
      (Finset.univ.filter P).card + (if Q t then 1 else 0) := by
  have split (R : τ → Prop) [DecidablePred R] :
      (Finset.univ.filter R).card = ((Finset.univ.erase t).filter R).card + (if R t then 1 else 0) := by
    conv_lhs => rw [← Finset.insert_erase (Finset.mem_univ t)]
    rw [Finset.filter_insert]
    split
    · rw [Finset.card_insert_of_notMem (by simp)]
    · rfl
  have same : (Finset.univ.erase t).filter P = (Finset.univ.erase t).filter Q := by
    apply Finset.filter_congr
    intro u member
    exact others u (Finset.ne_of_mem_erase member)
  rw [split P,split Q,same]
  omega

/-- Counting threads by what their places stand for, when one thread moves. -/
theorem card_update [Fintype τ] (counts : τ → Place κ ω → Bool) (place : τ → Place κ ω) (t : τ) (p : Place κ ω) :
    (Finset.univ.filter fun u => counts u (Function.update place t p u) = true).card +
        (if counts t (place t) = true then 1 else 0) =
      (Finset.univ.filter fun u => counts u (place u) = true).card + (if counts t p = true then 1 else 0) := by
  have change := card_change (fun u => counts u (place u) = true)
    (fun u => counts u (Function.update place t p u) = true) t
    (fun u different => by rw [Function.update_of_ne different])
  simpa only [Function.update_self] using change

end Monitor
end WebSearch.Library
