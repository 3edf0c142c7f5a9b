import Mathlib.Logic.Relation
import Mathlib.Data.List.Basic
import Mathlib.Algebra.GroupWithZero.Nat

/-! Labelled transition systems given by a partial step function. Every safety
argument about interleavings goes through `Reachable.invariant`; `restrict`
keeps exactly the runs whose steps all meet a condition on the state before. -/
namespace WebSearch.Library

/-! Numerals for two and for three processes. -/

instance (priority := high) twoProcesses : NeZero 2 := ⟨Nat.succ_ne_zero 1⟩
instance (priority := high) threeProcesses : NeZero 3 := ⟨Nat.succ_ne_zero 2⟩

structure System (σ α : Type) where
  initial : σ → Prop
  step : σ → α → Option σ

namespace System
variable {σ α : Type}

/-- Runs the labels in order; `none` as soon as one of them is not enabled. -/
def run (sys : System σ α) (s : σ) (labels : List α) : Option σ := labels.foldlM sys.step s

inductive Reachable (sys : System σ α) : σ → Prop
  | initial {s} (start : sys.initial s) : Reachable sys s
  | step {s s'} (a : α) (before : Reachable sys s) (taken : sys.step s a = some s') : Reachable sys s'

theorem Reachable.invariant {sys : System σ α} (inv : σ → Prop)
    (start : ∀ s, sys.initial s → inv s)
    (preserved : ∀ s a s', inv s → sys.step s a = some s' → inv s')
    {s : σ} (reached : Reachable sys s) : inv s := by
  induction reached with
  | initial h => exact start _ h
  | step a _ taken ih => exact preserved _ a _ ih taken

theorem Reachable.run {sys : System σ α} {s s' : σ} (labels : List α)
    (reached : Reachable sys s) (ran : sys.run s labels = some s') : Reachable sys s' := by
  induction labels generalizing s with
  | nil =>
    have same : s = s' := by simpa [System.run] using ran
    exact same ▸ reached
  | cons a labels ih =>
    simp only [System.run,List.foldlM_cons] at ran
    obtain ⟨middle,taken,rest⟩ := Option.bind_eq_some_iff.mp ran
    exact ih (reached.step a taken) rest

/-- A run is no longer than what its start has left to do. -/
theorem Reachable.run_length {sys : System σ α} (work : σ → Nat)
    (decreases : ∀ s a s', sys.Reachable s → sys.step s a = some s' → work s' < work s) {s s' : σ} {labels : List α}
    (reached : sys.Reachable s) (ran : sys.run s labels = some s') : labels.length + work s' ≤ work s := by
  induction labels generalizing s with
  | nil =>
    have same : s = s' := by simpa [System.run] using ran
    simp [same]
  | cons a labels ih =>
    simp only [System.run,List.foldlM_cons] at ran
    obtain ⟨middle,taken,rest⟩ := Option.bind_eq_some_iff.mp ran
    have less := decreases s a middle reached taken
    have later := ih (reached.step a taken) rest
    rw [List.length_cons]
    omega

/-- Forward simulation: every concrete step is an abstract one, or changes nothing that
the abstract system sees. -/
theorem Reachable.simulated {σ' α' : Type} {sys : System σ α} {spec : System σ' α'} (rel : σ → σ' → Prop)
    (start : ∀ s, sys.initial s → ∃ t, spec.initial t ∧ rel s t)
    (simulates : ∀ s t a s', rel s t → spec.Reachable t → sys.step s a = some s' →
      rel s' t ∨ ∃ b t', spec.step t b = some t' ∧ rel s' t')
    {s : σ} (reached : sys.Reachable s) : ∃ t, spec.Reachable t ∧ rel s t := by
  induction reached with
  | initial first =>
    obtain ⟨t,first,related⟩ := start _ first
    exact ⟨t,.initial first,related⟩
  | step a _ taken ih =>
    obtain ⟨t,reached,related⟩ := ih
    obtain same | ⟨b,t',moved,related⟩ := simulates _ t a _ related reached taken
    · exact ⟨t,reached,same⟩
    · exact ⟨t',reached.step b moved,related⟩

/-- A concrete run is evaluated once to exhibit a reachable state. -/
theorem exists_reachable {sys : System σ α} {P : σ → Prop} [DecidablePred P] (s : σ)
    (start : sys.initial s) (labels : List α) (ran : (sys.run s labels).any (fun s => decide (P s)) = true) :
    ∃ s, sys.Reachable s ∧ P s := by
  obtain ⟨final,ended,holds⟩ := (Option.any_eq_true _ _).mp ran
  exact ⟨final,(Reachable.initial start).run labels ended,of_decide_eq_true holds⟩

/-- The same system with the steps that do not meet `allowed` removed. -/
def restrict (sys : System σ α) (allowed : σ → α → Prop) [∀ s a, Decidable (allowed s a)] : System σ α where
  initial := sys.initial
  step s a := if allowed s a then sys.step s a else none

theorem restrict_step {sys : System σ α} {allowed : σ → α → Prop} [∀ s a, Decidable (allowed s a)]
    {s s' : σ} {a : α} :
    (sys.restrict allowed).step s a = some s' ↔ allowed s a ∧ sys.step s a = some s' := by
  by_cases h : allowed s a <;> simp [restrict,h]

end System
end WebSearch.Library
