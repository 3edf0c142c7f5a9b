import Mathlib.Data.Fintype.BigOperators
import Mathlib.Logic.Function.Basic

/-! Adding up what the parts of a state are worth. When one part changes, only its own
summand does. -/
namespace WebSearch.Library
open Function

variable {ι α M : Type} [Fintype ι] [DecidableEq ι] [AddCommMonoid M]

def tally (worth : ι → α → M) (parts : ι → α) : M := ∑ i, worth i (parts i)

theorem tally_update (worth : ι → α → M) (parts : ι → α) (i : ι) : ∃ others,
    tally worth parts = worth i (parts i) + others ∧ ∀ a, tally worth (update parts i a) = worth i a + others := by
  refine ⟨∑ j ∈ Finset.univ.erase i, worth j (parts j),?_,fun a => ?_⟩
  · exact (Finset.add_sum_erase _ (fun j => worth j (parts j)) (Finset.mem_univ i)).symm
  · unfold tally
    rw [← Finset.add_sum_erase _ _ (Finset.mem_univ i),update_self]
    congr 1
    apply Finset.sum_congr rfl
    intro j member
    rw [update_of_ne (Finset.ne_of_mem_erase member)]

omit [DecidableEq ι] in
/-- Parts that are worth the same everywhere can change places. -/
theorem tally_comp (worth : α → M) (parts : ι → α) (e : Equiv.Perm ι) :
    tally (fun _ => worth) (parts ∘ e) = tally (fun _ => worth) parts :=
  Equiv.sum_comp e fun i => worth (parts i)

omit [DecidableEq ι] in
theorem tally_eq_zero {worth : ι → α → M} {parts : ι → α} (nothing : ∀ i, worth i (parts i) = 0) :
    tally worth parts = 0 :=
  Finset.sum_eq_zero fun i _ => nothing i

omit [DecidableEq ι] in
/-- What no part has more than `bound` of, all of them have at most that often. -/
theorem tally_le (measure : M →+ Nat) (worth : ι → α → M) (parts : ι → α) (bound : Nat)
    (each : ∀ i, measure (worth i (parts i)) ≤ bound) : measure (tally worth parts) ≤ Fintype.card ι * bound := by
  have some_parts (s : Finset ι) : measure (∑ i ∈ s, worth i (parts i)) ≤ s.card * bound := by
    classical
    induction s using Finset.induction with
    | empty => simp
    | insert i s fresh ih =>
      rw [Finset.sum_insert fresh,map_add,Finset.card_insert_of_notMem fresh,Nat.succ_mul,Nat.add_comm]
      exact Nat.add_le_add ih (each i)
  exact some_parts Finset.univ

end WebSearch.Library
