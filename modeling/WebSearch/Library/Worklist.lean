import Mathlib.Logic.Relation
import Mathlib.Data.Set.Basic
import Mathlib.Order.Bounds.Defs
import Mathlib.Algebra.BigOperators.Group.List.Basic
import Mathlib.Algebra.GroupWithZero.Nat

/-! Search with a worklist. What is done and what is pending covers the start and the
edges from what is done; when nothing is pending, what is done is the least set that
holds the start and is closed under the edges. -/
namespace WebSearch.Library
open Relation
variable {α : Type} {r : α → α → Prop} {start : α → Prop}

def Reached (r : α → α → Prop) (start : α → Prop) (x : α) : Prop := ∃ s, start s ∧ ReflTransGen r s x

theorem Reached.step {x y : α} (reached : Reached r start x) (edge : r x y) : Reached r start y := by
  obtain ⟨s,begins,path⟩ := reached
  exact ⟨s,begins,path.tail edge⟩

theorem reached_isLeast (r : α → α → Prop) (start : α → Prop) :
    IsLeast {set : Set α | (∀ s, start s → s ∈ set) ∧ ∀ x ∈ set, ∀ y, r x y → y ∈ set} {x | Reached r start x} := by
  refine ⟨⟨fun s begins => ⟨s,begins,.refl⟩,fun x reached y edge => Reached.step reached edge⟩,?_⟩
  intro set ⟨holds,closed⟩ x ⟨s,begins,path⟩
  induction path with
  | refl => exact holds s begins
  | tail _ edge ih => exact closed _ ih _ edge

structure Frontier (r : α → α → Prop) (start : α → Prop) (done pending : List α) : Prop where
  inside : ∀ x, x ∈ done ∨ x ∈ pending → Reached r start x
  begins : ∀ s, start s → s ∈ done ∨ s ∈ pending
  edges : ∀ x ∈ done, ∀ y, r x y → y ∈ done ∨ y ∈ pending

theorem Frontier.init {pending : List α} (all : ∀ s, s ∈ pending ↔ start s) : Frontier r start [] pending where
  inside _ member := ⟨_,(all _).mp (member.resolve_left List.not_mem_nil),.refl⟩
  begins _ initial := .inr ((all _).mpr initial)
  edges _ member := absurd member List.not_mem_nil

/-- What is done already can be dropped. -/
theorem Frontier.skip {done pending rest : List α} {x : α} (before : Frontier r start done pending) (known : x ∈ done)
    (split : ∀ y, y ∈ pending ↔ y = x ∨ y ∈ rest) : Frontier r start done rest := by
  have keep (y : α) (member : y ∈ done ∨ y ∈ pending) : y ∈ done ∨ y ∈ rest := by
    rcases member with member | member
    · exact .inl member
    · rcases (split y).mp member with rfl | member
      · exact .inl known
      · exact .inr member
  refine ⟨fun y member => ?_,fun s initial => keep s (before.begins s initial),
    fun y member z edge => keep z (before.edges y member z edge)⟩
  exact before.inside y (member.imp_right fun later => (split y).mpr (.inr later))

/-- A pending element is done when what it leads to is pending. -/
theorem Frontier.visit {done pending rest next : List α} {x : α} (before : Frontier r start done pending)
    (split : ∀ y, y ∈ pending ↔ y = x ∨ y ∈ rest) (covers : ∀ y, y ∈ rest → y ∈ next)
    (sound : ∀ y, y ∈ next → y ∈ rest ∨ r x y) (leads : ∀ y, r x y → y ∈ done ++ [x] ∨ y ∈ next) :
    Frontier r start (done ++ [x]) next := by
  have keep (y : α) (member : y ∈ done ∨ y ∈ pending) : y ∈ done ++ [x] ∨ y ∈ next := by
    rcases member with member | member
    · exact .inl (List.mem_append_left _ member)
    · rcases (split y).mp member with rfl | member
      · exact .inl (by simp)
      · exact .inr (covers y member)
  have reached : Reached r start x := before.inside x (.inr ((split x).mpr (.inl rfl)))
  refine ⟨fun y member => ?_,fun s initial => keep s (before.begins s initial),fun y member z edge => ?_⟩
  · rcases member with member | member
    · rcases List.mem_append.mp member with old | new
      · exact before.inside y (.inl old)
      · exact List.mem_singleton.mp new ▸ reached
    · rcases sound y member with old | edge
      · exact before.inside y (.inr ((split y).mpr (.inr old)))
      · exact reached.step edge
  · rcases List.mem_append.mp member with old | new
    · exact keep z (before.edges y old z edge)
    · exact leads z (List.mem_singleton.mp new ▸ edge)

theorem Frontier.finished {done : List α} (frontier : Frontier r start done []) (x : α) : x ∈ done ↔ Reached r start x := by
  have closed : {x | Reached r start x} ⊆ {x | x ∈ done} := (reached_isLeast r start).2
    ⟨fun s initial => (frontier.begins s initial).resolve_right List.not_mem_nil,
      fun x member y edge => (frontier.edges x member y edge).resolve_right List.not_mem_nil⟩
  exact ⟨fun member => frontier.inside x (.inl member),fun reached => closed reached⟩

/-! How much can still become pending: the elements that are not done, with their
numbers of successors. -/
section Budget
variable [DecidableEq α]

def budget (entries : List (α × Nat)) (done : List α) : Nat :=
  ((entries.filter fun entry => entry.1 ∉ done).map Prod.snd).sum

theorem budget_le (entries : List (α × Nat)) {done more : List α} (grows : ∀ x ∈ done, x ∈ more) :
    budget entries more ≤ budget entries done := by
  induction entries with
  | nil => exact Nat.le_refl _
  | cons entry entries ih =>
    by_cases known : entry.1 ∈ done
    · simpa [budget,known,grows entry.1 known] using ih
    · by_cases later : entry.1 ∈ more
      · simp [budget,known,later] at ih ⊢
        omega
      · simp [budget,known,later] at ih ⊢
        omega

theorem budget_visit {entries : List (α × Nat)} {done : List α} {x : α} {n : Nat} (listed : (x,n) ∈ entries)
    (fresh : x ∉ done) : budget entries (done ++ [x]) + n ≤ budget entries done := by
  induction entries with
  | nil => exact absurd listed List.not_mem_nil
  | cons entry entries ih =>
    have rest : budget entries (done ++ [x]) ≤ budget entries done := budget_le entries fun y member => List.mem_append_left _ member
    rcases List.mem_cons.mp listed with rfl | listed
    · simp [budget,fresh] at rest ⊢
      omega
    · have later := ih listed
      by_cases known : entry.1 ∈ done
      · simpa [budget,known] using later
      · by_cases same : entry.1 = x
        · simp [budget,same,fresh] at later ⊢
          omega
        · simp [budget,known,same] at later ⊢
          omega

end Budget

end WebSearch.Library
