import Mathlib.Logic.Relation
import Mathlib.Data.List.Nodup

/-! Ordered listings of sets. A listing names each element of a set once, and
never after something that depends on it. Moving the elements of a second
listing to the end of a first lists the union of the two sets. -/
namespace WebSearch.Library
open Relation

section MoveLast
variable {α : Type} [DecidableEq α]

def moveLast (list : List α) (x : α) : List α := list.erase x ++ [x]

theorem foldl_moveLast (list piece : List α) (distinct : list.Nodup) (pieces : piece.Nodup) :
    piece.foldl moveLast list = list.filter (fun x => x ∉ piece) ++ piece := by
  induction piece generalizing list with
  | nil => simp
  | cons x piece ih =>
    obtain ⟨fresh,pieces⟩ := List.nodup_cons.mp pieces
    have moved : (moveLast list x).Nodup := by
      apply List.Nodup.append (distinct.erase x) (List.nodup_singleton x)
      intro y erased single
      rw [List.mem_singleton.mp single] at erased
      exact distinct.not_mem_erase erased
    rw [List.foldl_cons,ih _ moved pieces]
    have kept : [x].filter (fun y => y ∉ piece) = [x] := List.filter_eq_self.mpr (by simpa using fresh)
    rw [moveLast,List.filter_append,kept,List.append_assoc,List.singleton_append]
    rw [distinct.erase_eq_filter,List.filter_filter]
    congr 1
    apply List.filter_congr
    intro y _
    by_cases same : y = x <;> simp [same]

theorem mem_of_mem_moveLast {list piece : List α} {x : α} (member : x ∈ piece.foldl moveLast list) :
    x ∈ list ∨ x ∈ piece := by
  induction piece generalizing list with
  | nil => exact .inl member
  | cons y piece ih =>
    rcases ih member with before | later
    · rcases List.mem_append.mp before with kept | moved
      · exact .inl (List.mem_of_mem_erase kept)
      · exact .inr (List.mem_cons.mpr (.inl (List.mem_singleton.mp moved)))
    · exact .inr (List.mem_cons_of_mem y later)

end MoveLast

variable {α : Type} {r : α → α → Prop}

structure Listing (r : α → α → Prop) (members : α → Prop) (list : List α) : Prop where
  nodup : list.Nodup
  mem_iff : ∀ x, x ∈ list ↔ members x
  ordered : list.Pairwise fun first second => ¬TransGen r second first

theorem Listing.nil : Listing r (fun _ => False) [] :=
  ⟨List.nodup_nil,fun _ => by simp,List.Pairwise.nil⟩

/-- In an acyclic relation an element goes before everything it reaches. -/
theorem Listing.cons (acyclic : ∀ x, ¬TransGen r x x) {x : α} {list : List α}
    (rest : Listing r (TransGen r x) list) : Listing r (ReflTransGen r x) (x :: list) := by
  have fresh : x ∉ list := fun member => acyclic x ((rest.mem_iff x).mp member)
  refine ⟨List.nodup_cons.mpr ⟨fresh,rest.nodup⟩,fun y => ?_,List.pairwise_cons.mpr ⟨fun y member => ?_,rest.ordered⟩⟩
  · rw [List.mem_cons,rest.mem_iff,reflTransGen_iff_eq_or_transGen]
  · intro back
    exact acyclic x (((rest.mem_iff y).mp member).trans back)

/-- The second set is closed under the relation, so nothing that stays in front
is reached from it. -/
theorem Listing.moveLast [DecidableEq α] {members others : α → Prop} {list piece : List α}
    (first : Listing r members list) (second : Listing r others piece)
    (closed : ∀ x y, others x → TransGen r x y → others y) :
    Listing r (fun x => members x ∨ others x) (piece.foldl Library.moveLast list) := by
  rw [foldl_moveLast list piece first.nodup second.nodup]
  refine ⟨?_,fun x => ?_,List.pairwise_append.mpr ⟨first.ordered.sublist List.filter_sublist,second.ordered,?_⟩⟩
  · apply List.Nodup.append (first.nodup.filter _) second.nodup
    intro x kept member
    simp [List.mem_filter,member] at kept
  · simp only [List.mem_append,List.mem_filter,first.mem_iff,decide_eq_true_eq,second.mem_iff]
    tauto
  · intro x kept y member back
    have outside : x ∉ piece := by simpa using (List.mem_filter.mp kept).2
    exact outside ((second.mem_iff x).mpr (closed y x ((second.mem_iff y).mp member) back))

theorem Listing.congr {members others : α → Prop} {list : List α} (listing : Listing r members list)
    (same : ∀ x, members x ↔ others x) : Listing r others list :=
  ⟨listing.nodup,fun x => (listing.mem_iff x).trans (same x),listing.ordered⟩

end WebSearch.Library
