import Mathlib.Data.Set.Card
import Mathlib.Order.Basic

/-! A strictly ascending list: an element's index is the number of those below it. -/
namespace WebSearch.Library

variable {α : Type} [Preorder α] {list : List α} {i : Nat} {x : α}

theorem ascending_sides (ascending : list.Pairwise (· < ·)) (here : list[i]? = some x) :
    list = list.take i ++ x :: list.drop (i + 1) ∧ (∀ y ∈ list.take i, y < x) ∧ ∀ y ∈ list.drop (i + 1), x < y := by
  obtain ⟨inside,value⟩ := List.getElem?_eq_some_iff.mp here
  have split : list = list.take i ++ x :: list.drop (i + 1) := by
    rw [← value,← List.drop_eq_getElem_cons inside,List.take_append_drop]
  rw [split] at ascending
  obtain ⟨_,later,across⟩ := List.pairwise_append.mp ascending
  exact ⟨split,fun y before => across y before x List.mem_cons_self,(List.pairwise_cons.mp later).1⟩

theorem mem_take_iff (ascending : list.Pairwise (· < ·)) (here : list[i]? = some x) (y : α) :
    y ∈ list.take i ↔ y ∈ list ∧ y < x := by
  obtain ⟨split,below,above⟩ := ascending_sides ascending here
  refine ⟨fun before => ⟨List.mem_of_mem_take before,below y before⟩,fun less => ?_⟩
  obtain ⟨member,less⟩ := less
  rw [split] at member
  rcases List.mem_append.mp member with before | later
  · exact before
  · rcases List.mem_cons.mp later with same | later
    · exact absurd less (same ▸ lt_irrefl y)
    · exact absurd less (lt_asymm (above y later))

theorem mem_drop_iff (ascending : list.Pairwise (· < ·)) (here : list[i]? = some x) (y : α) :
    y ∈ list.drop (i + 1) ↔ y ∈ list ∧ x < y := by
  obtain ⟨split,below,above⟩ := ascending_sides ascending here
  refine ⟨fun later => ⟨List.mem_of_mem_drop later,above y later⟩,fun greater => ?_⟩
  obtain ⟨member,greater⟩ := greater
  rw [split] at member
  rcases List.mem_append.mp member with before | later
  · exact absurd greater (lt_asymm (below y before))
  · rcases List.mem_cons.mp later with same | later
    · exact absurd greater (same ▸ lt_irrefl y)
    · exact later

theorem ncard_below (ascending : list.Pairwise (· < ·)) (here : list[i]? = some x) :
    {y | y ∈ list ∧ y < x}.ncard = i := by
  classical
  have distinct : (list.take i).Nodup := (ascending.imp fun less => ne_of_lt less).sublist (List.take_sublist i list)
  have same : {y | y ∈ list ∧ y < x} = ((list.take i).toFinset : Set α) := by
    apply Set.ext
    intro y
    rw [Finset.mem_coe,List.mem_toFinset]
    exact (mem_take_iff ascending here y).symm
  rw [same,Set.ncard_coe_finset,List.toFinset_card_of_nodup distinct,List.length_take]
  exact Nat.min_eq_left (List.getElem?_eq_some_iff.mp here).1.le

theorem getElem?_iff_ncard (ascending : list.Pairwise (· < ·)) :
    list[i]? = some x ↔ x ∈ list ∧ {y | y ∈ list ∧ y < x}.ncard = i := by
  refine ⟨fun here => ⟨List.mem_of_getElem? here,ncard_below ascending here⟩,fun ranked => ?_⟩
  obtain ⟨member,count⟩ := ranked
  obtain ⟨j,here⟩ := List.mem_iff_getElem?.mp member
  rw [← count,ncard_below ascending here]
  exact here

end WebSearch.Library
