import WebSearch.Library.Dictionary
import Mathlib.Order.Lattice

/-! Association lists with their keys in strictly increasing order. -/
namespace WebSearch.Library

variable {κ α : Type} [LinearOrder κ]

def SortedKeys (dict : List (κ × α)) : Prop := (dict.map Prod.fst).Pairwise (· < ·)

/-- Adds an entry unless the key has one. -/
def insertNew (key : κ) (value : α) : List (κ × α) → List (κ × α)
  | [] => [(key,value)]
  | (k,a) :: rest =>
    if key < k then (key,value) :: (k,a) :: rest
    else if k = key then (k,a) :: rest
    else (k,a) :: insertNew key value rest

def modify (key : κ) (f : α → α) (dict : List (κ × α)) : List (κ × α) :=
  dict.map fun entry => if entry.1 = key then (entry.1,f entry.2) else entry

theorem sortedKeys_cons {entry : κ × α} {rest : List (κ × α)} :
    SortedKeys (entry :: rest) ↔ (∀ other ∈ rest, entry.1 < other.1) ∧ SortedKeys rest := by
  simp [SortedKeys]

theorem mem_insertNew {key : κ} {value : α} {dict : List (κ × α)} {entry : κ × α}
    (member : entry ∈ insertNew key value dict) : entry = (key,value) ∨ entry ∈ dict := by
  induction dict with
  | nil => exact .inl (List.mem_singleton.mp member)
  | cons first rest ih =>
    obtain ⟨k,a⟩ := first
    unfold insertNew at member
    split at member
    · exact List.mem_cons.mp member
    · split at member
      · exact .inr member
      · rcases List.mem_cons.mp member with here | later
        · exact .inr (List.mem_cons.mpr (.inl here))
        · exact (ih later).imp_right (List.mem_cons_of_mem _)

theorem sortedKeys_insertNew {key : κ} {value : α} {dict : List (κ × α)} (sorted : SortedKeys dict) :
    SortedKeys (insertNew key value dict) := by
  induction dict with
  | nil => exact List.pairwise_singleton _ _
  | cons first rest ih =>
    obtain ⟨k,a⟩ := first
    obtain ⟨least,others⟩ := sortedKeys_cons.mp sorted
    unfold insertNew
    split
    · rename_i less
      refine sortedKeys_cons.mpr ⟨fun other member => ?_,sorted⟩
      rcases List.mem_cons.mp member with here | later
      · rw [here]
        exact less
      · exact less.trans (least other later)
    · rename_i notLess
      split
      · exact sorted
      · rename_i different
        refine sortedKeys_cons.mpr ⟨fun other member => ?_,ih others⟩
        rcases mem_insertNew member with here | later
        · rw [here]
          exact lt_of_le_of_ne (not_lt.mp notLess) different
        · exact least other later

theorem lookup_of_mem {dict : List (κ × α)} (sorted : SortedKeys dict) {k : κ} {a : α}
    (member : (k,a) ∈ dict) : dict.lookup k = some a := by
  induction dict with
  | nil => cases member
  | cons first rest ih =>
    obtain ⟨least,others⟩ := sortedKeys_cons.mp sorted
    rw [lookup_cons_ite]
    rcases List.mem_cons.mp member with here | later
    · rw [← here,if_pos rfl]
    · rw [if_neg (least _ later).ne',ih others later]

theorem lookup_eq_none_of_lt {dict : List (κ × α)} {k : κ} (below : ∀ other ∈ dict, k < other.1) :
    dict.lookup k = none :=
  List.lookup_eq_none_iff.mpr fun other member => bne_iff_ne.mpr (below other member).ne

theorem lookup_insertNew {dict : List (κ × α)} (sorted : SortedKeys dict) (key : κ) (value : α) (k : κ) :
    (insertNew key value dict).lookup k =
      if k = key then some ((dict.lookup key).getD value) else dict.lookup k := by
  induction dict with
  | nil => exact lookup_cons_ite key value [] k
  | cons first rest ih =>
    obtain ⟨other,a⟩ := first
    obtain ⟨least,others⟩ := sortedKeys_cons.mp sorted
    unfold insertNew
    split
    · rename_i less
      have absent : ((other,a) :: rest).lookup key = none := by
        apply lookup_eq_none_of_lt
        intro entry member
        rcases List.mem_cons.mp member with here | later
        · rw [here]
          exact less
        · exact less.trans (least entry later)
      rw [lookup_cons_ite,absent]
      rfl
    · split
      · rename_i here
        rw [lookup_cons_ite,lookup_cons_ite,if_pos here.symm,here]
        split <;> rfl
      · rename_i different
        rw [lookup_cons_ite,lookup_cons_ite,lookup_cons_ite,ih others,if_neg (Ne.symm different)]
        by_cases first : k = other
        · rw [if_pos first,if_pos first,if_neg fun same => different (first.symm.trans same)]
        · rw [if_neg first,if_neg first]

@[simp] theorem keys_modify (key : κ) (f : α → α) (dict : List (κ × α)) :
    (modify key f dict).map Prod.fst = dict.map Prod.fst := by
  rw [modify,List.map_map]
  apply List.map_congr_left
  intro entry _
  change (if entry.1 = key then _ else _ : κ × α).1 = entry.1
  split <;> rfl

theorem sortedKeys_modify {key : κ} {f : α → α} {dict : List (κ × α)} (sorted : SortedKeys dict) :
    SortedKeys (modify key f dict) := by
  rw [SortedKeys,keys_modify]
  exact sorted

theorem lookup_modify (key : κ) (f : α → α) (dict : List (κ × α)) (k : κ) :
    (modify key f dict).lookup k = if k = key then (dict.lookup k).map f else dict.lookup k := by
  induction dict with
  | nil => simp [modify]
  | cons first rest ih =>
    obtain ⟨other,a⟩ := first
    rw [modify,List.map_cons,← modify]
    by_cases here : other = key
    · rw [if_pos here,lookup_cons_ite,lookup_cons_ite,ih,here]
      by_cases same : k = key <;> simp [same]
    · rw [if_neg here,lookup_cons_ite,lookup_cons_ite,ih]
      by_cases same : k = other
      · rw [if_pos same,if_pos same,if_neg fun equal => here (same.symm.trans equal)]
      · rw [if_neg same,if_neg same]

end WebSearch.Library
