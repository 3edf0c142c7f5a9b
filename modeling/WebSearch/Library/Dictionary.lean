import Mathlib.Data.List.Basic

/-! Association lists as dictionaries: the first entry of a key counts. -/
namespace WebSearch.Library

variable {κ α : Type} [DecidableEq κ]

def put (key : κ) (value : α) : List (κ × α) → List (κ × α)
  | [] => [(key,value)]
  | (k,a) :: rest => if k = key then (key,value) :: rest else (k,a) :: put key value rest

theorem lookup_cons_ite (key : κ) (value : α) (rest : List (κ × α)) (k : κ) :
    ((key,value) :: rest).lookup k = if k = key then some value else rest.lookup k := by
  rw [List.lookup_cons]
  by_cases same : k = key
  · simp [same]
  · rw [if_neg same,beq_false_of_ne same]

@[simp] theorem lookup_put (dict : List (κ × α)) (key : κ) (value : α) (k : κ) :
    (put key value dict).lookup k = if k = key then some value else dict.lookup k := by
  induction dict with
  | nil => exact lookup_cons_ite key value [] k
  | cons entry rest ih =>
    obtain ⟨other,a⟩ := entry
    unfold put
    split
    · rename_i here
      rw [lookup_cons_ite,lookup_cons_ite,here]
      split <;> rfl
    · rename_i here
      rw [lookup_cons_ite,lookup_cons_ite,ih]
      by_cases first : k = other
      · rw [if_pos first,if_pos first,if_neg fun same => here (first.symm.trans same)]
      · rw [if_neg first,if_neg first]

theorem lookup_filter (keep : κ → Bool) (dict : List (κ × α)) (k : κ) :
    (dict.filter fun entry => keep entry.1).lookup k = if keep k then dict.lookup k else none := by
  induction dict with
  | nil => simp
  | cons entry rest ih =>
    obtain ⟨other,a⟩ := entry
    rw [List.filter_cons,lookup_cons_ite]
    by_cases first : k = other
    · subst first
      cases kept : keep k <;> simp [kept,ih]
    · cases kept : keep other <;> simp [ih,lookup_cons_ite,first]

/-- Equality of dictionaries. -/
def sameDict [DecidableEq α] (first second : List (κ × α)) : Bool :=
  (first ++ second).all fun entry => first.lookup entry.1 = second.lookup entry.1

theorem sameDict_iff [DecidableEq α] {first second : List (κ × α)} :
    sameDict first second = true ↔ ∀ k, first.lookup k = second.lookup k := by
  simp only [sameDict,List.all_eq_true,decide_eq_true_eq]
  constructor
  · intro same k
    by_cases present : ∃ entry ∈ first ++ second, k = entry.1
    · obtain ⟨entry,member,here⟩ := present
      rw [here]
      exact same entry member
    · have absent (entry : κ × α) (member : entry ∈ first ++ second) : (k != entry.1) = true :=
        bne_iff_ne.mpr fun here => present ⟨entry,member,here⟩
      rw [List.lookup_eq_none_iff.mpr fun entry member => absent entry (List.mem_append_left _ member),
        List.lookup_eq_none_iff.mpr fun entry member => absent entry (List.mem_append_right _ member)]
  · intro same entry _
    exact same entry.1

/-! Keys and what is found. -/
section Keys
variable {β : Type} [BEq β] [LawfulBEq β] {dict : List (β × α)} {k : β}

theorem lookup_isSome_iff_key : (dict.lookup k).isSome = true ↔ k ∈ dict.map Prod.fst := by
  induction dict with
  | nil => simp
  | cons entry rest ih =>
    rw [List.lookup_cons,List.map_cons,List.mem_cons,← ih]
    by_cases same : k = entry.1
    · simp [same]
    · simp [beq_false_of_ne same,same]

theorem lookup_of_not_key (absent : k ∉ dict.map Prod.fst) : dict.lookup k = none := by
  rw [← Option.not_isSome_iff_eq_none,lookup_isSome_iff_key]
  exact absent

theorem mem_of_lookup {value : α} (found : dict.lookup k = some value) : (k,value) ∈ dict := by
  obtain ⟨front,back,split,_⟩ := List.lookup_eq_some_iff.mp found
  simp [split]

theorem lookup_of_mem_nodup {value : α} (distinct : (dict.map Prod.fst).Nodup) (member : (k,value) ∈ dict) :
    dict.lookup k = some value := by
  induction dict with
  | nil => exact absurd member List.not_mem_nil
  | cons entry rest ih =>
    obtain ⟨absent,later⟩ := List.nodup_cons.mp distinct
    rw [List.lookup_cons]
    rcases List.mem_cons.mp member with rfl | there
    · simp
    · have other : k ≠ entry.1 := fun same => absent (same ▸ List.mem_map_of_mem there)
      rw [beq_false_of_ne other]
      exact ih later there

end Keys

/-! Dictionaries put into one another. -/

/-- The keys stay where one of them is put again. -/
theorem keys_put {key : κ} (value : α) {dict : List (κ × α)} (present : key ∈ dict.map Prod.fst) :
    (put key value dict).map Prod.fst = dict.map Prod.fst := by
  induction dict with
  | nil => exact absurd present List.not_mem_nil
  | cons entry rest ih =>
    obtain ⟨k,a⟩ := entry
    unfold put
    split
    next same => rw [List.map_cons,List.map_cons,same]
    next other =>
      rcases List.mem_cons.mp present with here | later
      · exact absurd here.symm other
      · rw [List.map_cons,ih later,List.map_cons]

theorem put_absent {key : κ} (value : α) {dict : List (κ × α)} (absent : key ∉ dict.map Prod.fst) :
    put key value dict = dict ++ [(key,value)] := by
  induction dict with
  | nil => rfl
  | cons entry rest ih =>
    rw [List.map_cons,List.mem_cons,not_or] at absent
    obtain ⟨other,later⟩ := absent
    rw [put,if_neg (Ne.symm other),ih later]
    rfl

/-- All the entries of a dictionary are put into another one. -/
def putEach (dict entries : List (κ × α)) : List (κ × α) := entries.foldl (fun dict entry => put entry.1 entry.2 dict) dict

theorem lookup_putEach (dict : List (κ × α)) {entries : List (κ × α)} (distinct : (entries.map Prod.fst).Nodup) (k : κ) :
    (putEach dict entries).lookup k = (entries.lookup k).or (dict.lookup k) := by
  induction entries generalizing dict with
  | nil => simp [putEach]
  | cons entry entries ih =>
    obtain ⟨key,value⟩ := entry
    obtain ⟨absent,rest⟩ := List.nodup_cons.mp distinct
    rw [putEach,List.foldl_cons,← putEach,ih _ rest,lookup_put,lookup_cons_ite]
    split
    next same =>
      have none : entries.lookup k = none := lookup_of_not_key (same ▸ absent)
      rw [none,Option.none_or,Option.some_or]
    next => rfl

theorem keys_putEach {dict entries : List (κ × α)} (present : ∀ entry ∈ entries, entry.1 ∈ dict.map Prod.fst) :
    (putEach dict entries).map Prod.fst = dict.map Prod.fst := by
  induction entries generalizing dict with
  | nil => rfl
  | cons entry entries ih =>
    have same := keys_put entry.2 (present entry List.mem_cons_self)
    rw [putEach,List.foldl_cons,← putEach,ih,same]
    intro other member
    rw [same]
    exact present other (List.mem_cons_of_mem entry member)

end WebSearch.Library
