import WebSearch.ProtoJsonFormat
import Mathlib.Data.List.Forall2

/-! Messages of a schema, and what `WriteToValue` makes of them: an object with one
member for each slot that has a value. -/
namespace WebSearch.ProtoJsonFormat
open JsonValue StringUtil

variable {τ : Type}

def Scalar.typed : Scalar → Kind τ → Bool
  | .int32 _, .int32 | .int64 _, .int64 | .uint32 _, .uint32 | .uint64 _, .uint64 | .bool _, .bool => true
  | .enum number, .enum numbers => numbers.contains number
  | .string value, .string => !value.contains 0
  | _, _ => false

mutual
def typedSlots (schema : Schema τ) : Slots → List (Field τ) → Bool
  | slot :: slots, field :: fields =>
    ((field.label == .repeated || slot.length ≤ 1) && typedValues schema slot field.kind) &&
      typedSlots schema slots fields
  | [], [] => true
  | _, _ => false

def typedValues (schema : Schema τ) : List Value → Kind τ → Bool
  | value :: values, kind => typedValue schema value kind && typedValues schema values kind
  | [], _ => true

def typedValue (schema : Schema τ) : Value → Kind τ → Bool
  | .scalar value, kind => value.typed kind
  | .message slots, .message t => typedSlots schema slots (schema.fields t)
  | .message _, _ => false
end

/-- A message of type `t`. Strings are NUL-free, enum numbers are declared, and no field
of kind double or float has a value. -/
structure Message (schema : Schema τ) (t : τ) where
  slots : Slots
  typed : typedSlots schema slots (schema.fields t) = true

def Value.isEmptyMessage : Value → Bool
  | .scalar _ => false
  | .message slots => slots.all List.isEmpty

/-- What a slot may hold to be carried over by JSON: no enum when it is repeated,
and no empty message when it is not. -/
def slotCarried (slot : List Value) (field : Field τ) : Bool :=
  match field.label, field.kind with
  | .repeated, .enum _ => slot.isEmpty
  | .repeated, _ => true
  | _, _ => !slot.any Value.isEmptyMessage

mutual
def carriedSlots (schema : Schema τ) : Slots → List (Field τ) → Bool
  | slot :: slots, field :: fields =>
    (slotCarried slot field && carriedValues schema slot field.kind) && carriedSlots schema slots fields
  | [], [] => true
  | _, _ => false

def carriedValues (schema : Schema τ) : List Value → Kind τ → Bool
  | value :: values, kind => carriedValue schema value kind && carriedValues schema values kind
  | [], _ => true

def carriedValue (schema : Schema τ) : Value → Kind τ → Bool
  | .scalar _, _ => true
  | .message slots, kind => carriedSlots schema slots (schema.subFields kind)
end

section Slotwise
variable {schema : Schema τ}

theorem typedValues_iff {values : List Value} {kind : Kind τ} :
    typedValues schema values kind = true ↔ ∀ value ∈ values, typedValue schema value kind = true := by
  induction values with
  | nil => simp [typedValues]
  | cons value values ih => simp [typedValues,ih]

theorem carriedValues_iff {values : List Value} {kind : Kind τ} :
    carriedValues schema values kind = true ↔ ∀ value ∈ values, carriedValue schema value kind = true := by
  induction values with
  | nil => simp [carriedValues]
  | cons value values ih => simp [carriedValues,ih]

/-- One slot is well typed. -/
structure SlotTyped (schema : Schema τ) (slot : List Value) (field : Field τ) : Prop where
  single : field.label ≠ .repeated → slot.length ≤ 1
  values : ∀ value ∈ slot, typedValue schema value field.kind = true

def SlotCarried (schema : Schema τ) (slot : List Value) (field : Field τ) : Prop :=
  slotCarried slot field = true ∧ ∀ value ∈ slot, carriedValue schema value field.kind = true

theorem typedSlots_iff {slots : Slots} {fields : List (Field τ)} :
    typedSlots schema slots fields = true ↔ List.Forall₂ (SlotTyped schema) slots fields := by
  induction slots generalizing fields with
  | nil => cases fields <;> simp [typedSlots]
  | cons slot slots ih =>
    cases fields with
    | nil => simp [typedSlots]
    | cons field fields =>
      have head : SlotTyped schema slot field ↔
          ((field.label == .repeated || slot.length ≤ 1) && typedValues schema slot field.kind) = true := by
        rw [Bool.and_eq_true,typedValues_iff,Bool.or_eq_true,beq_iff_eq,decide_eq_true_eq]
        exact ⟨fun typed => ⟨or_iff_not_imp_left.mpr typed.single,typed.values⟩,
          fun typed => ⟨or_iff_not_imp_left.mp typed.1,typed.2⟩⟩
      rw [typedSlots,Bool.and_eq_true,← head,ih,List.forall₂_cons]

theorem carriedSlots_iff {slots : Slots} {fields : List (Field τ)} :
    carriedSlots schema slots fields = true ↔ List.Forall₂ (SlotCarried schema) slots fields := by
  induction slots generalizing fields with
  | nil => cases fields <;> simp [carriedSlots]
  | cons slot slots ih =>
    cases fields with
    | nil => simp [carriedSlots]
    | cons field fields =>
      rw [carriedSlots,Bool.and_eq_true,Bool.and_eq_true,carriedValues_iff,ih,List.forall₂_cons]
      rfl

end Slotwise

def asObject : List (Bytes × Json) → Json
  | [] => .null
  | members => .object members

/-- What the writer makes of the member of a slot with a value. -/
def slotNode (schema : Schema τ) (slot : List Value) (field : Field τ) (node : Json) : Json :=
  if field.label = .repeated then writeRepeated schema slot field .null
  else match slot with
    | value :: _ => writeSingle schema value field node
    | [] => node

section SlotNode
variable {schema : Schema τ} {field : Field τ}

theorem slotNode_repeated (repeated : field.label = .repeated) (slot : List Value) (node : Json) :
    slotNode schema slot field node = writeRepeated schema slot field .null := by
  unfold slotNode
  exact if_pos repeated

theorem slotNode_single (single : field.label ≠ .repeated) (value : Value) (slot : List Value) (node : Json) :
    slotNode schema (value :: slot) field node = writeSingle schema value field node := by
  unfold slotNode
  exact if_neg single

theorem writeToValue_cons (slot : List Value) (slots : Slots) (fields : List (Field τ)) (root : Json) :
    writeToValue schema (slot :: slots) (field :: fields) root = writeToValue schema slots fields
      (if slot.isEmpty then root else root.member field.name (slotNode schema slot field)) := by
  cases slot with
  | nil => rw [writeToValue,List.isEmpty_nil,if_pos rfl,if_pos rfl,ite_self]
  | cons value slot =>
    rw [writeToValue,List.isEmpty_cons,if_neg Bool.false_ne_true,if_neg Bool.false_ne_true]
    by_cases repeated : field.label = .repeated
    · rw [if_pos repeated,funext (slotNode_repeated repeated (value :: slot))]
    · rw [if_neg repeated,funext (slotNode_single repeated value slot)]

end SlotNode

/-- The members of a message: one for each slot with a value. -/
def entries (schema : Schema τ) : Slots → List (Field τ) → List (Bytes × Json)
  | slot :: slots, field :: fields =>
    if slot.isEmpty then entries schema slots fields
    else (field.name,slotNode schema slot field .null) :: entries schema slots fields
  | _, _ => []

theorem entries_sublist (schema : Schema τ) (slots : Slots) (fields : List (Field τ)) :
    ((entries schema slots fields).map Prod.fst).Sublist (fields.map Field.name) := by
  induction slots generalizing fields with
  | nil => simp [entries]
  | cons slot slots ih =>
    cases fields with
    | nil => simp [entries]
    | cons field fields =>
      simp only [entries]
      split
      · exact (ih fields).cons _
      · exact (ih fields).cons_cons _

theorem mem_entries {schema : Schema τ} {slots : Slots} {fields : List (Field τ)} {member : Bytes × Json} :
    member ∈ entries schema slots fields ↔ ∃ (i : Nat) (slot : List Value) (field : Field τ), slots[i]? = some slot ∧ fields[i]? = some field ∧
      slot ≠ [] ∧ member = (field.name,slotNode schema slot field .null) := by
  induction slots generalizing fields with
  | nil => simp [entries]
  | cons slot slots ih =>
    cases fields with
    | nil => simp [entries]
    | cons field fields =>
      rw [← Nat.or_exists_add_one]
      simp only [entries,List.getElem?_cons_zero,List.getElem?_cons_succ,← ih]
      cases slot with
      | nil => simp
      | cons value slot => simp

theorem member_asObject (name : Bytes) (noNul : 0 ∉ name) (change : Json → Json) (members : List (Bytes × Json))
    (fresh : name ∉ members.map Prod.fst) : ∃ after, (asObject members).member name change = asObject after ∧
      after.Perm ((name,change .null) :: members) := by
  have perm := alter_perm name change members fresh
  have some_member : Json.alter name change members ≠ [] :=
    List.ne_nil_of_length_pos (by rw [perm.length_eq,List.length_cons]; exact Nat.succ_pos _)
  have object : asObject (Json.alter name change members) = .object (Json.alter name change members) := by
    obtain ⟨entry,rest,same⟩ := List.exists_cons_of_ne_nil some_member
    rw [same]
    rfl
  refine ⟨Json.alter name change members,?_,perm⟩
  rw [object]
  cases members <;> simp only [asObject,Json.member,cString_eq noNul]

theorem writeToValue_asObject (schema : Schema τ) (slots : Slots) (fields : List (Field τ))
    (members : List (Bytes × Json)) (noNul : ∀ field ∈ fields, 0 ∉ field.name)
    (distinct : (fields.map Field.name).Nodup)
    (fresh : ∀ field ∈ fields, field.name ∉ members.map Prod.fst) :
    ∃ after, writeToValue schema slots fields (asObject members) = asObject after ∧
      after.Perm (entries schema slots fields ++ members) := by
  induction slots generalizing fields members with
  | nil => exact ⟨members,by simp only [writeToValue],by simp only [entries,List.nil_append,List.Perm.refl]⟩
  | cons slot slots ih =>
    cases fields with
    | nil => exact ⟨members,by simp only [writeToValue],by simp only [entries,List.nil_append,List.Perm.refl]⟩
    | cons field fields =>
      obtain ⟨other,distinct⟩ := List.nodup_cons.mp distinct
      have laterNoNul : ∀ later ∈ fields, 0 ∉ later.name := fun later inside => noNul later (List.mem_cons_of_mem _ inside)
      have laterFresh : ∀ later ∈ fields, later.name ∉ members.map Prod.fst :=
        fun later inside => fresh later (List.mem_cons_of_mem _ inside)
      cases present : slot.isEmpty with
      | true =>
        simp only [writeToValue_cons,entries,present,if_true]
        exact ih fields members laterNoNul distinct laterFresh
      | false =>
        obtain ⟨middle,written,perm⟩ := member_asObject field.name (noNul field List.mem_cons_self)
          (slotNode schema slot field) members (fresh field List.mem_cons_self)
        have middleFresh : ∀ later ∈ fields, later.name ∉ middle.map Prod.fst := by
          intro later inside member
          rw [(perm.map Prod.fst).mem_iff,List.map_cons,List.mem_cons] at member
          obtain same | old := member
          · have equal : later.name = field.name := same
            exact other (equal.symm ▸ List.mem_map_of_mem inside)
          · exact laterFresh later inside old
        obtain ⟨after,done,rest⟩ := ih fields middle laterNoNul distinct middleFresh
        refine ⟨after,?_,?_⟩
        · simp only [writeToValue_cons,present,Bool.false_eq_true,if_false,written,done]
        · simp only [entries,present,Bool.false_eq_true,if_false,List.cons_append]
          exact (rest.trans (perm.append_left _)).trans List.perm_middle

end WebSearch.ProtoJsonFormat
