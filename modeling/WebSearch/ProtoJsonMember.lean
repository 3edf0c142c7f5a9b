import WebSearch.ProtoJsonFormat
import Mathlib.Data.List.GetD
import Mathlib.Data.List.Nodup

/-! One member of a JSON object acts on the slot of one field. -/
namespace WebSearch.ProtoJsonFormat
open JsonValue

variable {τ : Type} {schema : Schema τ}

/-- What `parseMember` does to the slot of the field that it finds. -/
def applyMember (schema : Schema τ) (field : Field τ) (node : Json) (slot : List Value) : Result (Bool × List Value) :=
  if node.isNull then .ok (decide (field.label ≠ .required),slot)
  else if field.label = .repeated then setArrayForMessage schema node field.kind slot
  else setSingleValueForMessage schema (fun t sub => parseFromJsonValue schema node t sub) field.kind node slot

theorem applyMember_array {field : Field τ} (repeated : field.label = .repeated) (items : List Json) (slot : List Value) :
    applyMember schema field (.array items) slot = setRepeatedValues schema items field.kind slot := by
  unfold applyMember
  rw [if_neg (show ¬(Json.array items).isNull = true from Bool.false_ne_true),if_pos repeated,setArrayForMessage]

theorem findFieldByName_eq {fields : List (Field τ)} (distinct : (fields.map Field.name).Nodup) {i : Nat}
    {field : Field τ} (here : fields[i]? = some field) : findFieldByName fields field.name = some (i,field) := by
  obtain ⟨inside,same⟩ := List.getElem?_eq_some_iff.mp here
  have first : fields.findIdx? (fun other => other.name == field.name) = some i := by
    rw [List.findIdx?_eq_some_iff_getElem]
    refine ⟨inside,by rw [same,beq_self_eq_true],?_⟩
    intro j before equal
    have before_end : j < fields.length := by omega
    have names : (fields.map Field.name)[j]? = (fields.map Field.name)[i]? := by
      rw [List.getElem?_map,List.getElem?_map,here,List.getElem?_eq_getElem before_end]
      exact congrArg some (beq_iff_eq.mp equal)
    have position := (List.getElem?_inj (by rwa [List.length_map]) distinct).mp names
    omega
  simp only [findFieldByName,first,here,Option.bind_eq_bind,Option.bind_some,Option.pure_def]

theorem parseMember_eq {t : τ} {i : Nat} {field : Field τ} (here : (schema.fields t)[i]? = some field) (node : Json)
    (slots : Slots) : parseMember schema (field.name,node) t slots =
      (applyMember schema field node (slots.getD i [])).map fun outcome => (outcome.1,slots.set i outcome.2) := by
  have unchanged : slots.set i (slots.getD i []) = slots := by
    rw [List.getD_eq_getElem?_getD]
    by_cases inside : i < slots.length
    · rw [List.getElem?_eq_getElem inside,Option.getD_some,List.set_getElem_self]
    · exact List.set_eq_of_length_le (Nat.le_of_not_lt inside)
  rw [parseMember,findFieldByName_eq (schema.distinct t) here]
  unfold applyMember
  simp only []
  split
  · simp only [Except.map,unchanged]
  · split
    · cases setArrayForMessage schema node field.kind (slots.getD i []) <;> rfl
    · cases setSingleValueForMessage schema (fun t sub => parseFromJsonValue schema node t sub) field.kind node
        (slots.getD i []) <;> rfl

theorem findFieldByName_some {fields : List (Field τ)} {name : Bytes} {i : Nat} {field : Field τ}
    (found : findFieldByName fields name = some (i,field)) : fields[i]? = some field ∧ field.name = name := by
  obtain ⟨j,first,found⟩ := Option.bind_eq_some_iff.mp found
  obtain ⟨other,here,same⟩ := Option.bind_eq_some_iff.mp found
  obtain ⟨rfl,rfl⟩ := Prod.mk.inj (Option.some.inj same)
  obtain ⟨inside,equal,_⟩ := List.findIdx?_eq_some_iff_getElem.mp first
  rw [List.getElem?_eq_getElem inside] at here
  exact ⟨by rw [List.getElem?_eq_getElem inside,here],by rw [← Option.some.inj here]; exact beq_iff_eq.mp equal⟩

theorem getD_set (slots : Slots) (i j : Nat) (slot : List Value) (inside : i < slots.length) :
    (slots.set i slot).getD j [] = if i = j then slot else slots.getD j [] := by
  rw [List.getD_eq_getElem?_getD,List.getD_eq_getElem?_getD]
  split
  · next same =>
    rw [← same,List.getElem?_set_self inside,Option.getD_some]
  · next apart =>
    rw [List.getElem?_set_ne apart]

theorem empty_getD (t : τ) (i : Nat) : (schema.empty t).getD i [] = [] := by
  rw [Schema.empty,List.getD_eq_getElem?_getD,List.getElem?_map]
  cases (schema.fields t)[i]? <;> rfl

/-- An element that is no message and no enum is converted like a singular value. -/
theorem setRepeated_scalar {kind : Kind τ} (not_enum : ∀ numbers, kind ≠ .enum numbers) (not_message : ∀ t, kind ≠ .message t)
    {parse : τ → Slots → Result (Bool × Slots)} {node : Json} {slot : List Value} :
    setRepeatedValueForMessage schema parse kind node slot =
      (setSingleValueForMessage schema parse kind node []).map fun outcome => (outcome.1,slot ++ outcome.2) := by
  cases kind with
  | enum numbers => exact absurd rfl (not_enum numbers)
  | message t => exact absurd rfl (not_message t)
  | _ =>
    simp only [setRepeatedValueForMessage]
    cases setSingleValueForMessage schema parse _ node [] <;> rfl

/-- When the results are not looked at, nor is an element that is a message different. -/
theorem setRepeated_ignored {kind : Kind τ} (not_enum : ∀ numbers, kind ≠ .enum numbers)
    {parse : τ → Slots → Result (Bool × Slots)} {node : Json} {slot : List Value} :
    (setRepeatedValueForMessage schema parse kind node slot).map (fun outcome => (true,outcome.2)) =
      ((setSingleValueForMessage schema parse kind node []).map fun outcome => (outcome.1,slot ++ outcome.2)).map
        fun outcome => (true,outcome.2) := by
  by_cases message : ∃ t, kind = .message t
  · obtain ⟨t,rfl⟩ := message
    simp only [setRepeatedValueForMessage,setSingleValueForMessage]
    cases parse t (schema.empty t) <;> rfl
  · rw [setRepeated_scalar not_enum fun t same => message ⟨t,same⟩]

end WebSearch.ProtoJsonFormat
