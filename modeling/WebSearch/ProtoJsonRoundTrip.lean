import WebSearch.ProtoJsonWriter
import WebSearch.ProtoJsonMember

/-! Round trips of `ProtoJsonFormat`. Each member that the writer makes acts on the
slot of one field, so a message comes back exactly when each slot does. -/
namespace WebSearch.ProtoJsonFormat
open JsonValue StringUtil

variable {τ : Type} {schema : Schema τ}

/-! The loop over the members. -/

theorem parseMembers_complete {t : τ} {members : List (Bytes × Json)} {slots target : Slots}
    (distinct : (members.map Prod.fst).Nodup) (size : slots.length = (schema.fields t).length)
    (same_size : target.length = slots.length)
    (named : ∀ member ∈ members, ∃ i field, (schema.fields t)[i]? = some field ∧ field.name = member.1 ∧
      applyMember schema field member.2 (slots.getD i []) = .ok (true,target.getD i []))
    (others : ∀ i field, (schema.fields t)[i]? = some field → field.name ∉ members.map Prod.fst →
      slots.getD i [] = target.getD i []) :
    parseMembers schema members t slots = .ok (true,target) := by
  induction members generalizing slots with
  | nil =>
    have equal : slots = target := by
      apply List.ext_getElem same_size.symm
      intro i left right
      have here := others i _ (List.getElem?_eq_getElem (size ▸ left)) List.not_mem_nil
      rwa [List.getD_eq_getElem _ _ left,List.getD_eq_getElem _ _ right] at here
    rw [parseMembers,equal]
  | cons member members ih =>
    obtain ⟨fresh,distinct⟩ := List.nodup_cons.mp distinct
    obtain ⟨i,field,here,name,applied⟩ := named member List.mem_cons_self
    have inside : i < slots.length := size ▸ (List.getElem?_eq_some_iff.mp here).1
    have first : parseMember schema member t slots = .ok (true,slots.set i (target.getD i [])) := by
      have step := parseMember_eq here member.2 slots
      rw [name,applied] at step
      exact step
    have unique {j : Nat} {other : Field τ} (there : (schema.fields t)[j]? = some other)
        (equal : i = j) : other.name = member.1 := by
      rw [← name]
      exact congrArg Field.name (Option.some.inj (there.symm.trans (equal ▸ here)))
    rw [parseMembers,first]
    apply ih distinct (by rw [List.length_set,size]) (by rw [List.length_set,same_size])
    · intro later inside_later
      obtain ⟨j,other,there,other_name,applied⟩ := named later (List.mem_cons_of_mem _ inside_later)
      have apart : ¬i = j := by
        intro equal
        apply fresh
        rw [← unique there equal,other_name]
        exact List.mem_map_of_mem inside_later
      refine ⟨j,other,there,other_name,?_⟩
      rwa [getD_set _ _ _ _ inside,if_neg apart]
    · intro j other there absent
      rw [getD_set _ _ _ _ inside]
      split
      · next equal => rw [equal]
      · next apart =>
        apply others j other there
        rw [List.map_cons,List.mem_cons,not_or]
        refine ⟨?_,absent⟩
        intro equal
        apply apart
        have first := findFieldByName_eq (schema.distinct t) here
        have second := findFieldByName_eq (schema.distinct t) there
        rw [name,← equal] at first
        exact congrArg Prod.fst (Option.some.inj (first.symm.trans second))

theorem parseMembers_sound {t : τ} {members : List (Bytes × Json)} {slots after : Slots} {parsed : Bool}
    (distinct : (members.map Prod.fst).Nodup) (size : slots.length = (schema.fields t).length)
    (known : ∀ member ∈ members, member.1 ∈ (schema.fields t).map Field.name)
    (done : parseMembers schema members t slots = .ok (parsed,after)) {i : Nat} {field : Field τ}
    (here : (schema.fields t)[i]? = some field) :
    after.getD i [] = slots.getD i [] ∨ ∃ member ∈ members, member.1 = field.name ∧
      ∃ applied, applyMember schema field member.2 (slots.getD i []) = .ok (applied,after.getD i []) := by
  induction members generalizing slots with
  | nil =>
    rw [parseMembers] at done
    injection done with done
    injection done with _ same
    exact .inl (congrArg (List.getD · i []) same.symm)
  | cons member members ih =>
    obtain ⟨fresh,distinct⟩ := List.nodup_cons.mp distinct
    obtain ⟨other,inside_fields,name⟩ := List.mem_map.mp (known member List.mem_cons_self)
    obtain ⟨j,inside_j,same⟩ := List.mem_iff_getElem.mp inside_fields
    have there : (schema.fields t)[j]? = some other := List.getElem?_eq_some_iff.mpr ⟨inside_j,same⟩
    have inside : j < slots.length := size ▸ inside_j
    have step := parseMember_eq there member.2 slots
    rw [name] at step
    rw [parseMembers,show parseMember schema member t slots = _ from step] at done
    cases applied : applyMember schema other member.2 (slots.getD j []) with
    | error failure =>
      rw [applied] at done
      cases done
    | ok outcome =>
      obtain ⟨continues,slot⟩ := outcome
      rw [applied] at done
      have effect : (slots.set j slot).getD i [] = slots.getD i [] ∧ j ≠ i ∨ j = i ∧ other = field ∧
          (slots.set j slot).getD i [] = slot := by
        rw [getD_set _ _ _ _ inside]
        split
        · next equal =>
          subst equal
          exact .inr ⟨rfl,Option.some.inj (there.symm.trans here),rfl⟩
        · next apart => exact .inl ⟨rfl,apart⟩
      have stop (stopped : after.getD i [] = (slots.set j slot).getD i []) : after.getD i [] = slots.getD i [] ∨
          ∃ cause ∈ member :: members, cause.1 = field.name ∧
            ∃ applied, applyMember schema field cause.2 (slots.getD i []) = .ok (applied,after.getD i []) := by
        obtain ⟨same,_⟩ | ⟨equal,same_field,same⟩ := effect
        · exact .inl (stopped.trans same)
        · rw [equal,same_field] at applied
          exact .inr ⟨member,List.mem_cons_self,by rw [← name,same_field],continues,by rw [stopped,same,applied]⟩
      cases continues with
      | false =>
        injection done with done
        injection done with _ same
        exact stop (congrArg (List.getD · i []) same.symm)
      | true =>
        obtain old | ⟨later,inside_later,later_name,parsed,later_applied⟩ :=
          ih distinct (by rw [List.length_set,size]) (fun later inside => known later (List.mem_cons_of_mem _ inside)) done
        · exact stop old
        · obtain ⟨same,_⟩ | ⟨_,same_field,_⟩ := effect
          · rw [same] at later_applied
            exact .inr ⟨later,List.mem_cons_of_mem _ inside_later,later_name,parsed,later_applied⟩
          · apply absurd _ fresh
            rw [← name,same_field,← later_name]
            exact List.mem_map_of_mem inside_later

/-! Scalars. -/

theorem createNode_isNull (value : Scalar) : (createNode value).isNull = false := by
  cases value <;> rfl

theorem createNode_int64 (value : Int64) : createNode (.int64 value) = .string (int64ToString value) := by
  have lower := value.le_toInt
  have upper := value.toInt_lt
  exact congrArg Json.string (cString_eq (intToString_noNul value.toInt (by omega) (by omega)))

theorem createNode_uint64 (value : UInt64) : createNode (.uint64 value) = .string (uint64ToString value) := by
  have upper := value.toNat_lt
  exact congrArg Json.string (cString_eq (intToString_noNul value.toNat (by omega) (by omega)))

theorem setSingle_createNode (schema : Schema τ) {value : Scalar} {kind : Kind τ} (typed : value.typed kind = true)
    (parse : τ → Slots → Result (Bool × Slots)) (slot : List Value) :
    setSingleValueForMessage schema parse kind (createNode value) slot = .ok (true,[.scalar value]) := by
  unfold Scalar.typed at typed
  split at typed
  · rfl
  · next value =>
    rw [createNode_int64]
    change Except.ok (if (stringToInt64 (int64ToString value)).1 then
      (true,[Value.scalar (.int64 (stringToInt64 (int64ToString value)).2)]) else (false,slot)) = _
    rw [stringToInt64_int64ToString]
    rfl
  · rfl
  · next value =>
    rw [createNode_uint64]
    simp only [setSingleValueForMessage,Json.asString,bind,Except.bind,stringToUint64_uint64ToString]
    rfl
  · rfl
  · next number numbers =>
    have declared : number ∈ numbers := List.contains_iff_mem.mp typed
    change (if number ∈ numbers then Except.ok (true,[Value.scalar (.enum number)]) else Except.error Abnormal.nullEnum) = _
    rw [if_pos declared]
  · next value =>
    have noNul : 0 ∉ value := by simpa using typed
    change Except.ok (true,[Value.scalar (.string (cString value))]) = _
    rw [cString_eq noNul]
  · exact absurd typed Bool.noConfusion

theorem setRepeated_createNode {value : Scalar} {kind : Kind τ} (typed : value.typed kind = true)
    (not_enum : ∀ numbers, kind ≠ .enum numbers) (parse : τ → Slots → Result (Bool × Slots)) (slot : List Value) :
    setRepeatedValueForMessage schema parse kind (createNodeOfRepeatedFiled value) slot =
      .ok (true,slot ++ [.scalar value]) := by
  have single := setSingle_createNode schema typed parse []
  have node : createNodeOfRepeatedFiled value = createNode value := by
    cases value with
    | enum number =>
      cases kind with
      | enum numbers => exact absurd rfl (not_enum numbers)
      | _ => exact absurd typed Bool.noConfusion
    | _ => rfl
  have not_message : ∀ t, kind ≠ .message t := by
    intro t message
    rw [message] at typed
    cases value <;> exact absurd typed Bool.noConfusion
  rw [node,setRepeated_scalar not_enum not_message,single]
  rfl

/-! Repeated fields. -/

theorem writeRepeated_array (values : List Value) (field : Field τ) (items : List Json) :
    writeRepeated schema values field (.array items) = .array (items ++ values.map (writeElement schema · field)) := by
  induction values generalizing items with
  | nil => rw [writeRepeated,List.map_nil,List.append_nil]
  | cons value values ih =>
    simp only [writeRepeated,Json.append,ih,List.map_cons,List.append_assoc,List.singleton_append]

theorem writeRepeated_cons (value : Value) (values : List Value) (field : Field τ) :
    writeRepeated schema (value :: values) field .null = .array ((value :: values).map (writeElement schema · field)) := by
  simp only [writeRepeated,Json.append,writeRepeated_array,List.map_cons,List.singleton_append]

/-- `SetRepeatedValueForMessage` on the element that the writer makes of a value. -/
def setElement (schema : Schema τ) (field : Field τ) (value : Value) (slot : List Value) : Result (Bool × List Value) :=
  setRepeatedValueForMessage schema (fun t sub => parseFromJsonValue schema (writeElement schema value field) t sub)
    field.kind (writeElement schema value field) slot

theorem setRepeatedValues_complete {field : Field τ} {values : List Value}
    (each : ∀ value ∈ values, ∀ slot, setElement schema field value slot = .ok (true,slot ++ [value])) (slot : List Value) :
    setRepeatedValues schema (values.map (writeElement schema · field)) field.kind slot = .ok (true,slot ++ values) := by
  induction values generalizing slot with
  | nil => rw [List.map_nil,setRepeatedValues,List.append_nil]
  | cons value values ih =>
    rw [List.map_cons,setRepeatedValues]
    have first := each value List.mem_cons_self slot
    unfold setElement at first
    rw [first]
    change setRepeatedValues schema _ field.kind (slot ++ [value]) = _
    rw [ih (fun value member => each value (List.mem_cons_of_mem _ member)),List.append_assoc,List.singleton_append]

theorem setRepeatedValues_prefix {t : τ} {items : List Json} {slot after : List Value} {parsed : Bool}
    (done : setRepeatedValues schema items (.message t) slot = .ok (parsed,after)) : slot <+: after := by
  induction items generalizing slot with
  | nil =>
    rw [setRepeatedValues] at done
    injection done with done
    injection done with _ same
    exact ⟨[],by rw [List.append_nil,same]⟩
  | cons node items ih =>
    rw [setRepeatedValues,setRepeatedValueForMessage] at done
    cases sub : parseFromJsonValue schema node t (schema.empty t) with
    | error failure =>
      rw [sub] at done
      cases done
    | ok outcome =>
      rw [sub] at done
      exact (List.prefix_append slot [.message outcome.2]).trans (ih done)

theorem setRepeatedValues_sound {field : Field τ} {t : τ} (kind : field.kind = .message t) {values slot : List Value}
    {parsed : Bool}
    (done : setRepeatedValues schema (values.map (writeElement schema · field)) (.message t) slot = .ok (parsed,slot ++ values)) :
    ∀ sub, .message sub ∈ values → ∃ parsed, roundTrip schema t sub = .ok (parsed,sub) := by
  induction values generalizing slot with
  | nil =>
    intro sub member
    exact absurd member List.not_mem_nil
  | cons value values ih =>
    rw [List.map_cons,setRepeatedValues,setRepeatedValueForMessage] at done
    cases parsed : parseFromJsonValue schema (writeElement schema value field) t (schema.empty t) with
    | error failure =>
      rw [parsed] at done
      cases done
    | ok outcome =>
      rw [parsed] at done
      change setRepeatedValues schema _ _ (slot ++ [.message outcome.2]) = _ at done
      have same : value = .message outcome.2 := by
        have start := setRepeatedValues_prefix done
        rw [List.prefix_append_right_inj] at start
        exact (List.cons_prefix_cons.mp start).1.symm
      have split_end : slot ++ value :: values = slot ++ [.message outcome.2] ++ values := by
        rw [same,List.append_assoc,List.singleton_append]
      rw [split_end] at done
      have rest := ih done
      intro sub member
      obtain first | later := List.mem_cons.mp member
      · rw [same] at first
        injection first with first
        rw [same] at parsed
        simp only [writeElement,kind,Schema.subFields] at parsed
        exact ⟨outcome.1,by rw [roundTrip,first,parsed]⟩
      · exact rest sub later

/-! One slot. -/

theorem slots_induction {P : Slots → Prop}
    (step : ∀ slots, (∀ slot ∈ slots, ∀ sub, Value.message sub ∈ slot → P sub) → P slots) (slots : Slots) : P slots :=
  step slots fun slot inside sub member =>
    have : sizeOf sub < sizeOf slots := by
      have outer := List.sizeOf_lt_of_mem inside
      have inner := List.sizeOf_lt_of_mem member
      have whole := Value.message.sizeOf_spec sub
      omega
    slots_induction step sub
  termination_by sizeOf slots

/-- A message comes back when it is carried over, and only then. -/
structure Returns (schema : Schema τ) (t : τ) (slots : Slots) : Prop where
  complete : carriedSlots schema slots (schema.fields t) = true → roundTrip schema t slots = .ok (true,slots)
  sound : ∀ parsed, roundTrip schema t slots = .ok (parsed,slots) → carriedSlots schema slots (schema.fields t) = true

theorem writeToValue_entries (schema : Schema τ) (t : τ) (slots : Slots) :
    ∃ after, writeToValue schema slots (schema.fields t) .null = asObject after ∧
      after.Perm (entries schema slots (schema.fields t)) := by
  obtain ⟨after,written,perm⟩ := writeToValue_asObject schema slots (schema.fields t) [] (schema.name_no_nul t)
    (schema.distinct t) fun _ _ => List.not_mem_nil
  rw [List.append_nil] at perm
  exact ⟨after,written,perm⟩

theorem writeToValue_isNull {t : τ} {sub : Slots} (typed : typedSlots schema sub (schema.fields t) = true) :
    (writeToValue schema sub (schema.fields t) .null).isNull = (Value.message sub).isEmptyMessage := by
  obtain ⟨after,written,perm⟩ := writeToValue_entries schema t sub
  have null : (asObject after).isNull = true ↔ entries schema sub (schema.fields t) = [] := by
    cases after with
    | nil => exact ⟨fun _ => perm.nil_eq.symm,fun _ => rfl⟩
    | cons member after => exact ⟨fun object => absurd object Bool.noConfusion,fun none => by
        rw [none] at perm
        exact absurd perm.eq_nil (List.cons_ne_nil _ _)⟩
  have empty : entries schema sub (schema.fields t) = [] ↔ (Value.message sub).isEmptyMessage = true := by
    have size := (typedSlots_iff.mp typed).length_eq
    rw [List.eq_nil_iff_forall_not_mem]
    simp only [Value.isEmptyMessage,List.all_eq_true,mem_entries,List.isEmpty_iff]
    constructor
    · intro none slot member
      obtain ⟨i,inside,same⟩ := List.mem_iff_getElem.mp member
      by_contra filled
      have field_there := List.getElem?_eq_getElem (size ▸ inside)
      exact none _ ⟨i,slot,_,List.getElem?_eq_some_iff.mpr ⟨inside,same⟩,field_there,filled,rfl⟩
    · intro empty member found
      obtain ⟨i,slot,field,there,_,filled,_⟩ := found
      exact filled (empty slot (List.mem_of_getElem? there))
  rw [written,Bool.eq_iff_iff,null,empty]

theorem typedValue_message {sub : Slots} {kind : Kind τ} (typed : typedValue schema (.message sub) kind = true) :
    ∃ t, kind = .message t ∧ typedSlots schema sub (schema.fields t) = true := by
  cases kind with
  | message t => exact ⟨t,rfl,typed⟩
  | _ => exact absurd typed Bool.noConfusion

theorem slotCarried_single {slot : List Value} {field : Field τ} (single : field.label ≠ .repeated) :
    slotCarried slot field = !slot.any Value.isEmptyMessage := by
  unfold slotCarried
  split
  · next label _ => exact absurd label single
  · next label _ => exact absurd label single
  · rfl

section Slot
variable {slot : List Value} {field : Field τ} (typed : SlotTyped schema slot field) (present : slot ≠ [])
variable (subs : ∀ t sub, Value.message sub ∈ slot → typedSlots schema sub (schema.fields t) = true → Returns schema t sub)
include typed present subs

theorem applyMember_complete (carried : SlotCarried schema slot field) :
    applyMember schema field (slotNode schema slot field .null) [] = .ok (true,slot) := by
  obtain ⟨value,rest,rfl⟩ := List.exists_cons_of_ne_nil present
  by_cases repeated : field.label = .repeated
  · have each : ∀ element ∈ value :: rest, ∀ before,
        setElement schema field element before = .ok (true,before ++ [element]) := by
      intro element member before
      have element_typed := typed.values element member
      cases element with
      | scalar scalar =>
        apply setRepeated_createNode element_typed
        intro numbers enum
        have carried := carried.1
        simp only [slotCarried,repeated,enum,List.isEmpty_cons] at carried
        exact Bool.noConfusion carried
      | message sub =>
        obtain ⟨t,kind,sub_typed⟩ := typedValue_message element_typed
        have sub_carried := carried.2 _ member
        simp only [carriedValue,kind,Schema.subFields] at sub_carried
        have back := (subs t sub member sub_typed).complete sub_carried
        simp only [setElement,setRepeatedValueForMessage,writeElement,kind,Schema.subFields]
        rw [roundTrip] at back
        rw [back]
        rfl
    have all := setRepeatedValues_complete each []
    rw [slotNode_repeated repeated,writeRepeated_cons,applyMember_array repeated]
    exact all
  · have alone : rest = [] := List.eq_nil_of_length_eq_zero (Nat.le_zero.mp (Nat.le_of_succ_le_succ (typed.single repeated)))
    subst alone
    have value_typed := typed.values value List.mem_cons_self
    cases value with
    | scalar scalar =>
      rw [slotNode_single repeated,writeSingle,applyMember,createNode_isNull,if_neg Bool.false_ne_true,if_neg repeated,setSingle_createNode schema value_typed]
    | message sub =>
      obtain ⟨t,kind,sub_typed⟩ := typedValue_message value_typed
      have sub_carried := carried.2 _ List.mem_cons_self
      have not_empty := carried.1
      rw [slotCarried_single repeated,List.any_cons,List.any_nil,Bool.or_false,Bool.not_eq_true'] at not_empty
      simp only [carriedValue,kind,Schema.subFields] at sub_carried
      have back := (subs t sub List.mem_cons_self sub_typed).complete sub_carried
      rw [roundTrip] at back
      rw [slotNode_single repeated,writeSingle]
      simp only [applyMember,kind,Schema.subFields,writeToValue_isNull sub_typed,not_empty,Bool.false_eq_true,if_false,
        repeated,setSingleValueForMessage,back]
      rfl

theorem applyMember_sound {parsed : Bool}
    (done : applyMember schema field (slotNode schema slot field .null) [] = .ok (parsed,slot)) :
    SlotCarried schema slot field := by
  obtain ⟨value,rest,rfl⟩ := List.exists_cons_of_ne_nil present
  by_cases repeated : field.label = .repeated
  · rw [slotNode_repeated repeated,writeRepeated_cons,applyMember_array repeated] at done
    constructor
    · cases kind : field.kind with
      | enum numbers =>
        rw [kind,List.map_cons,setRepeatedValues] at done
        cases done
      | _ => simp only [slotCarried,repeated,kind]
    · intro element member
      have element_typed := typed.values element member
      cases element with
      | scalar scalar => rfl
      | message sub =>
        obtain ⟨t,kind,sub_typed⟩ := typedValue_message element_typed
        rw [kind] at done
        have from_empty : _ = Except.ok (parsed,[] ++ (value :: rest)) := done
        obtain ⟨parsed,back⟩ := setRepeatedValues_sound kind from_empty sub member
        simp only [carriedValue,kind,Schema.subFields]
        exact (subs t sub member sub_typed).sound parsed back
  · have alone : rest = [] := List.eq_nil_of_length_eq_zero (Nat.le_zero.mp (Nat.le_of_succ_le_succ (typed.single repeated)))
    subst alone
    have value_typed := typed.values value List.mem_cons_self
    rw [SlotCarried,slotCarried_single repeated,List.any_cons,List.any_nil,Bool.or_false,List.forall_mem_singleton]
    cases value with
    | scalar scalar => exact ⟨rfl,rfl⟩
    | message sub =>
      obtain ⟨t,kind,sub_typed⟩ := typedValue_message value_typed
      rw [slotNode_single repeated,writeSingle] at done
      simp only [applyMember,kind,Schema.subFields,writeToValue_isNull sub_typed] at done
      split at done
      · cases done
      · next not_empty =>
        refine ⟨by simpa using not_empty,?_⟩
        simp only [setSingleValueForMessage] at done
        simp only [carriedValue,kind,Schema.subFields]
        cases back : parseFromJsonValue schema (writeToValue schema sub (schema.fields t) .null) t (schema.empty t) with
        | error failure =>
          rw [back] at done
          cases done
        | ok outcome =>
          rw [back] at done
          obtain ⟨sub_parsed,after⟩ := outcome
          have same : after = sub := by
            injection done with done
            injection done with _ same
            injection same with same
            injection same
          exact (subs t sub List.mem_cons_self sub_typed).sound sub_parsed (same ▸ back)

end Slot

/-! Whole messages. -/

theorem roundTrip_members (schema : Schema τ) (t : τ) (slots : Slots) : ∃ members,
    roundTrip schema t slots = parseMembers schema members t (schema.empty t) ∧
      members.Perm (entries schema slots (schema.fields t)) := by
  obtain ⟨after,written,perm⟩ := writeToValue_entries schema t slots
  refine ⟨after,?_,perm⟩
  rw [roundTrip,written]
  cases after with
  | nil => rw [asObject,parseFromJsonValue,parseMembers]
  | cons member after => rfl

theorem forall₂_getElem? {R : List Value → Field τ → Prop} {slots : Slots} {fields : List (Field τ)} :
    List.Forall₂ R slots fields ↔ slots.length = fields.length ∧
      ∀ (i : Nat) (slot : List Value) (field : Field τ), slots[i]? = some slot → fields[i]? = some field → R slot field := by
  rw [List.forall₂_iff_get]
  apply and_congr_right
  intro _
  constructor
  · intro related i slot field there here
    obtain ⟨left,rfl⟩ := List.getElem?_eq_some_iff.mp there
    obtain ⟨right,rfl⟩ := List.getElem?_eq_some_iff.mp here
    exact related i left right
  · intro related i left right
    exact related i _ _ (List.getElem?_eq_getElem left) (List.getElem?_eq_getElem right)

theorem slotCarried_nil (field : Field τ) : SlotCarried schema [] field := by
  constructor
  · unfold slotCarried
    split <;> rfl
  · intro value member
    exact absurd member List.not_mem_nil

theorem returns (slots : Slots) : ∀ t, typedSlots schema slots (schema.fields t) = true → Returns schema t slots := by
  induction slots using slots_induction with
  | step slots ih =>
    intro t typed
    obtain ⟨same_size,at_slot⟩ := forall₂_getElem?.mp (typedSlots_iff.mp typed)
    obtain ⟨members,trip,perm⟩ := roundTrip_members schema t slots
    have size : (schema.empty t).length = (schema.fields t).length := List.length_map _
    have distinct : (members.map Prod.fst).Nodup := by
      rw [(perm.map Prod.fst).nodup_iff]
      exact (schema.distinct t).sublist (entries_sublist schema slots _)
    have slot_subs {slot : List Value} (inside : slot ∈ slots) : ∀ t sub, Value.message sub ∈ slot →
        typedSlots schema sub (schema.fields t) = true → Returns schema t sub :=
      fun t sub member => ih slot inside sub member t
    constructor
    · intro carried
      obtain ⟨_,carried⟩ := forall₂_getElem?.mp (carriedSlots_iff.mp carried)
      rw [trip]
      apply parseMembers_complete distinct size (by rw [size,same_size])
      · intro member inside
        obtain ⟨i,slot,field,there,here,filled,same⟩ := mem_entries.mp (perm.mem_iff.mp inside)
        have applied := applyMember_complete (at_slot i slot field there here) filled
          (slot_subs (List.mem_of_getElem? there)) (carried i slot field there here)
        refine ⟨i,field,here,by rw [same],?_⟩
        rw [empty_getD,same,List.getD_eq_getElem?_getD,there]
        exact applied
      · intro i field here absent
        rw [empty_getD,List.getD_eq_getElem?_getD]
        cases there : slots[i]? with
        | none => rfl
        | some slot =>
          by_contra filled
          apply absent
          have member : (field.name,slotNode schema slot field .null) ∈ entries schema slots (schema.fields t) :=
            mem_entries.mpr ⟨i,slot,field,there,here,Ne.symm filled,rfl⟩
          exact List.mem_map.mpr ⟨_,perm.mem_iff.mpr member,rfl⟩
    · intro parsed done
      rw [trip] at done
      apply carriedSlots_iff.mpr
      apply forall₂_getElem?.mpr
      refine ⟨same_size,?_⟩
      intro i slot field there here
      by_cases filled : slot = []
      · rw [filled]
        exact slotCarried_nil field
      · have known : ∀ member ∈ members, member.1 ∈ (schema.fields t).map Field.name := fun member inside =>
          (entries_sublist schema slots _).subset ((perm.map Prod.fst).mem_iff.mp (List.mem_map_of_mem inside))
        have value : slots.getD i [] = slot := by
          rw [List.getD_eq_getElem?_getD,there]
          rfl
        obtain old | ⟨member,inside,name,parsed,applied⟩ := parseMembers_sound distinct size known done here
        · rw [empty_getD,value] at old
          exact absurd old filled
        · obtain ⟨j,other,other_field,other_there,other_here,_,same⟩ := mem_entries.mp (perm.mem_iff.mp inside)
          have names : other_field.name = field.name := by rw [← name,same]
          have first := findFieldByName_eq (schema.distinct t) here
          have second := findFieldByName_eq (schema.distinct t) other_here
          rw [names,first] at second
          injection second with second
          injection second with position same_field
          rw [← position,there] at other_there
          injection other_there with same_slot
          rw [empty_getD,value,same,← same_slot,← same_field] at applied
          exact applyMember_sound (at_slot i slot field there here) filled (slot_subs (List.mem_of_getElem? there)) applied

/-- One message type with an optional sub-message of itself and a repeated enum. -/
def nested : Schema Unit where
  fields _ := [⟨[110,101,120,116],.optional,.message ()⟩,⟨[107,105,110,100,115],.repeated,.enum [0,1]⟩]
  distinct _ := by simp
  name_no_nul _ := by simp

def withEmptyNext : Message nested () := ⟨[[.message [[],[]]],[]],by decide⟩
def withKind : Message nested () := ⟨[[],[.scalar (.enum 1)]],by decide⟩

end WebSearch.ProtoJsonFormat
