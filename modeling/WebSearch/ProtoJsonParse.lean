import WebSearch.ProtoJsonFit

/-! `ParseFromValue` and `ParseFromString` do to a value what its fit says. -/
namespace WebSearch.ProtoJsonFormat
open JsonValue StringUtil

variable {τ : Type} {schema : Schema τ}

/-- A slot for each field, in the sub-messages as well. -/
inductive Shaped (schema : Schema τ) : τ → Slots → Prop
  | intro {t : τ} {slots : Slots} : slots.length = (schema.fields t).length →
    (∀ i field, (schema.fields t)[i]? = some field → ∀ u sub, field.kind = .message u →
      Value.message sub ∈ slots.getD i [] → Shaped schema u sub) → Shaped schema t slots

structure Content (schema : Schema τ) (t : τ) where
  slots : Slots
  shaped : Shaped schema t slots

def SlotShaped (schema : Schema τ) (kind : Kind τ) (slot : List Value) : Prop :=
  ∀ t sub, kind = .message t → Value.message sub ∈ slot → Shaped schema t sub

section Shape
variable {t : τ} {slots : Slots} {kind : Kind τ} {slot : List Value} {i : Nat} {field : Field τ}

theorem slotShaped_scalar (scalar : Scalar) : SlotShaped schema kind [.scalar scalar] := by
  intro t sub _ member
  cases List.mem_singleton.mp member

theorem slotShaped_nil : SlotShaped schema kind [] := by
  intro t sub _ member
  exact absurd member List.not_mem_nil

theorem SlotShaped.append {more : List Value} (first : SlotShaped schema kind slot) (second : SlotShaped schema kind more) :
    SlotShaped schema kind (slot ++ more) := by
  intro t sub message member
  rcases List.mem_append.mp member with old | new
  · exact first t sub message old
  · exact second t sub message new

theorem slotShaped_message {sub : Slots} (shaped : Shaped schema t sub) : SlotShaped schema (.message t) [.message sub] := by
  intro u other message member
  obtain rfl := Kind.message.inj message
  obtain rfl := Value.message.inj (List.mem_singleton.mp member)
  exact shaped

theorem Shaped.at_slot (shaped : Shaped schema t slots) (here : (schema.fields t)[i]? = some field) :
    SlotShaped schema field.kind (slots.getD i []) := by
  cases shaped with
  | intro _ subs => exact subs i field here

theorem Shaped.length (shaped : Shaped schema t slots) : slots.length = (schema.fields t).length := by
  cases shaped with
  | intro size _ => exact size

theorem Shaped.inside (shaped : Shaped schema t slots) (here : (schema.fields t)[i]? = some field) : i < slots.length := by
  rw [shaped.length]
  exact (List.getElem?_eq_some_iff.mp here).1

theorem Shaped.set (shaped : Shaped schema t slots) (here : (schema.fields t)[i]? = some field)
    (new : SlotShaped schema field.kind slot) : Shaped schema t (slots.set i slot) := by
  refine .intro (by rw [List.length_set,shaped.length]) fun j other there => ?_
  rw [getD_set _ _ _ _ (shaped.inside here)]
  split
  · rename_i same
    obtain rfl : field = other := Option.some.inj (here.symm.trans (same ▸ there))
    exact new
  · exact shaped.at_slot there

theorem shaped_empty (schema : Schema τ) (t : τ) : Shaped schema t (schema.empty t) := by
  refine .intro (List.length_map _) fun i field _ u sub _ member => ?_
  rw [empty_getD] at member
  exact absurd member List.not_mem_nil

theorem SlotShaped.subMessage (shaped : SlotShaped schema (.message t) slot) : Shaped schema t (subMessage schema t slot) := by
  unfold ProtoJsonFormat.subMessage
  split
  · exact shaped t _ rfl List.mem_cons_self
  · exact shaped_empty schema t

end Shape

/-! What a fit says about the result of a call. -/

def Fit.Describes {α : Type} (fit : Fit) (shaped stored : α → Prop) : Result (Bool × α) → Prop
  | .ok (true,after) => shaped after ∧ (fit = .stored ∧ stored after ∨ fit = .lost)
  | .ok (false,after) => shaped after ∧ fit = .refused
  | .error _ => fit = .broken

section Describes
variable {α β : Type} {fit later : Fit} {shaped stored : α → Prop} {result : Result (Bool × α)}

theorem describes_stored {after : α} (shape : shaped after) (holds : stored after) :
    Fit.stored.Describes shaped stored (.ok (true,after)) :=
  ⟨shape,.inl ⟨rfl,holds⟩⟩

theorem describes_refused {after : α} (shape : shaped after) : Fit.refused.Describes shaped stored (.ok (false,after)) :=
  ⟨shape,rfl⟩

theorem Fit.Describes.map (describes : fit.Describes shaped stored result) {shaped' stored' : β → Prop} (f : α → β)
    (keeps : ∀ a, shaped a → shaped' (f a)) (puts : ∀ a, shaped a → stored a → stored' (f a)) :
    fit.Describes shaped' stored' (result.map fun outcome => (outcome.1,f outcome.2)) := by
  rcases result with failure | ⟨parsed,after⟩
  · exact describes
  · cases parsed with
    | false => exact ⟨keeps after describes.1,describes.2⟩
    | true => exact ⟨keeps after describes.1,describes.2.imp_left fun ⟨fits,holds⟩ => ⟨fits,puts after describes.1 holds⟩⟩

theorem Fit.Describes.unheeded (describes : fit.Describes shaped stored result) :
    fit.unheeded.Describes shaped stored (result.map fun outcome => (true,outcome.2)) := by
  rcases result with failure | ⟨parsed,after⟩
  · obtain rfl : fit = .broken := describes
    exact rfl
  · cases parsed with
    | false =>
      obtain ⟨shape,rfl⟩ := describes
      exact ⟨shape,.inr rfl⟩
    | true =>
      obtain ⟨shape,⟨rfl,holds⟩ | rfl⟩ := describes
      · exact ⟨shape,.inl ⟨rfl,holds⟩⟩
      · exact ⟨shape,.inr rfl⟩

/-- A loop goes on when the part has returned true. -/
theorem Fit.Describes.andThen (describes : fit.Describes shaped stored result) {next : α → Result (Bool × α)}
    {follow : α → α → Prop} (rest : ∀ middle, shaped middle → later.Describes shaped (follow middle) (next middle)) :
    (fit.andThen later).Describes shaped (fun after => ∃ middle, shaped middle ∧ stored middle ∧ follow middle after)
      (result.bind fun outcome => if outcome.1 then next outcome.2 else .ok (false,outcome.2)) := by
  rcases result with failure | ⟨parsed,middle⟩
  · obtain rfl : fit = .broken := describes
    exact rfl
  · cases parsed with
    | false =>
      obtain ⟨shape,rfl⟩ := describes
      exact ⟨shape,rfl⟩
    | true =>
      have follows := rest middle describes.1
      change (fit.andThen later).Describes shaped _ (next middle)
      generalize next middle = outcome at follows ⊢
      rcases outcome with failure | ⟨parsed,after⟩
      · obtain rfl : later = .broken := follows
        obtain ⟨_,⟨rfl,_⟩ | rfl⟩ := describes
        · exact rfl
        · exact rfl
      · cases parsed with
        | false =>
          obtain ⟨shape,rfl⟩ := follows
          obtain ⟨_,⟨rfl,_⟩ | rfl⟩ := describes
          · exact ⟨shape,rfl⟩
          · exact ⟨shape,rfl⟩
        | true =>
          obtain ⟨before,⟨rfl,holds⟩ | rfl⟩ := describes
          · obtain ⟨shape,⟨rfl,also⟩ | rfl⟩ := follows
            · exact ⟨shape,.inl ⟨rfl,middle,before,holds,also⟩⟩
            · exact ⟨shape,.inr rfl⟩
          · obtain ⟨shape,⟨rfl,_⟩ | rfl⟩ := follows
            · exact ⟨shape,.inr rfl⟩
            · exact ⟨shape,.inr rfl⟩

end Describes

theorem Fit.Describes.imp {α : Type} {fit : Fit} {shaped stored stored' : α → Prop} {result : Result (Bool × α)}
    (describes : fit.Describes shaped stored result) (puts : ∀ a, stored a → stored' a) : fit.Describes shaped stored' result := by
  rcases result with failure | ⟨parsed,after⟩
  · exact describes
  · cases parsed with
    | false => exact describes
    | true => exact ⟨describes.1,describes.2.imp_left (And.imp_right (puts after))⟩

/-! Singular fields. -/

/-- Parsing the value for a type does what its fit says. -/
def Parses (schema : Schema τ) (node : Json) : Prop :=
  ∀ t before, Shaped schema t before →
    (fit schema node t).Describes (Shaped schema t) (Stored schema node t before) (parseFromJsonValue schema node t before)

section Single
variable {node : Json} {kind : Kind τ} {before : List Value}

theorem holdsSingle_scalar {scalar : Scalar} (converts : Converts node kind scalar) :
    HoldsSingle schema node kind before [.scalar scalar] :=
  ⟨.scalar scalar,rfl,converts⟩

theorem convertible_describes {α : Type} (result : Result α) (make : α → Scalar)
    (converts : ∀ a, result = .ok a → Converts node kind (make a)) :
    (convertible result).Describes (SlotShaped schema kind) (HoldsSingle schema node kind before)
      (result.map fun a => (true,[.scalar (make a)])) := by
  cases converted : result with
  | error failure => exact rfl
  | ok a => exact ⟨slotShaped_scalar _,.inl ⟨rfl,holdsSingle_scalar (converts a converted)⟩⟩

theorem setSingle_describes (sub : Parses schema node) (kind : Kind τ) (shaped : SlotShaped schema kind before) :
    (fitSingle (fun t => fit schema node t) kind node).Describes (SlotShaped schema kind) (HoldsSingle schema node kind before)
      (setSingleValueForMessage schema (fun t sub => parseFromJsonValue schema node t sub) kind node before) := by
  cases kind with
  | int32 => exact convertible_describes node.asInt .int32 fun _ converted => converted
  | uint32 => exact convertible_describes node.asUInt .uint32 fun _ converted => converted
  | double => exact convertible_describes node.asDouble .double fun _ converted => converted
  | float => exact convertible_describes node.asDouble (fun wide => .float wide.toFloat32) fun wide converted => ⟨wide,converted,rfl⟩
  | string => exact convertible_describes node.asString .string fun _ converted => converted
  | bool => exact ⟨slotShaped_scalar _,.inl ⟨rfl,holdsSingle_scalar rfl⟩⟩
  | int64 =>
    unfold setSingleValueForMessage fitSingle
    cases converted : node.asString with
    | error failure => exact rfl
    | ok text =>
      cases number : stringToInt64 text with
      | mk valid value =>
        cases valid with
        | false =>
          simp only [bind,Except.bind,pure,Except.pure,number,Bool.false_eq_true,if_false]
          exact describes_refused shaped
        | true =>
          simp only [bind,Except.bind,pure,Except.pure,number,if_true]
          exact describes_stored (slotShaped_scalar _) (holdsSingle_scalar ⟨text,converted,number⟩)
  | uint64 =>
    unfold setSingleValueForMessage fitSingle
    cases converted : node.asString with
    | error failure => exact rfl
    | ok text =>
      cases number : stringToUint64 text with
      | none =>
        simp only [bind,Except.bind,pure,Except.pure,number,Option.isSome_none,Bool.false_eq_true,if_false]
        exact describes_refused shaped
      | some value =>
        simp only [bind,Except.bind,pure,Except.pure,number,Option.isSome_some,if_true]
        exact describes_stored (slotShaped_scalar _) (holdsSingle_scalar ⟨text,converted,number⟩)
  | enum numbers =>
    unfold setSingleValueForMessage fitSingle
    cases converted : node.asInt with
    | error failure => exact rfl
    | ok number =>
      by_cases declared : number ∈ numbers
      · simp only [bind,Except.bind,pure,Except.pure,if_pos declared]
        exact describes_stored (slotShaped_scalar _) (holdsSingle_scalar ⟨converted,declared⟩)
      · simp only [bind,Except.bind,if_neg declared]
        exact rfl
  | message t =>
    have parses := sub t (subMessage schema t before) shaped.subMessage
    exact parses.map (fun after => [Value.message after]) (fun after => slotShaped_message)
      fun after _ stored => ⟨.message after,rfl,t,rfl,stored⟩

end Single

/-! Repeated fields. -/
section Repeated
variable {node : Json} {kind : Kind τ} {slot : List Value}

theorem fitElement_eq (fits : τ → Fit) (not_enum : ∀ numbers, kind ≠ .enum numbers) :
    fitElement fits kind node = (fitSingle fits kind node).unheeded := by
  cases kind with
  | enum numbers => exact absurd rfl (not_enum numbers)
  | _ => rfl

/-- One turn of the loop over the elements, which goes on in any case. -/
theorem setElement_describes (sub : Parses schema node) (shaped : SlotShaped schema kind slot) :
    (fitElement (fun t => fit schema node t) kind node).Describes (SlotShaped schema kind)
      (fun after => ∃ value, after = slot ++ [value] ∧
        StoredSingle schema (fun t sub sub' => Stored schema node t sub sub') node kind [] value)
      ((setRepeatedValueForMessage schema (fun t sub => parseFromJsonValue schema node t sub) kind node slot).map
        fun outcome => (true,outcome.2)) := by
  by_cases enum : ∃ numbers, kind = .enum numbers
  · obtain ⟨numbers,rfl⟩ := enum
    exact rfl
  · have not_enum : ∀ numbers, kind ≠ .enum numbers := fun numbers same => enum ⟨numbers,same⟩
    rw [fitElement_eq _ not_enum,setRepeated_ignored not_enum]
    apply Fit.Describes.unheeded
    apply (setSingle_describes sub kind slotShaped_nil).map (slot ++ ·)
    · intro _ new
      exact shaped.append new
    · intro _ _ ⟨value,same,stored⟩
      exact ⟨value,by rw [same],stored⟩

theorem setRepeatedValues_describes {items : List Json} (subs : ∀ node ∈ items, Parses schema node)
    (shaped : SlotShaped schema kind slot) :
    (fitItems schema items kind).Describes (SlotShaped schema kind)
      (fun after => ∃ added, after = slot ++ added ∧ StoredItems schema items kind added)
      (setRepeatedValues schema items kind slot) := by
  induction items generalizing slot with
  | nil =>
    rw [fitItems,setRepeatedValues]
    exact describes_stored shaped ⟨[],by rw [List.append_nil],by rw [StoredItems]⟩
  | cons node items ih =>
    have first := setElement_describes (subs node List.mem_cons_self) shaped
    have whole := first.andThen fun middle shape => ih (fun later member => subs later (List.mem_cons_of_mem _ member)) shape
    have same : setRepeatedValues schema (node :: items) kind slot =
        ((setRepeatedValueForMessage schema (fun t sub => parseFromJsonValue schema node t sub) kind node slot).map
          fun outcome => (true,outcome.2)).bind fun outcome =>
            if outcome.1 then setRepeatedValues schema items kind outcome.2 else .ok (false,outcome.2) := by
      rw [setRepeatedValues]
      cases setRepeatedValueForMessage schema (fun t sub => parseFromJsonValue schema node t sub) kind node slot <;> rfl
    rw [fitItems,same]
    apply whole.imp
    intro after ⟨middle,_,⟨value,one,stored⟩,added,all,rest⟩
    refine ⟨value :: added,by rw [all,one,List.append_assoc,List.singleton_append],?_⟩
    rw [StoredItems]
    exact ⟨value,added,rfl,stored,rest⟩

end Repeated

/-! Members. -/

/-- A value, and its elements. -/
def withElements : Json → List Json
  | .array items => .array items :: items
  | node => [node]

/-- The slots of the other fields stay. -/
def Frame (schema : Schema τ) (t : τ) (names : List Bytes) (before after : Slots) : Prop :=
  ∀ i field, (schema.fields t)[i]? = some field → field.name ∉ names → after.getD i [] = before.getD i []

section Members
variable {t : τ} {slots : Slots}

theorem applyMember_describes {node : Json} {field : Field τ} {slot : List Value} (parts : ∀ part ∈ withElements node, Parses schema part)
    (shaped : SlotShaped schema field.kind slot) :
    (fitSlot schema field node).Describes (SlotShaped schema field.kind) (StoredSlot schema field node slot)
      (applyMember schema field node slot) := by
  have self : node ∈ withElements node := by
    cases node <;> exact List.mem_cons_self
  unfold fitSlot StoredSlot applyMember
  by_cases null : node.isNull = true
  · simp only [if_pos null]
    by_cases required : field.label = .required
    · simp only [required,ne_eq,not_true_eq_false,decide_false,if_true]
      exact describes_refused shaped
    · simp only [required,ne_eq,not_false_eq_true,decide_true,if_false]
      exact describes_stored shaped trivial
  · simp only [if_neg null]
    by_cases repeated : field.label = .repeated
    · simp only [if_pos repeated]
      cases node with
      | array items =>
        simp only [fitArray,StoredArray,setArrayForMessage]
        exact setRepeatedValues_describes (fun item member => parts item (List.mem_cons_of_mem _ member)) shaped
      | _ =>
        simp only [fitArray,setArrayForMessage]
        exact describes_refused shaped
    · simp only [if_neg repeated]
      exact setSingle_describes (parts node self) field.kind shaped

theorem parseMember_describes {member : Bytes × Json} (parts : ∀ part ∈ withElements member.2, Parses schema part)
    (shaped : Shaped schema t slots) :
    (fitMember schema member t).Describes (Shaped schema t)
      (fun after => StoredMember schema member t slots after ∧ Frame schema t [member.1] slots after)
      (parseMember schema member t slots) := by
  obtain ⟨name,node⟩ := member
  cases found : findFieldByName (schema.fields t) name with
  | none =>
    rw [fitMember_unknown found,parseMember,found]
    cases null : node.isNull with
    | false => exact describes_refused shaped
    | true => exact describes_stored shaped ⟨(storedMember_unknown found).mpr null,fun _ _ _ _ => rfl⟩
  | some place =>
    obtain ⟨i,field⟩ := place
    obtain ⟨here,rfl⟩ := findFieldByName_some found
    have inside := shaped.inside here
    rw [fitMember_found found,parseMember_eq here]
    apply (applyMember_describes parts (shaped.at_slot here)).map (slots.set i ·)
    · intro slot shape
      exact shaped.set here shape
    · intro slot _ stored
      constructor
      · rw [storedMember_found found,getD_set _ _ _ _ inside,if_pos rfl]
        exact stored
      · intro j other there apart
        rw [getD_set _ _ _ _ inside]
        split
        · rename_i same
          obtain rfl : field = other := Option.some.inj (here.symm.trans (same ▸ there))
          exact absurd (List.mem_singleton_self _) apart
        · rfl

theorem storedMember_congr {member : Bytes × Json} {before after before' after' : Slots}
    (same : ∀ i field, (schema.fields t)[i]? = some field → field.name = member.1 →
      before'.getD i [] = before.getD i [] ∧ after'.getD i [] = after.getD i [])
    (stored : StoredMember schema member t before after) : StoredMember schema member t before' after' := by
  obtain ⟨name,node⟩ := member
  cases found : findFieldByName (schema.fields t) name with
  | none => exact (storedMember_unknown found).mpr ((storedMember_unknown found).mp stored)
  | some place =>
    obtain ⟨i,field⟩ := place
    obtain ⟨here,named⟩ := findFieldByName_some found
    obtain ⟨first,second⟩ := same i field here named
    rw [storedMember_found found] at stored ⊢
    rwa [first,second]

theorem parseMembers_describes {members : List (Bytes × Json)} (distinct : (members.map Prod.fst).Nodup)
    (subs : ∀ member ∈ members, ∀ part ∈ withElements member.2, Parses schema part) (shaped : Shaped schema t slots) :
    (fitMembers schema members t).Describes (Shaped schema t)
      (fun after => StoredMembers schema members t slots after ∧ Frame schema t (members.map Prod.fst) slots after)
      (parseMembers schema members t slots) := by
  induction members generalizing slots with
  | nil =>
    rw [fitMembers,parseMembers]
    exact describes_stored shaped ⟨by rw [StoredMembers]; trivial,fun _ _ _ _ => rfl⟩
  | cons member members ih =>
    obtain ⟨fresh,distinct⟩ := List.nodup_cons.mp distinct
    have first := parseMember_describes (subs member List.mem_cons_self) shaped
    have whole := first.andThen fun middle shape =>
      ih distinct (fun later inside => subs later (List.mem_cons_of_mem _ inside)) shape
    rw [fitMembers,parseMembers]
    apply whole.imp
    intro after held
    obtain ⟨middle,_,⟨stored,frame⟩,rest,frames⟩ := held
    refine ⟨?_,fun i field here apart => ?_⟩
    · rw [StoredMembers]
      constructor
      · apply storedMember_congr _ stored
        intro i field here named
        exact ⟨rfl,frames i field here (named ▸ fresh)⟩
      · rw [storedMembers_iff] at rest ⊢
        intro later inside
        apply storedMember_congr _ (rest later inside)
        intro i field here named
        refine ⟨(frame i field here fun same => ?_).symm,rfl⟩
        rw [← List.mem_singleton.mp same,named] at fresh
        exact fresh (List.mem_map_of_mem inside)
    · rw [List.map_cons,List.mem_cons,not_or] at apart
      rw [frames i field here apart.2,frame i field here fun same => apart.1 (List.mem_singleton.mp same)]

end Members

/-! Whole values. -/

theorem distinctItems_iff {items : List Json} : Json.distinctItems items = true ↔ ∀ item ∈ items, item.distinct = true := by
  induction items with
  | nil => simp [Json.distinctItems]
  | cons item items ih => simp [Json.distinctItems,ih]

theorem distinctMembers_iff {members : List (Bytes × Json)} :
    Json.distinctMembers members = true ↔ ∀ member ∈ members, member.2.distinct = true := by
  induction members with
  | nil => simp [Json.distinctMembers]
  | cons member members ih => simp [Json.distinctMembers,ih]

theorem distinct_object {members : List (Bytes × Json)} (distinct : (Json.object members).distinct = true) :
    (members.map Prod.fst).Nodup ∧ ∀ member ∈ members, ∀ part ∈ withElements member.2, part.distinct = true := by
  rw [Json.distinct,Bool.and_eq_true,decide_eq_true_eq,distinctMembers_iff] at distinct
  refine ⟨distinct.1,fun member inside part here => ?_⟩
  have whole := distinct.2 member inside
  generalize member.2 = node at here whole
  cases node with
  | array items =>
    rcases List.mem_cons.mp here with rfl | below
    · exact whole
    · rw [Json.distinct,distinctItems_iff] at whole
      exact whole part below
  | _ =>
    rw [List.mem_singleton.mp here]
    exact whole

theorem sizeOf_withElements {node part : Json} (here : part ∈ withElements node) : sizeOf part ≤ sizeOf node := by
  cases node with
  | array items =>
    rcases List.mem_cons.mp here with rfl | below
    · exact Nat.le_refl _
    · have smaller := List.sizeOf_lt_of_mem below
      rw [Json.array.sizeOf_spec]
      omega
  | _ =>
    rw [List.mem_singleton.mp here]

/-- Induction for values that are only looked into where they are objects. -/
theorem object_induction {P : Json → Prop}
    (step : ∀ json, (∀ members, json = .object members → ∀ member ∈ members, ∀ part ∈ withElements member.2, P part) → P json)
    (json : Json) : P json :=
  step json fun members same member inside part here =>
    have : sizeOf part < sizeOf json := by
      have outer := List.sizeOf_lt_of_mem inside
      have inner := sizeOf_withElements here
      have pair : sizeOf member.2 < sizeOf member := by
        obtain ⟨name,node⟩ := member
        change sizeOf node < sizeOf (name,node)
        rw [Prod.mk.sizeOf_spec]
        omega
      rw [same,Json.object.sizeOf_spec]
      omega
    object_induction step part
  termination_by sizeOf json

theorem parses (schema : Schema τ) (json : Json) : json.distinct = true → Parses schema json := by
  induction json using object_induction with
  | step json ih =>
    intro distinct t before shaped
    cases json with
    | null =>
      rw [fit,parseFromJsonValue]
      exact describes_stored shaped (by rw [Stored]; trivial)
    | object members =>
      obtain ⟨names,below⟩ := distinct_object distinct
      rw [fit,parseFromJsonValue]
      have whole := parseMembers_describes names
        (fun member inside part here => ih members rfl member inside part here (below member inside part here)) shaped
      apply whole.imp
      intro after held
      rw [Stored]
      exact held.1
    | _ =>
      simp only [fit,parseFromJsonValue]
      exact rfl

/-! What is lost is not stored. -/

def Fit.Whole (fit : Fit) : Prop := fit = .stored ∨ fit = .broken

theorem Fit.Whole.andThen {fit later : Fit} (first : fit.Whole) (rest : later.Whole) : (fit.andThen later).Whole := by
  rcases first with rfl | rfl
  · exact rest
  · exact .inr rfl

theorem Fit.Whole.unheeded {fit : Fit} (whole : fit.Whole) : fit.unheeded.Whole := by
  rcases whole with rfl | rfl
  · exact .inl rfl
  · exact .inr rfl

theorem convertible_whole {α : Type} (result : Result α) : (convertible result).Whole := by
  cases result with
  | error failure => exact .inr rfl
  | ok a => exact .inl rfl

section Whole
variable {node : Json} {kind : Kind τ} {t : τ}

theorem fitSingle_whole (sub : ∀ t before after, Stored schema node t before after → (fit schema node t).Whole)
    {before : List Value} {value : Value}
    (stored : StoredSingle schema (fun t sub sub' => Stored schema node t sub sub') node kind before value) :
    (fitSingle (fun t => fit schema node t) kind node).Whole := by
  cases value with
  | message after =>
    obtain ⟨t,rfl,holds⟩ := stored
    exact sub t _ _ holds
  | scalar scalar =>
    change Converts node kind scalar at stored
    unfold Converts at stored
    split at stored
    · exact convertible_whole _
    · obtain ⟨text,converted,number⟩ := stored
      simp only [fitSingle,converted,number,if_true]
      exact .inl rfl
    · exact convertible_whole _
    · obtain ⟨text,converted,number⟩ := stored
      simp only [fitSingle,converted,number,Option.isSome_some,if_true]
      exact .inl rfl
    · exact convertible_whole _
    · exact convertible_whole _
    · exact .inl rfl
    · obtain ⟨converted,declared⟩ := stored
      simp only [fitSingle,converted,if_pos declared]
      exact .inl rfl
    · exact convertible_whole _
    · exact stored.elim

theorem fitElement_whole {fits : τ → Fit} (whole : (fitSingle fits kind node).Whole) : (fitElement fits kind node).Whole := by
  by_cases enum : ∃ numbers, kind = .enum numbers
  · obtain ⟨numbers,rfl⟩ := enum
    exact .inr rfl
  · rw [fitElement_eq fits fun numbers same => enum ⟨numbers,same⟩]
    exact whole.unheeded

theorem fitItems_whole {items : List Json}
    (subs : ∀ node ∈ items, ∀ t before after, Stored schema node t before after → (fit schema node t).Whole)
    {added : List Value} (stored : StoredItems schema items kind added) : (fitItems schema items kind).Whole := by
  induction items generalizing added with
  | nil => exact .inl (by rw [fitItems])
  | cons node items ih =>
    rw [StoredItems] at stored
    obtain ⟨value,rest,_,first,others⟩ := stored
    rw [fitItems]
    exact (fitElement_whole (fitSingle_whole (subs node List.mem_cons_self) first)).andThen
      (ih (fun later member => subs later (List.mem_cons_of_mem _ member)) others)

theorem fitSlot_whole {field : Field τ} (parts : ∀ part ∈ withElements node, ∀ t before after,
      Stored schema part t before after → (fit schema part t).Whole)
    {before after : List Value} (stored : StoredSlot schema field node before after) : (fitSlot schema field node).Whole := by
  have self : node ∈ withElements node := by
    cases node <;> exact List.mem_cons_self
  unfold StoredSlot at stored
  unfold fitSlot
  split at stored
  · rename_i null
    rw [if_pos null,if_neg stored]
    exact .inl rfl
  · rename_i some
    rw [if_neg some]
    split at stored
    · rename_i repeated
      rw [if_pos repeated]
      cases node with
      | array items =>
        rw [StoredArray] at stored
        obtain ⟨added,_,each⟩ := stored
        rw [fitArray]
        exact fitItems_whole (fun item member => parts item (List.mem_cons_of_mem _ member)) each
      | _ =>
        simp only [StoredArray] at stored
    · rename_i single
      rw [if_neg single]
      obtain ⟨value,_,holds⟩ := stored
      exact fitSingle_whole (parts node self) holds

theorem fitMembers_whole {members : List (Bytes × Json)} (subs : ∀ member ∈ members, ∀ part ∈ withElements member.2,
      ∀ t before after, Stored schema part t before after → (fit schema part t).Whole)
    {before after : Slots} (stored : StoredMembers schema members t before after) : (fitMembers schema members t).Whole := by
  induction members with
  | nil => exact .inl (by rw [fitMembers])
  | cons member members ih =>
    rw [StoredMembers] at stored
    rw [fitMembers]
    refine Fit.Whole.andThen ?_ (ih (fun later inside => subs later (List.mem_cons_of_mem _ inside)) stored.2)
    obtain ⟨name,node⟩ := member
    cases found : findFieldByName (schema.fields t) name with
    | none =>
      rw [fitMember_unknown found,if_pos ((storedMember_unknown found).mp stored.1)]
      exact .inl rfl
    | some place =>
      rw [fitMember_found found]
      exact fitSlot_whole (subs (name,node) List.mem_cons_self) ((storedMember_found found).mp stored.1)

theorem fit_whole (json : Json) : ∀ t before after, Stored schema json t before after → (fit schema json t).Whole := by
  induction json using object_induction with
  | step json ih =>
    intro t before after stored
    cases json with
    | null => exact .inl (by rw [fit])
    | object members =>
      rw [Stored] at stored
      rw [fit]
      exact fitMembers_whole (ih members rfl) stored
    | _ => simp only [Stored] at stored

end Whole

/-! What is said of the two functions, and when it holds. -/

/-- The call ends normally, and returns true only if what was given is stored. -/
def EndsWell {α : Type} (result : Result (Bool × α)) (stored : α → Prop) : Prop :=
  ∃ parsed after, result = .ok (parsed,after) ∧ (parsed = true → stored after)

/-- All of the value fits, or it is refused before it breaks the call. -/
def Taken (schema : Schema τ) (t : τ) (input : Tree) : Prop :=
  fit schema input.json t = .stored ∨ fit schema input.json t = .refused

theorem endsWell_iff {json : Json} (distinct : json.distinct = true) {t : τ} {before : Slots} (shaped : Shaped schema t before) :
    EndsWell (parseFromJsonValue schema json t before) (Stored schema json t before) ↔
      fit schema json t = .stored ∨ fit schema json t = .refused := by
  have describes := parses schema json distinct t before shaped
  cases result : parseFromJsonValue schema json t before with
  | error failure =>
    rw [result] at describes
    have broken : fit schema json t = .broken := describes
    simp [EndsWell,broken]
  | ok outcome =>
    obtain ⟨parsed,after⟩ := outcome
    rw [result] at describes
    cases parsed with
    | false =>
      obtain ⟨_,refused⟩ := describes
      exact ⟨fun _ => .inr refused,fun _ => ⟨false,after,rfl,fun parsed => Bool.noConfusion parsed⟩⟩
    | true =>
      obtain ⟨_,⟨fits,stored⟩ | lost⟩ := describes
      · exact ⟨fun _ => .inl fits,fun _ => ⟨true,after,rfl,fun _ => stored⟩⟩
      · constructor
        · intro ⟨parsed,other,same,stored⟩
          obtain ⟨rfl,rfl⟩ := Prod.mk.inj (Except.ok.inj same)
          rcases fit_whole json t before _ (stored rfl) with fits | broken
          · exact .inl fits
          · rw [lost] at broken
            cases broken
        · intro either
          rw [lost] at either
          rcases either with fits | refused
          · cases fits
          · cases refused

/-- One message type with the fields `repeated int64 a` and `optional int32 b`. -/
def numbers : Schema Unit where
  fields _ := [⟨[97],.repeated,.int64⟩,⟨[98],.optional,.int32⟩]
  distinct _ := by simp
  name_no_nul _ := by simp

end WebSearch.ProtoJsonFormat
