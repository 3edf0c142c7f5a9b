import WebSearch.ProtoJsonMember

/-! Which JSON values fit a message type, and what it means that they are stored. Whether
a value fits is a matter of the value and the type alone. -/
namespace WebSearch.ProtoJsonFormat
open JsonValue StringUtil

variable {τ : Type}

/-- What becomes of a value: it is stored, a part of it is lost without notice, it is
refused, or it breaks the call. -/
inductive Fit
  | stored
  | lost
  | refused
  | broken
  deriving DecidableEq

/-- One part, and then the next. -/
def Fit.andThen : Fit → Fit → Fit
  | .stored, later => later
  | .lost, .stored => .lost
  | .lost, later => later
  | first, _ => first

/-- A part whose result nobody looks at. -/
def Fit.unheeded : Fit → Fit
  | .refused => .lost
  | other => other

def convertible {α : Type} : Result α → Fit
  | .ok _ => .stored
  | .error _ => .broken

/-- A value for a singular field. A number in a text can be refused; any other value
that is not of the kind breaks the call. -/
def fitSingle (fits : τ → Fit) (kind : Kind τ) (node : Json) : Fit :=
  match kind with
  | .int32 => convertible node.asInt
  | .int64 => match node.asString with
    | .ok text => if (stringToInt64 text).1 then .stored else .refused
    | .error _ => .broken
  | .uint32 => convertible node.asUInt
  | .uint64 => match node.asString with
    | .ok text => if (stringToUint64 text).isSome then .stored else .refused
    | .error _ => .broken
  | .double => convertible node.asDouble
  | .float => convertible node.asDouble
  | .bool => .stored
  | .enum numbers => match node.asInt with
    | .ok number => if number ∈ numbers then .stored else .broken
    | .error _ => .broken
  | .string => convertible node.asString
  | .message t => fits t

/-- An element for a repeated field. -/
def fitElement (fits : τ → Fit) (kind : Kind τ) (node : Json) : Fit :=
  match kind with
  | .enum _ => .broken
  | kind => (fitSingle fits kind node).unheeded

mutual
def fit (schema : Schema τ) : Json → τ → Fit
  | .null, _ => .stored
  | .object members, t => fitMembers schema members t
  | _, _ => .broken

def fitMembers (schema : Schema τ) : List (Bytes × Json) → τ → Fit
  | [], _ => .stored
  | member :: members, t => (fitMember schema member t).andThen (fitMembers schema members t)

def fitMember (schema : Schema τ) : Bytes × Json → τ → Fit
  | (name,node), t =>
    match findFieldByName (schema.fields t) name with
    | none => if node.isNull then .stored else .refused
    | some (_,field) =>
      if node.isNull then if field.label = .required then .refused else .stored
      else if field.label = .repeated then fitArray schema node field.kind
      else fitSingle (fun t => fit schema node t) field.kind node

def fitArray (schema : Schema τ) : Json → Kind τ → Fit
  | .array items, kind => fitItems schema items kind
  | _, _ => .refused

def fitItems (schema : Schema τ) : List Json → Kind τ → Fit
  | [], _ => .stored
  | node :: items, kind => (fitElement (fun t => fit schema node t) kind node).andThen (fitItems schema items kind)
end

/-! What is stored, told from the message before and after. -/

/-- The scalar is what the value converts to. -/
def Converts (node : Json) : Kind τ → Scalar → Prop
  | .int32, .int32 value => node.asInt = .ok value
  | .int64, .int64 value => ∃ text, node.asString = .ok text ∧ stringToInt64 text = (true,value)
  | .uint32, .uint32 value => node.asUInt = .ok value
  | .uint64, .uint64 value => ∃ text, node.asString = .ok text ∧ stringToUint64 text = some value
  | .double, .double value => node.asDouble = .ok value
  | .float, .float value => ∃ wide, node.asDouble = .ok wide ∧ wide.toFloat32 = value
  | .bool, .bool value => node.asBool = value
  | .enum numbers, .enum number => node.asInt = .ok number ∧ number ∈ numbers
  | .string, .string text => node.asString = .ok text
  | _, _ => False

/-- The sub-message of a slot, empty where there is none. -/
def subMessage (schema : Schema τ) (t : τ) : List Value → Slots
  | .message sub :: _ => sub
  | _ => schema.empty t

/-- `stored` is for a sub-message. -/
def StoredSingle (schema : Schema τ) (stored : τ → Slots → Slots → Prop) (node : Json) (kind : Kind τ)
    (before : List Value) : Value → Prop
  | .scalar scalar => Converts node kind scalar
  | .message sub => ∃ t, kind = .message t ∧ stored t (subMessage schema t before) sub

mutual
/-- Every member that is not null is stored, at any depth, and no required field is
given as null. -/
def Stored (schema : Schema τ) : Json → τ → Slots → Slots → Prop
  | .null, _, _, _ => True
  | .object members, t, before, after => StoredMembers schema members t before after
  | _, _, _, _ => False

def StoredMembers (schema : Schema τ) : List (Bytes × Json) → τ → Slots → Slots → Prop
  | [], _, _, _ => True
  | member :: members, t, before, after =>
    StoredMember schema member t before after ∧ StoredMembers schema members t before after

def StoredMember (schema : Schema τ) : Bytes × Json → τ → Slots → Slots → Prop
  | (name,node), t, before, after =>
    match findFieldByName (schema.fields t) name with
    | none => node.isNull = true
    | some (i,field) =>
      if node.isNull then field.label ≠ .required
      else if field.label = .repeated then StoredArray schema node field.kind (before.getD i []) (after.getD i [])
      else ∃ value, after.getD i [] = [value] ∧
        StoredSingle schema (fun t sub sub' => Stored schema node t sub sub') node field.kind (before.getD i []) value

/-- The elements come behind what the field held before. -/
def StoredArray (schema : Schema τ) : Json → Kind τ → List Value → List Value → Prop
  | .array items, kind, before, after => ∃ added, after = before ++ added ∧ StoredItems schema items kind added
  | _, _, _, _ => False

def StoredItems (schema : Schema τ) : List Json → Kind τ → List Value → Prop
  | [], _, added => added = []
  | node :: items, kind, added => ∃ value rest, added = value :: rest ∧
      StoredSingle schema (fun t sub sub' => Stored schema node t sub sub') node kind [] value ∧
      StoredItems schema items kind rest
end

/-! The slot of one field. -/

def fitSlot (schema : Schema τ) (field : Field τ) (node : Json) : Fit :=
  if node.isNull then if field.label = .required then .refused else .stored
  else if field.label = .repeated then fitArray schema node field.kind
  else fitSingle (fun t => fit schema node t) field.kind node

def HoldsSingle (schema : Schema τ) (node : Json) (kind : Kind τ) (before after : List Value) : Prop :=
  ∃ value, after = [value] ∧
    StoredSingle schema (fun t sub sub' => Stored schema node t sub sub') node kind before value

def StoredSlot (schema : Schema τ) (field : Field τ) (node : Json) (before after : List Value) : Prop :=
  if node.isNull then field.label ≠ .required
  else if field.label = .repeated then StoredArray schema node field.kind before after
  else HoldsSingle schema node field.kind before after

section Member
variable {schema : Schema τ} {t : τ} {name : Bytes} {node : Json} {i : Nat} {field : Field τ}

theorem fitMember_found (found : findFieldByName (schema.fields t) name = some (i,field)) :
    fitMember schema (name,node) t = fitSlot schema field node := by
  rw [fitMember,found]
  rfl

theorem storedMember_found (found : findFieldByName (schema.fields t) name = some (i,field)) {before after : Slots} :
    StoredMember schema (name,node) t before after ↔ StoredSlot schema field node (before.getD i []) (after.getD i []) := by
  rw [StoredMember,found]
  exact Iff.rfl

theorem fitMember_unknown (unknown : findFieldByName (schema.fields t) name = none) :
    fitMember schema (name,node) t = if node.isNull then .stored else .refused := by
  rw [fitMember,unknown]

theorem storedMember_unknown (unknown : findFieldByName (schema.fields t) name = none) {before after : Slots} :
    StoredMember schema (name,node) t before after ↔ node.isNull = true := by
  rw [StoredMember,unknown]

theorem storedMembers_iff {members : List (Bytes × Json)} {before after : Slots} :
    StoredMembers schema members t before after ↔ ∀ member ∈ members, StoredMember schema member t before after := by
  induction members with
  | nil => simp [StoredMembers]
  | cons member members ih => simp [StoredMembers,ih]

/-! What the fit of an object says of its members. -/

theorem andThen_stored {first later : Fit} : first.andThen later = .stored ↔ first = .stored ∧ later = .stored := by
  cases first <;> cases later <;> simp [Fit.andThen]

theorem andThen_refused {first later : Fit} :
    first.andThen later = .refused ↔ first = .refused ∨ (first = .stored ∨ first = .lost) ∧ later = .refused := by
  cases first <;> cases later <;> simp [Fit.andThen]

theorem fit_object_stored {members : List (Bytes × Json)} :
    fit schema (.object members) t = .stored ↔ ∀ member ∈ members, fitMember schema member t = .stored := by
  rw [fit]
  induction members with
  | nil => simp [fitMembers]
  | cons member members ih => rw [fitMembers,andThen_stored,ih,List.forall_mem_cons]

theorem fit_object_refused {members : List (Bytes × Json)} : fit schema (.object members) t = .refused ↔
    ∃ before member after, members = before ++ member :: after ∧ fitMember schema member t = .refused ∧
      ∀ earlier ∈ before, fitMember schema earlier t = .stored ∨ fitMember schema earlier t = .lost := by
  rw [fit]
  induction members with
  | nil => simp [fitMembers]
  | cons member members ih =>
    rw [fitMembers,andThen_refused,ih]
    constructor
    · intro either
      rcases either with refused | ⟨goes,before,other,after,rfl,refused,earlier⟩
      · exact ⟨[],member,members,rfl,refused,fun _ none => absurd none List.not_mem_nil⟩
      · exact ⟨member :: before,other,after,rfl,refused,List.forall_mem_cons.mpr ⟨goes,earlier⟩⟩
    · intro ⟨before,other,after,split,refused,earlier⟩
      cases before with
      | nil =>
        obtain ⟨rfl,rfl⟩ := List.cons.inj split
        exact .inl refused
      | cons first before =>
        obtain ⟨rfl,rfl⟩ := List.cons.inj split
        obtain ⟨goes,earlier⟩ := List.forall_mem_cons.mp earlier
        exact .inr ⟨goes,before,other,after,rfl,refused,earlier⟩

end Member

end WebSearch.ProtoJsonFormat
