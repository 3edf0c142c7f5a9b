import WebSearch.JsonValue
import WebSearch.StringUtil

/-! `util/protobuf/proto_json_format.cpp`. A message is one list of values for each
field of its type: a singular field is present when its list is not empty. -/
namespace WebSearch.ProtoJsonFormat
open JsonValue StringUtil

/-- The `cpp_type` of a field; a message type is named by `τ`. -/
inductive Kind (τ : Type)
  | int32
  | int64
  | uint32
  | uint64
  | double
  | float
  | bool
  | enum (numbers : List Int32)
  | string
  | message (type : τ)

inductive Label
  | required
  | optional
  | repeated
  deriving DecidableEq

structure Field (τ : Type) where
  name : Bytes
  label : Label
  kind : Kind τ

/-- The descriptors of all message types, in the order `ListFields` reports. -/
structure Schema (τ : Type) where
  fields : τ → List (Field τ)
  distinct : ∀ t, ((fields t).map Field.name).Nodup
  name_no_nul : ∀ t, ∀ field ∈ fields t, 0 ∉ field.name

inductive Scalar
  | int32 (value : Int32)
  | int64 (value : Int64)
  | uint32 (value : UInt32)
  | uint64 (value : UInt64)
  | double (value : Float)
  | float (value : Float32)
  | bool (value : Bool)
  | enum (number : Int32)
  | string (value : Bytes)
  deriving DecidableEq

inductive Value
  | scalar (value : Scalar)
  | message (slots : List (List Value))

abbrev Slots := List (List Value)

variable {τ : Type}

def Schema.empty (schema : Schema τ) (t : τ) : Slots := (schema.fields t).map fun _ => []

/-- The values that `CreateNode` assigns. -/
def createNode : Scalar → Json
  | .int32 value => .int value
  | .int64 value => .ofString (int64ToString value)
  | .uint32 value => .uint value
  | .uint64 value => .ofString (uint64ToString value)
  | .double value => .real value
  | .float value => .real value.toFloat
  | .bool value => .bool value
  | .enum number => .int number
  | .string value => .ofString value

/-- The values that `CreateNodeOfRepeatedFiled` appends. The pointer that
`GetRepeatedEnum` returns becomes a boolean. -/
def createNodeOfRepeatedFiled : Scalar → Json
  | .enum _ => .bool true
  | value => createNode value

/-- The fields of the type of a sub-message. -/
def Schema.subFields (schema : Schema τ) : Kind τ → List (Field τ)
  | .message t => schema.fields t
  | _ => []

mutual
/-- `WriteToValue`. `ListFields` reports the fields that have a value. -/
def writeToValue (schema : Schema τ) : Slots → List (Field τ) → Json → Json
  | slot :: slots, field :: fields, root =>
    let root :=
      if field.label = .repeated then
        if slot.isEmpty then root else root.member field.name fun _ => writeRepeated schema slot field .null
      else match slot with
        | [] => root
        | value :: _ => root.member field.name (writeSingle schema value field)
    writeToValue schema slots fields root
  | _, _, root => root

def writeSingle (schema : Schema τ) : Value → Field τ → Json → Json
  | .scalar value, _, _ => createNode value
  | .message slots, field, node => writeToValue schema slots (schema.subFields field.kind) node

def writeRepeated (schema : Schema τ) : List Value → Field τ → Json → Json
  | value :: values, field, node => writeRepeated schema values field (node.append (writeElement schema value field))
  | [], _, node => node

def writeElement (schema : Schema τ) : Value → Field τ → Json
  | .scalar value, _ => createNodeOfRepeatedFiled value
  | .message slots, field => writeToValue schema slots (schema.subFields field.kind) .null
end

def findFieldByName (fields : List (Field τ)) (name : Bytes) : Option (Nat × Field τ) := do
  let i ← fields.findIdx? fun field => field.name == name
  return (i,← fields[i]?)

/-- `SetSingleValueForMessage` on the value of its field. The flag is the result of
the function; `parse` is `ParseFromJsonValue` on the node. -/
def setSingleValueForMessage (schema : Schema τ) (parse : τ → Slots → Result (Bool × Slots)) (kind : Kind τ)
    (node : Json) (slot : List Value) : Result (Bool × List Value) :=
  match kind with
  | .int32 => do return (true,[.scalar (.int32 (← node.asInt))])
  | .int64 => do
    let (converted,number) := stringToInt64 (← node.asString)
    return if converted then (true,[.scalar (.int64 number)]) else (false,slot)
  | .uint32 => do return (true,[.scalar (.uint32 (← node.asUInt))])
  | .uint64 => do
    match stringToUint64 (← node.asString) with
    | some number => return (true,[.scalar (.uint64 number)])
    | none => return (false,slot)
  | .double => do return (true,[.scalar (.double (← node.asDouble))])
  | .float => do return (true,[.scalar (.float (← node.asDouble).toFloat32)])
  | .bool => .ok (true,[.scalar (.bool node.asBool)])
  | .enum numbers => do
    let number ← node.asInt
    if number ∈ numbers then return (true,[.scalar (.enum number)]) else .error .nullEnum
  | .string => do return (true,[.scalar (.string (← node.asString))])
  | .message t => do
    let sub := match slot with
      | .message sub :: _ => sub
      | _ => schema.empty t
    let (parsed,sub) ← parse t sub
    return (parsed,[.message sub])

/-- `SetRepeatedValueForMessage`. `GetEnum` is fatal on a repeated field, and what
`ParseFromValue` returns for an element is not looked at. -/
def setRepeatedValueForMessage (schema : Schema τ) (parse : τ → Slots → Result (Bool × Slots)) (kind : Kind τ)
    (node : Json) (slot : List Value) : Result (Bool × List Value) :=
  match kind with
  | .enum _ => .error .fatal
  | .message t => do
    let (_,sub) ← parse t (schema.empty t)
    return (true,slot ++ [.message sub])
  | _ => do
    let (converted,value) ← setSingleValueForMessage schema parse kind node []
    return (converted,slot ++ value)

mutual
def parseFromJsonValue (schema : Schema τ) : Json → τ → Slots → Result (Bool × Slots)
  | .null, _, slots => .ok (true,slots)
  | .object members, t, slots => parseMembers schema members t slots
  | _, _, _ => .error .assertion

/-- The loop over the member names. -/
def parseMembers (schema : Schema τ) : List (Bytes × Json) → τ → Slots → Result (Bool × Slots)
  | [], _, slots => .ok (true,slots)
  | member :: members, t, slots => do
    let (parsed,slots) ← parseMember schema member t slots
    if parsed then parseMembers schema members t slots else return (false,slots)

/-- One member: `SetValueForMessage`, unless it is null. -/
def parseMember (schema : Schema τ) : Bytes × Json → τ → Slots → Result (Bool × Slots)
  | (name,node), t, slots =>
    match findFieldByName (schema.fields t) name with
    | none => .ok (node.isNull,slots)
    | some (i,field) =>
      if node.isNull then .ok (decide (field.label ≠ .required),slots)
      else do
        let slot := slots.getD i []
        let (parsed,slot) ←
          if field.label = .repeated then setArrayForMessage schema node field.kind slot
          else setSingleValueForMessage schema (fun t sub => parseFromJsonValue schema node t sub) field.kind node slot
        return (parsed,slots.set i slot)

/-- `SetValueForMessage` on a repeated field, which expects an array. -/
def setArrayForMessage (schema : Schema τ) : Json → Kind τ → List Value → Result (Bool × List Value)
  | .array items, kind, slot => setRepeatedValues schema items kind slot
  | _, _, slot => .ok (false,slot)

/-- The loop over the elements of an array, which ignores their results. -/
def setRepeatedValues (schema : Schema τ) : List Json → Kind τ → List Value → Result (Bool × List Value)
  | [], _, slot => .ok (true,slot)
  | node :: items, kind, slot => do
    let (_,slot) ← setRepeatedValueForMessage schema (fun t sub => parseFromJsonValue schema node t sub) kind node slot
    setRepeatedValues schema items kind slot
end

def parseFromValue (schema : Schema τ) (input : Tree) (t : τ) (output : Slots) : Result (Bool × Slots) :=
  parseFromJsonValue schema input.json t output

/-- The reader of jsoncpp gives the root value, unless the text is no JSON. -/
def parseFromString (schema : Schema τ) (reader : Bytes → Option Tree) (input : Bytes) (t : τ) (pb : Slots) :
    Result (Bool × Slots) :=
  match reader input with
  | none => .ok (false,pb)
  | some root => parseFromJsonValue schema root.json t pb

/-- `ParseFromValue` applied to what `WriteToValue` makes of a message, and an
empty message of the same type. -/
def roundTrip (schema : Schema τ) (t : τ) (message : Slots) : Result (Bool × Slots) :=
  parseFromJsonValue schema (writeToValue schema message (schema.fields t) .null) t (schema.empty t)

end WebSearch.ProtoJsonFormat
