import WebSearch.Base.Bytes

/-! `thirdparty/jsoncpp-0.5.0`: the part of `Json::Value` that the protobuf
conversion uses. Strings are NUL-terminated; an array is its elements in index
order, an object its members in the order of `strcmp`. -/
namespace WebSearch.JsonValue

inductive Json
  | null
  | int (value : Int32)
  | uint (value : UInt32)
  | real (value : Float)
  | bool (value : Bool)
  | string (value : Bytes)
  | array (items : List Json)
  | object (members : List (Bytes × Json))

/-- How a call ends other than by returning: a failed `JSON_ASSERT`, an exception
of `JSON_ASSERT_MESSAGE`, an enum that gets a NULL descriptor, or a fatal misuse of
protobuf reflection. -/
inductive Abnormal
  | assertion
  | exception (message : String)
  | nullEnum
  | fatal
  deriving DecidableEq

abbrev Result (α : Type) := Except Abnormal α

namespace Json

def isNull : Json → Bool
  | null => true
  | _ => false

/-- `Value( const std::string& )`. -/
def ofString (value : Bytes) : Json := string (cString value)

def asString : Json → Result Bytes
  | null => .ok []
  | string value => .ok value
  | bool value => .ok (if value then [116,114,117,101] else [102,97,108,115,101])
  | _ => .error (.exception "Type is not convertible to string")

def asInt : Json → Result Int32
  | null => .ok 0
  | int value => .ok value
  | uint value =>
    if value.toNat < 2^31 - 1 then .ok (Int32.ofNat value.toNat)
    else .error (.exception "integer out of signed integer range")
  | real value =>
    if -2147483648 ≤ value ∧ value ≤ 2147483647 then .ok value.toInt32
    else .error (.exception "Real out of signed integer range")
  | bool value => .ok (if value then 1 else 0)
  | _ => .error (.exception "Type is not convertible to int")

def asUInt : Json → Result UInt32
  | null => .ok 0
  | int value =>
    if 0 ≤ value.toInt then .ok (UInt32.ofNat value.toInt.toNat)
    else .error (.exception "Negative integer can not be converted to unsigned integer")
  | uint value => .ok value
  | real value =>
    if 0 ≤ value ∧ value ≤ 4294967295 then .ok value.toUInt32
    else .error (.exception "Real out of unsigned integer range")
  | bool value => .ok (if value then 1 else 0)
  | _ => .error (.exception "Type is not convertible to uint")

def asDouble : Json → Result Float
  | null => .ok 0
  | int value => .ok value.toFloat
  | uint value => .ok value.toFloat
  | real value => .ok value
  | bool value => .ok (if value then 1 else 0)
  | _ => .error (.exception "Type is not convertible to double")

def asBool : Json → Bool
  | null => false
  | int value => value != 0
  | uint value => value != 0
  | real value => value != 0
  | bool value => value
  | string value => !value.isEmpty
  | array items => !items.isEmpty
  | object members => !members.isEmpty

/-- The member map after `change` was applied to the member of a key, which is
created null where it is missing. -/
def alter (key : Bytes) (change : Json → Json) : List (Bytes × Json) → List (Bytes × Json)
  | [] => [(key,change null)]
  | (name,value) :: rest =>
    if key < name then (key,change null) :: (name,value) :: rest
    else if key = name then (name,change value) :: rest
    else (name,value) :: alter key change rest

/-- `operator[]` with a string key, then a write through the reference. -/
def member (key : Bytes) (change : Json → Json) : Json → Json
  | null => object (alter (cString key) change [])
  | object members => object (alter (cString key) change members)
  | other => other

/-- `append`, which turns null into an array. -/
def append (node item : Json) : Json :=
  match node with
  | null => array [item]
  | array items => array (items ++ [item])
  | other => other

mutual
/-- The members of an object have different names, at any depth. -/
def distinct : Json → Bool
  | array items => distinctItems items
  | object members => decide (members.map Prod.fst).Nodup && distinctMembers members
  | _ => true

def distinctItems : List Json → Bool
  | [] => true
  | item :: items => item.distinct && distinctItems items

def distinctMembers : List (Bytes × Json) → Bool
  | [] => true
  | (_,value) :: members => value.distinct && distinctMembers members
end

end Json

/-- A value as the library can hold it. -/
structure Tree where
  json : Json
  distinct : json.distinct = true

/-- A missing key is added to the members, wherever it sorts. -/
theorem alter_perm (key : Bytes) (change : Json → Json) (members : List (Bytes × Json))
    (fresh : key ∉ members.map Prod.fst) :
    (Json.alter key change members).Perm ((key,change .null) :: members) := by
  induction members with
  | nil => exact List.Perm.refl _
  | cons entry rest ih =>
    obtain ⟨name,value⟩ := entry
    obtain ⟨other,later⟩ := not_or.mp (List.mem_cons.not.mp fresh)
    have different : ¬key = name := other
    simp only [Json.alter,different,if_false]
    split
    · exact List.Perm.refl _
    · exact ((ih later).cons _).trans (List.Perm.swap _ _ _)

end WebSearch.JsonValue
