import WebSearch.Library.LittleEndian
import WebSearch.Library.Layout
import WebSearch.Base.Bytes

/-! `base/pickle.h` and `base/pickle.cc`, with 64-bit addresses and sizes and 4-byte
wide characters. Every access is checked: one that leaves the memory that `header_`
points into is a fault. -/
namespace WebSearch.Pickle
open Library

inductive Fault
  | badRead (address count : Nat)
  | badWrite (address count : Nat)
  | sourceTooShort
  | readOnly
  deriving DecidableEq

/-- Allocated memory. The address behind its last byte exists, too. -/
structure Block where
  address : Nat
  bytes : Bytes
  inMemory : address + bytes.length < 2^64
  notNull : bytes ≠ [] → address ≠ 0

def Block.covers (block : Block) (a n : Nat) : Bool :=
  block.address ≤ a && a + n ≤ block.address + block.bytes.length

def Block.slice (block : Block) (a n : Nat) : Bytes := (block.bytes.drop (a - block.address)).take n

def Block.load (block : Block) (a n : Nat) : Except Fault Bytes :=
  if block.covers a n then .ok (block.slice a n) else .error (.badRead a n)

def splice (memory : Bytes) (offset : Nat) (bytes : Bytes) : Bytes :=
  memory.take offset ++ bytes ++ memory.drop (offset + bytes.length)

theorem length_splice {memory bytes : Bytes} {offset : Nat} (fits : offset + bytes.length ≤ memory.length) :
    (splice memory offset bytes).length = memory.length := by
  simp only [splice,List.length_append,List.length_take,List.length_drop]
  omega

def Block.store (block : Block) (a : Nat) (bytes : Bytes) : Except Fault Block :=
  if covered : block.covers a bytes.length = true then
    have same : (splice block.bytes (a - block.address) bytes).length = block.bytes.length := by
      simp only [Block.covers,Bool.and_eq_true,decide_eq_true_eq] at covered
      exact length_splice (by omega)
    .ok ⟨block.address,splice block.bytes (a - block.address) bytes,same ▸ block.inMemory,fun filled =>
      block.notNull fun empty => filled (List.eq_nil_of_length_eq_zero (by rw [same,empty]; rfl))⟩
  else .error (.badWrite a bytes.length)

/-- `realloc` fails, or moves what was there into a block of the new size. -/
structure Allocator where
  realloc : Block → Nat → Option Block
  length_eq : ∀ old n new, realloc old n = some new → new.bytes.length = n
  kept : ∀ old n new, realloc old n = some new → old.bytes.take n <+: new.bytes

/-- `AlignInt`. -/
def alignInt (i alignment : Nat) : Nat := alignUp i alignment % 2^64

/-- `static_cast<size_t>` of an `int`. -/
def sizeT (n : Int32) : Nat := (n.toInt % 2^64).toNat

def sizeofHeader : Nat := 4
def kPayloadUnit : Nat := 64
def kCapacityReadOnly : Nat := 2^64 - 1

end Pickle

/-- `header` is the address of the block or null. -/
structure Pickle where
  block : Pickle.Block
  header : Nat
  headerSize : Nat
  capacity : Nat

namespace Pickle
open Library

/-- `header_->payload_size`. -/
def payloadSize (p : Pickle) : Except Fault Nat := do return ofBytes (← p.block.load p.header sizeofHeader)

def size (p : Pickle) : Except Fault Nat := do return (p.headerSize + (← p.payloadSize)) % 2^64

def payload (p : Pickle) : Nat := (p.header + p.headerSize) % 2^64

def endOfPayload (p : Pickle) : Except Fault Nat := do
  if p.header ≠ 0 then return (p.payload + (← p.payloadSize)) % 2^64 else return 0

/-- What the constructor leaves of a header size. -/
def checkedHeaderSize (dataLen : Int32) (headerSize : Nat) : Nat :=
  let headerSize := if (dataLen.toInt % 2^32).toNat < headerSize then 0 else headerSize
  if headerSize ≠ alignInt headerSize 4 then 0 else headerSize

/-- `Pickle(const char* data, int data_len)`. The difference is one of unsigned numbers. -/
def ofData (data : Block) (dataLen : Int32) : Except Fault Pickle := do
  let headerSize ← if 4 ≤ dataLen.toInt then do
      let payloadSize := ofBytes (← data.load data.address sizeofHeader)
      pure ((dataLen.toInt - payloadSize) % 2^32).toNat
    else pure 0
  let headerSize := checkedHeaderSize dataLen headerSize
  return ⟨data,if headerSize = 0 then 0 else data.address,headerSize,kCapacityReadOnly⟩

/-! Reading. A method returns what it stores in `*result` when it returns true, and
the iterator afterwards. -/

def iteratorHasRoomFor (p : Pickle) (iter : Nat) (len : Int32) : Except Fault Bool := do
  if len.toInt < 0 || iter < p.header then return false
  let stop ← p.endOfPayload
  if stop < iter then return false
  let endOfRegion := (iter + sizeT len) % 2^64
  return iter ≤ endOfRegion && endOfRegion ≤ stop

def updateIter (iter : Nat) (bytes : Int32) : Nat := (iter + alignInt (sizeT bytes) 4) % 2^64

/-- `if (!*iter) *iter = payload()`. -/
def started (p : Pickle) (iter : Nat) : Nat := if iter = 0 then p.payload else iter

/-- What `ReadInt`, `ReadLong`, `ReadSize` and the others of a fixed size do. -/
def readFixed {α : Type} (width : Nat) (decode : Bytes → α) (p : Pickle) (iter : Nat) :
    Except Fault (Option α × Nat) := do
  let iter := p.started iter
  if ← p.iteratorHasRoomFor iter (Int32.ofNat width) then
    return (some (decode (← p.block.load iter width)),updateIter iter (Int32.ofNat width))
  else return (none,iter)

def uint16 (bytes : Bytes) : UInt16 := UInt16.ofNat (ofBytes bytes)
def uint32 (bytes : Bytes) : UInt32 := UInt32.ofNat (ofBytes bytes)
def uint64 (bytes : Bytes) : UInt64 := UInt64.ofNat (ofBytes bytes)

def readInt : Pickle → Nat → Except Fault (Option Int32 × Nat) := readFixed 4 fun bytes => (uint32 bytes).toInt32
def readLong : Pickle → Nat → Except Fault (Option Int64 × Nat) := readFixed 8 fun bytes => (uint64 bytes).toInt64
def readSize : Pickle → Nat → Except Fault (Option UInt64 × Nat) := readFixed 8 uint64
def readUInt16 : Pickle → Nat → Except Fault (Option UInt16 × Nat) := readFixed 2 uint16
def readUInt32 : Pickle → Nat → Except Fault (Option UInt32 × Nat) := readFixed 4 uint32
def readInt64 : Pickle → Nat → Except Fault (Option Int64 × Nat) := readFixed 8 fun bytes => (uint64 bytes).toInt64
def readUInt64 : Pickle → Nat → Except Fault (Option UInt64 × Nat) := readFixed 8 uint64

def readBool (p : Pickle) (iter : Nat) : Except Fault (Option Bool × Nat) := do
  let (tmp,iter) ← p.readInt iter
  return (tmp.map (· ≠ 0),iter)

def readLength (p : Pickle) (iter : Nat) : Except Fault (Option Int32 × Nat) := do
  let (result,iter) ← p.readInt iter
  return (result.filter (0 ≤ ·.toInt),iter)

/-- How the readers begin that find a length first. -/
def afterLength {α : Type} (p : Pickle) (iter : Nat) (rest : Int32 → Nat → Except Fault (Option α × Nat)) :
    Except Fault (Option α × Nat) := do
  match ← p.readLength iter with
  | (none,iter) => return (none,iter)
  | (some len,iter) => rest len iter

/-- The end of `ReadString`, `ReadWString` and `ReadString16`: `len` characters of a
width. The number of bytes becomes an `int` on its way to `IteratorHasRoomFor`. -/
def readUnits {α : Type} (width : Nat) (decode : Bytes → α) (p : Pickle) (iter : Nat) (len : Int32) :
    Except Fault (Option (List α) × Nat) := do
  let bytes := Int32.ofNat (sizeT len * width)
  if ← p.iteratorHasRoomFor iter bytes then
    let chars ← p.block.load iter (sizeT len * width)
    return (some ((pieces width (sizeT len) chars).map decode),updateIter iter bytes)
  else return (none,iter)

def byte (bytes : Bytes) : UInt8 := UInt8.ofNat (ofBytes bytes)

def readString (p : Pickle) (iter : Nat) : Except Fault (Option Bytes × Nat) :=
  p.afterLength iter fun len iter => p.readUnits 1 byte iter len

/-- Avoids integer overflow first. -/
def readWString (p : Pickle) (iter : Nat) : Except Fault (Option (List UInt32) × Nat) :=
  p.afterLength iter fun len iter =>
    if (2^31 - 1) / 4 < len.toInt then .ok (none,iter) else p.readUnits 4 uint32 iter len

def readString16 (p : Pickle) (iter : Nat) : Except Fault (Option (List UInt16) × Nat) :=
  p.afterLength iter fun len iter => p.readUnits 2 uint16 iter len

/-- The pointer that `*data` becomes. -/
def readBytes (p : Pickle) (iter : Nat) (length : Int32) : Except Fault (Option Nat × Nat) := do
  let iter := p.started iter
  if ← p.iteratorHasRoomFor iter length then return (some iter,updateIter iter length)
  else return (none,iter)

def readData (p : Pickle) (iter : Nat) : Except Fault (Option (Nat × Int32) × Nat) :=
  p.afterLength iter fun length iter => do
    let (data,iter) ← p.readBytes iter length
    return (data.map fun data => (data,length),iter)

inductive Kind
  | bool | int | long | size | uint16 | uint32 | int64 | uint64
  | string | wstring | string16 | data | bytes (length : Int32) | length
  deriving DecidableEq

/-- What a method stores; `range` is a pointer into the buffer and a length. -/
inductive Value
  | bool (value : Bool)
  | int (value : Int32)
  | long (value : Int64)
  | size (value : UInt64)
  | uint16 (value : UInt16)
  | uint32 (value : UInt32)
  | int64 (value : Int64)
  | uint64 (value : UInt64)
  | string (value : Bytes)
  | wstring (value : List UInt32)
  | string16 (value : List UInt16)
  | range (data : Nat) (length : Int32)
  deriving DecidableEq

def stored {α : Type} (wrap : α → Value) (result : Option α × Nat) : Option Value × Nat := (result.1.map wrap,result.2)

def read (p : Pickle) : Kind → Nat → Except Fault (Option Value × Nat)
  | .bool, iter => stored .bool <$> p.readBool iter
  | .int, iter => stored .int <$> p.readInt iter
  | .long, iter => stored .long <$> p.readLong iter
  | .size, iter => stored .size <$> p.readSize iter
  | .uint16, iter => stored .uint16 <$> p.readUInt16 iter
  | .uint32, iter => stored .uint32 <$> p.readUInt32 iter
  | .int64, iter => stored .int64 <$> p.readInt64 iter
  | .uint64, iter => stored .uint64 <$> p.readUInt64 iter
  | .string, iter => stored .string <$> p.readString iter
  | .wstring, iter => stored .wstring <$> p.readWString iter
  | .string16, iter => stored .string16 <$> p.readString16 iter
  | .data, iter => stored (fun result => .range result.1 result.2) <$> p.readData iter
  | .bytes length, iter => stored (fun data => .range data length) <$> p.readBytes iter length
  | .length, iter => stored .int <$> p.readLength iter

/-- Reads one after another, whatever the earlier ones return. -/
def readAll (p : Pickle) : List Kind → Nat → Except Fault (List (Option Value) × Nat)
  | [], iter => .ok ([],iter)
  | kind :: kinds, iter => do
    let (value,iter) ← p.read kind iter
    let (values,iter) ← p.readAll kinds iter
    return (value :: values,iter)

/-! Writing. -/

/-- Where a write began, counted from the payload, and how much memory there was. -/
structure Written where
  offset : Nat
  length : Nat
  capacity : Nat
  deriving DecidableEq

structure Outcome where
  returned : Bool
  pickle : Pickle
  writes : List Written

variable (alloc : Allocator)

def resize (p : Pickle) (newCapacity : Nat) : Except Fault (Option Pickle) := do
  let newCapacity := alignInt newCapacity kPayloadUnit
  -- CHECK_NE
  if p.capacity = kCapacityReadOnly then .error .readOnly
  return (alloc.realloc p.block newCapacity).map fun block =>
    { p with block := block, header := block.address, capacity := newCapacity }

def store (p : Pickle) (a : Nat) (bytes : Bytes) : Except Fault Pickle := do
  return { p with block := ← p.block.store a bytes }

def setPayloadSize (p : Pickle) (payloadSize : Nat) : Except Fault Pickle :=
  p.store p.header (toBytes sizeofHeader payloadSize)

/-- `Pickle()`. Nothing is allocated yet. Without memory there is no pickle. -/
def fresh : Except Fault (Option Pickle) := do
  match ← resize alloc ⟨⟨0,[],by decide,nofun⟩,0,sizeofHeader,0⟩ kPayloadUnit with
  | none => return none
  | some p => return some (← p.setPayloadSize 0)

/-- The condition in `BeginWrite` that resizes. -/
def reserve (p : Pickle) (neededSize : Nat) : Except Fault (Option Pickle) :=
  if p.capacity < neededSize then p.resize alloc (max (p.capacity * 2 % 2^64) neededSize) else .ok (some p)

def beginWrite (p : Pickle) (length : Nat) : Except Fault (Option (Nat × Pickle)) := do
  let offset := alignInt (← p.payloadSize) 4
  let newSize := (offset + length) % 2^64
  let neededSize := (p.headerSize + newSize) % 2^64
  match ← p.reserve alloc neededSize with
  | none => return none
  | some p =>
    let p ← p.setPayloadSize (newSize % 2^32)
    return some ((p.payload + offset) % 2^64,p)

def endWrite (p : Pickle) (dest : Nat) (length : Int32) : Except Fault Pickle :=
  let rest := sizeT length % 4
  if rest ≠ 0 then p.store ((dest + sizeT length) % 2^64) (List.replicate (4 - rest) 0) else pure p

/-- `data` is what the pointer of that name points at. -/
def writeBytes (p : Pickle) (data : Bytes) (dataLen : Int32) : Except Fault Outcome := do
  match ← p.beginWrite alloc (sizeT dataLen) with
  | none => return ⟨false,p,[]⟩
  | some (dest,p) =>
    if data.length < sizeT dataLen then .error .sourceTooShort
    let p ← p.store dest (data.take (sizeT dataLen))
    let p ← p.endWrite dest dataLen
    return ⟨true,p,[⟨dest - p.payload,sizeT dataLen,p.capacity⟩]⟩

def Outcome.andThen (first : Outcome) (next : Pickle → Except Fault Outcome) : Except Fault Outcome := do
  if first.returned then
    let second ← next first.pickle
    return { second with writes := first.writes ++ second.writes }
  else return first

/-- What the writers of a fixed size do. -/
def writeFixed (encoded : Bytes) (p : Pickle) : Except Fault Outcome :=
  p.writeBytes alloc encoded (Int32.ofNat encoded.length)

def writeInt (value : Int32) : Pickle → Except Fault Outcome := writeFixed alloc (toBytes 4 value.toUInt32.toNat)
def writeBool (value : Bool) : Pickle → Except Fault Outcome := writeInt alloc (if value then 1 else 0)
def writeLong (value : Int64) : Pickle → Except Fault Outcome := writeFixed alloc (toBytes 8 value.toUInt64.toNat)
def writeSize (value : UInt64) : Pickle → Except Fault Outcome := writeFixed alloc (toBytes 8 value.toNat)
def writeUInt16 (value : UInt16) : Pickle → Except Fault Outcome := writeFixed alloc (toBytes 2 value.toNat)
def writeUInt32 (value : UInt32) : Pickle → Except Fault Outcome := writeFixed alloc (toBytes 4 value.toNat)
def writeInt64 (value : Int64) : Pickle → Except Fault Outcome := writeFixed alloc (toBytes 8 value.toUInt64.toNat)
def writeUInt64 (value : UInt64) : Pickle → Except Fault Outcome := writeFixed alloc (toBytes 8 value.toNat)

def writeString (value : Bytes) (p : Pickle) : Except Fault Outcome := do
  (← p.writeInt alloc (Int32.ofNat value.length)).andThen fun p => p.writeBytes alloc value (Int32.ofNat value.length)

def writeWString (value : List UInt32) (p : Pickle) : Except Fault Outcome := do
  (← p.writeInt alloc (Int32.ofNat value.length)).andThen fun p =>
    p.writeBytes alloc (value.flatMap fun c => toBytes 4 c.toNat) (Int32.ofNat (value.length * 4))

def writeString16 (value : List UInt16) (p : Pickle) : Except Fault Outcome := do
  (← p.writeInt alloc (Int32.ofNat value.length)).andThen fun p =>
    p.writeBytes alloc (value.flatMap fun c => toBytes 2 c.toNat) (Int32.ofNat (sizeT (Int32.ofNat value.length) * 2))

def writeData (data : Bytes) (length : Int32) (p : Pickle) : Except Fault Outcome := do
  if length.toInt < 0 then return ⟨false,p,[]⟩
  (← p.writeInt alloc length).andThen fun p => p.writeBytes alloc data length

/-- A typed write. The length that is passed with the bytes is their number. -/
inductive Item
  | bool (value : Bool)
  | int (value : Int32)
  | long (value : Int64)
  | size (value : UInt64)
  | uint16 (value : UInt16)
  | uint32 (value : UInt32)
  | int64 (value : Int64)
  | uint64 (value : UInt64)
  | string (value : Bytes)
  | wstring (value : List UInt32)
  | string16 (value : List UInt16)
  | data (value : Bytes)
  | bytes (value : Bytes)
  deriving DecidableEq

def write : Item → Pickle → Except Fault Outcome
  | .bool value => writeBool alloc value
  | .int value => writeInt alloc value
  | .long value => writeLong alloc value
  | .size value => writeSize alloc value
  | .uint16 value => writeUInt16 alloc value
  | .uint32 value => writeUInt32 alloc value
  | .int64 value => writeInt64 alloc value
  | .uint64 value => writeUInt64 alloc value
  | .string value => writeString alloc value
  | .wstring value => writeWString alloc value
  | .string16 value => writeString16 alloc value
  | .data value => writeData alloc value (Int32.ofNat value.length)
  | .bytes value => fun p => p.writeBytes alloc value (Int32.ofNat value.length)

/-- Writes one after another, whatever the earlier ones return. -/
def writeAll : List Item → Pickle → Except Fault Outcome
  | [], p => .ok ⟨true,p,[]⟩
  | item :: items, p => do
    let first ← write alloc item p
    let rest ← writeAll items first.pickle
    return ⟨first.returned && rest.returned,rest.pickle,first.writes ++ rest.writes⟩

/-- What `data()` points at. -/
def data (p : Pickle) (size : Nat) : Block where
  address := p.block.address
  bytes := p.block.bytes.take size
  inMemory := Nat.lt_of_le_of_lt (Nat.add_le_add_left (List.length_take_le' size p.block.bytes) _) p.block.inMemory
  notNull filled := p.block.notNull fun empty => filled (by rw [empty,List.take_nil])

end Pickle
end WebSearch
