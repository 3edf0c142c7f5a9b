import WebSearch.PickleWrite

/-! What was written to a pickle is read from its data. -/
namespace WebSearch.Pickle
open Library

def Item.kind : Item → Kind
  | .bool _ => .bool
  | .int _ => .int
  | .long _ => .long
  | .size _ => .size
  | .uint16 _ => .uint16
  | .uint32 _ => .uint32
  | .int64 _ => .int64
  | .uint64 _ => .uint64
  | .string _ => .string
  | .wstring _ => .wstring
  | .string16 _ => .string16
  | .data _ => .data
  | .bytes value => .bytes (Int32.ofNat value.length)

/-- The value is the one that was written. A range has the written bytes in it. -/
def Item.Shown (block : Block) : Item → Value → Prop
  | .bool value, shown => shown = .bool value
  | .int value, shown => shown = .int value
  | .long value, shown => shown = .long value
  | .size value, shown => shown = .size value
  | .uint16 value, shown => shown = .uint16 value
  | .uint32 value, shown => shown = .uint32 value
  | .int64 value, shown => shown = .int64 value
  | .uint64 value, shown => shown = .uint64 value
  | .string value, shown => shown = .string value
  | .wstring value, shown => shown = .wstring value
  | .string16 value, shown => shown = .string16 value
  | .data value, shown => ∃ a, shown = .range a (Int32.ofNat value.length) ∧ block.load a value.length = .ok value
  | .bytes value, shown => ∃ a, shown = .range a (Int32.ofNat value.length) ∧ block.load a value.length = .ok value

/-- A pickle that reads a payload behind a header of four bytes. The addresses up to the
end of the padding exist. -/
structure Reading (q : Pickle) (content : Bytes) (stop : Nat) : Prop where
  valid : Valid q content.length
  bytes : q.block.bytes = toBytes 4 content.length ++ content
  inMemory : q.block.address + sizeofHeader + stop < 2^64
  small : content.length < 2^31

section Reading
variable {q : Pickle} {content : Bytes} {offset stop iter : Nat} {chunks : List Bytes}

/-- The chunk that comes next is there, and the iterator gets behind its padding. -/
structure Next (q : Pickle) (a : Nat) (chunk : Bytes) (after : Nat) : Prop where
  room : q.Room a chunk.length
  slice : q.block.slice a chunk.length = chunk
  small : chunk.length < 2^31
  update : updateIter a (Int32.ofNat chunk.length) = after

theorem Reading.next (reading : Reading q content stop) {chunk : Bytes}
    (laid : Laid 4 content offset (chunk :: chunks) stop) :
    Next q (q.block.address + sizeofHeader + offset) chunk (q.block.address + sizeofHeader + (offset + alignUp chunk.length 4)) ∧
      Laid 4 content (offset + alignUp chunk.length 4) chunks stop := by
  cases laid with
  | cons within here later =>
    have small := reading.small
    have bound := reading.inMemory
    have order := later.start_le
    have bytes := reading.bytes
    refine ⟨⟨⟨?_,?_⟩,?_,by omega,?_⟩,later⟩
    · unfold sizeofHeader
      omega
    · rw [Block.stop,bytes,List.length_append,length_toBytes]
      unfold sizeofHeader
      omega
    · have skipped : (q.block.address + sizeofHeader + offset) - q.block.address = 4 + offset := by
        unfold sizeofHeader
        omega
      have behind : (toBytes 4 content.length ++ content).drop (4 + offset) = content.drop offset := by
        rw [← List.drop_drop,List.drop_left' (length_toBytes 4 _)]
      rw [Block.slice,skipped,bytes,behind]
      exact here
    · have aligned : alignInt chunk.length 4 = alignUp chunk.length 4 := by
        unfold sizeofHeader at bound
        rw [alignInt]
        omega
      rw [updateIter,sizeT_ofNat (by omega),aligned,Nat.add_assoc]
      unfold sizeofHeader at *
      omega

theorem uint16_toBytes (value : UInt16) : uint16 (toBytes 2 value.toNat) = value := by
  rw [uint16,ofBytes_toBytes value.toNat_lt,UInt16.ofNat_toNat]

theorem uint32_toBytes (value : UInt32) : uint32 (toBytes 4 value.toNat) = value := by
  rw [uint32,ofBytes_toBytes value.toNat_lt,UInt32.ofNat_toNat]

theorem uint64_toBytes (value : UInt64) : uint64 (toBytes 8 value.toNat) = value := by
  rw [uint64,ofBytes_toBytes value.toNat_lt,UInt64.ofNat_toNat]

theorem Next.readFixed {α : Type} {a after n : Nat} {chunk : Bytes} (next : Next q a chunk after) (valid : Valid q n)
    (start : q.started iter = a) (decode : Bytes → α) :
    Pickle.readFixed chunk.length decode q iter = .ok (some (decode chunk),after) := by
  rw [valid.readFixed next.small,start,if_pos next.room,next.slice,next.update]

theorem Reading.afterLength {α : Type} (reading : Reading q content stop) {count : Nat} (small : count < 2^31)
    (laid : Laid 4 content offset (toBytes 4 count :: chunks) stop) (start : q.started iter = q.block.address + sizeofHeader + offset)
    (rest : Int32 → Nat → Except Fault (Option α × Nat)) :
    q.afterLength iter rest = rest (Int32.ofNat count) (q.block.address + sizeofHeader + (offset + 4)) ∧
      Laid 4 content (offset + 4) chunks stop := by
  obtain ⟨next,later⟩ := reading.next laid
  have room := next.room
  have slice := next.slice
  rw [length_toBytes] at room slice later
  have here : q.lengthAt (q.started iter) = Int32.ofNat count := by
    rw [lengthAt,start,slice,uint32,ofBytes_toBytes (by omega)]
    rfl
  have nonneg : 0 ≤ (Int32.ofNat count).toInt := by
    rw [toInt_ofNat small]
    omega
  refine ⟨?_,later⟩
  rw [reading.valid.afterLength,here,start,if_pos room,if_pos nonneg,Nat.add_assoc]

theorem Reading.readUnits {α : Type} (reading : Reading q content stop) {width : Nat} {encode : α → Bytes} {decode : Bytes → α}
    (same : ∀ c, (encode c).length = width) (inverse : ∀ c, decode (encode c) = c) (positive : 0 < width) {value : List α}
    (laid : Laid 4 content offset (value.flatMap encode :: chunks) stop) :
    ∃ after, q.readUnits width decode (q.block.address + sizeofHeader + offset) (Int32.ofNat value.length) =
      .ok (some value,q.block.address + sizeofHeader + after) ∧ Laid 4 content after chunks stop := by
  obtain ⟨next,later⟩ := reading.next laid
  have length := length_flatMap_width same value
  have small := next.small
  have room := next.room
  have slice := next.slice
  have update := next.update
  rw [length] at small room slice update later
  have fewer : value.length ≤ value.length * width := Nat.le_mul_of_pos_right _ positive
  have count : (Int32.ofNat value.length).toInt = value.length := toInt_ofNat (by omega)
  refine ⟨_,?_,later⟩
  rw [reading.valid.readUnits (by rw [count]; omega) (by rw [count,Int.toNat_natCast]; omega),count,Int.toNat_natCast,
    if_pos ⟨small,room⟩,slice,update,pieces_flatMap same,List.map_map]
  have back : value.map (decode ∘ encode) = value := by
    have identity : decode ∘ encode = id := funext inverse
    rw [identity,List.map_id]
  rw [back]

theorem Reading.readBytes (reading : Reading q content stop) {value : Bytes} (laid : Laid 4 content offset (value :: chunks) stop)
    (start : q.started iter = q.block.address + sizeofHeader + offset) : ∃ after,
    q.readBytes iter (Int32.ofNat value.length) =
      .ok (some (q.block.address + sizeofHeader + offset),q.block.address + sizeofHeader + after) ∧
      q.block.load (q.block.address + sizeofHeader + offset) value.length = .ok value ∧ Laid 4 content after chunks stop := by
  obtain ⟨next,later⟩ := reading.next laid
  refine ⟨_,?_,?_,later⟩
  · rw [reading.valid.readBytes,toInt_ofNat next.small,Int.toNat_natCast,start,if_pos ⟨Int.natCast_nonneg _,next.room⟩,next.update]
  · rw [load_eq next.room.1 next.room.2,next.slice]

theorem started_behind (q : Pickle) (offset : Nat) :
    q.started (q.block.address + sizeofHeader + offset) = q.block.address + sizeofHeader + offset :=
  started_eq (by unfold sizeofHeader; omega)

/-- Reading gives the item that was written, and what follows it is next. -/
def Reads (q : Pickle) (content : Bytes) (stop : Nat) (chunks : List Bytes) (item : Item) (result : Except Fault (Option Value × Nat)) : Prop :=
  ∃ value after, result = .ok (some value,q.block.address + sizeofHeader + after) ∧ item.Shown q.block value ∧
    Laid 4 content after chunks stop

theorem Reading.read_fixed {α : Type} (reading : Reading q content stop) {width n : Nat} {decode : Bytes → α} (wrap : α → Value)
    {item : Item} (start : q.started iter = q.block.address + sizeofHeader + offset)
    (laid : Laid 4 content offset (toBytes width n :: chunks) stop) (shown : item.Shown q.block (wrap (decode (toBytes width n)))) :
    Reads q content stop chunks item (stored wrap <$> Pickle.readFixed width decode q iter) := by
  obtain ⟨next,later⟩ := reading.next laid
  have fixed := next.readFixed reading.valid start decode
  rw [length_toBytes] at fixed later
  rw [fixed]
  exact ⟨_,_,rfl,shown,later⟩

theorem Reading.read_text {α : Type} (reading : Reading q content stop) {width : Nat} {encode : α → Bytes} {decode : Bytes → α}
    (wrap : List α → Value) {item : Item} (same : ∀ c, (encode c).length = width) (inverse : ∀ c, decode (encode c) = c)
    (positive : 0 < width) {value : List α} (small : value.length < 2^31) (start : q.started iter = q.block.address + sizeofHeader + offset)
    (laid : Laid 4 content offset (toBytes 4 value.length :: value.flatMap encode :: chunks) stop)
    (shown : item.Shown q.block (wrap value)) :
    Reads q content stop chunks item (stored wrap <$> q.afterLength iter fun len iter => q.readUnits width decode iter len) := by
  obtain ⟨read,later⟩ := reading.afterLength small laid start fun len iter => q.readUnits width decode iter len
  obtain ⟨after,units,last⟩ := reading.readUnits same inverse positive later
  rw [read,units]
  exact ⟨_,_,rfl,shown,last⟩

theorem chunk_short (reading : Reading q content stop) {first second : Bytes}
    (laid : Laid 4 content offset (first :: second :: chunks) stop) : second.length < 2^31 :=
  (reading.next (reading.next laid).2).1.small

theorem Reading.read (reading : Reading q content stop) (item : Item) (start : q.started iter = q.block.address + sizeofHeader + offset)
    (laid : Laid 4 content offset (item.chunks ++ chunks) stop) : Reads q content stop chunks item (q.read item.kind iter) := by
  cases item with
  | bool value =>
    change Reads _ _ _ _ _ (stored .bool <$> q.readBool iter)
    obtain ⟨next,later⟩ := reading.next laid
    have fixed := next.readFixed reading.valid start fun bytes => (uint32 bytes).toInt32
    rw [length_toBytes] at fixed later
    rw [readBool,readInt,fixed]
    refine ⟨_,_,rfl,?_,later⟩
    cases value <;> rfl
  | int value => exact reading.read_fixed .int start laid (congrArg Value.int (by rw [uint32_toBytes]; rfl))
  | long value => exact reading.read_fixed .long start laid (congrArg Value.long (by rw [uint64_toBytes]; rfl))
  | size value => exact reading.read_fixed .size start laid (congrArg Value.size (uint64_toBytes value))
  | uint16 value => exact reading.read_fixed .uint16 start laid (congrArg Value.uint16 (uint16_toBytes value))
  | uint32 value => exact reading.read_fixed .uint32 start laid (congrArg Value.uint32 (uint32_toBytes value))
  | int64 value => exact reading.read_fixed .int64 start laid (congrArg Value.int64 (by rw [uint64_toBytes]; rfl))
  | uint64 value => exact reading.read_fixed .uint64 start laid (congrArg Value.uint64 (uint64_toBytes value))
  | string value =>
    have bytes : value.flatMap (fun c => [c]) = value := List.flatMap_singleton' value
    have short := chunk_short reading laid
    have pieces : Laid 4 content offset (toBytes 4 value.length :: value.flatMap (fun c => [c]) :: chunks) stop := by
      rw [bytes]
      exact laid
    have inverse (c : UInt8) : byte [c] = c := UInt8.ofNat_toNat
    exact reading.read_text .string (fun _ => rfl) inverse (by decide) short start pieces rfl
  | wstring value =>
    have short := chunk_short reading laid
    rw [length_wide] at short
    obtain ⟨read,later⟩ := reading.afterLength (by omega) laid start fun len iter =>
      if (2^31 - 1) / 4 < len.toInt then .ok (none,iter) else q.readUnits 4 uint32 iter len
    obtain ⟨after,units,last⟩ := reading.readUnits (fun c : UInt32 => length_toBytes 4 c.toNat) uint32_toBytes (by decide) later
    have fits : ¬(2^31 - 1) / 4 < (Int32.ofNat value.length).toInt := by
      rw [toInt_ofNat (by omega)]
      omega
    rw [if_neg fits,units] at read
    change Reads _ _ _ _ _ (stored .wstring <$> q.readWString iter)
    rw [readWString,read]
    exact ⟨_,_,rfl,rfl,last⟩
  | string16 value =>
    have short := chunk_short reading laid
    rw [length_char16] at short
    exact reading.read_text .string16 (fun c : UInt16 => length_toBytes 2 c.toNat) uint16_toBytes (by decide) (by omega) start laid rfl
  | data value =>
    have short := chunk_short reading laid
    have front := @Reading.afterLength _ _ _ _ _ _ (Nat × Int32) reading _ short laid start
    obtain ⟨after,bytes,loaded,last⟩ := reading.readBytes (front fun _ _ => .error .readOnly).2 (started_behind q _)
    change Reads _ _ _ _ _ (stored (fun result => .range result.1 result.2) <$> q.readData iter)
    rw [readData,(front _).1]
    rw [bytes]
    exact ⟨_,_,rfl,⟨_,rfl,loaded⟩,last⟩
  | bytes value =>
    obtain ⟨after,bytes,loaded,last⟩ := reading.readBytes laid start
    change Reads _ _ _ _ _ (stored (fun data => .range data (Int32.ofNat value.length)) <$> q.readBytes iter (Int32.ofNat value.length))
    rw [bytes]
    exact ⟨_,_,rfl,⟨_,rfl,loaded⟩,last⟩

theorem Reading.readAll (reading : Reading q content stop) {items : List Item} (start : q.started iter = q.block.address + sizeofHeader + offset)
    (laid : Laid 4 content offset (items.flatMap Item.chunks) stop) : ∃ results last,
      q.readAll (items.map Item.kind) iter = .ok (results,last) ∧ q.started last = q.block.address + sizeofHeader + stop ∧
        List.Forall₂ (fun item result => ∃ value, result = some value ∧ item.Shown q.block value) items results := by
  induction items generalizing iter offset with
  | nil =>
    cases laid with
    | nil => exact ⟨[],iter,rfl,start,.nil⟩
  | cons item items ih =>
    obtain ⟨value,after,read,shown,later⟩ := reading.read item start laid
    obtain ⟨results,last,others,ended,rest⟩ := ih (started_behind q after) later
    refine ⟨some value :: results,last,?_,ended,.cons ⟨value,rfl,shown⟩ rest⟩
    rw [List.map_cons,Pickle.readAll,read]
    dsimp only [bind,Except.bind]
    rw [others]
    rfl

/-- Behind the payload only no bytes at all can be read. -/
theorem Reading.exhausted (reading : Reading q content stop) (full : content.length ≤ stop)
    (start : q.started iter = q.block.address + sizeofHeader + stop) {kind : Kind} (some : kind ≠ .bytes 0) :
    ∃ next, q.read kind iter = .ok (none,next) := by
  have outside {n : Nat} (positive : 0 < n) : ¬q.Room (q.started iter) n := by
    intro room
    have high := room.2
    rw [start,Block.stop,reading.bytes,List.length_append,length_toBytes] at high
    unfold sizeofHeader at high
    omega
  have fixed {α : Type} {width : Nat} (small : width < 2^31) (positive : 0 < width) (decode : Bytes → α) (wrap : α → Value) :
      ∃ next, stored wrap <$> Pickle.readFixed width decode q iter = .ok (none,next) := by
    rw [reading.valid.readFixed small,if_neg (outside positive)]
    exact ⟨_,rfl⟩
  have text {α : Type} (rest : Int32 → Nat → Except Fault (Option α × Nat)) (wrap : α → Value) :
      ∃ next, stored wrap <$> q.afterLength iter rest = .ok (none,next) := by
    rw [reading.valid.afterLength,if_neg (outside (by decide))]
    exact ⟨_,rfl⟩
  cases kind with
  | bool =>
    rw [Pickle.read,readBool,reading.valid.readInt,if_neg (outside (by decide))]
    exact ⟨_,rfl⟩
  | int => exact fixed (by decide) (by decide) _ _
  | long => exact fixed (by decide) (by decide) _ _
  | size => exact fixed (by decide) (by decide) _ _
  | uint16 => exact fixed (by decide) (by decide) _ _
  | uint32 => exact fixed (by decide) (by decide) _ _
  | int64 => exact fixed (by decide) (by decide) _ _
  | uint64 => exact fixed (by decide) (by decide) _ _
  | length =>
    rw [Pickle.read,readLength,reading.valid.readInt,if_neg (outside (by decide))]
    exact ⟨_,rfl⟩
  | string => exact text _ _
  | wstring => exact text _ _
  | string16 => exact text _ _
  | data => exact text _ _
  | bytes length =>
    have empty : ¬(0 ≤ length.toInt ∧ q.Room (q.started iter) length.toInt.toNat) := by
      intro both
      have nonzero : length.toInt ≠ 0 := fun zero => some (congrArg Kind.bytes (Int32.toInt_inj.mp zero))
      exact outside (by omega) both.2
    rw [Pickle.read,reading.valid.readBytes,if_neg empty]
    exact ⟨_,rfl⟩

end Reading

/-- The data of a pickle are read by another. -/
theorem Memory.reading {p : Pickle} {content : Bytes} (memory : Memory p content) (small : sizeofHeader + content.length < 2^31) :
    p.size = .ok (sizeofHeader + content.length) ∧ ∃ q,
      ofData (p.data (sizeofHeader + content.length)) (Int32.ofNat (sizeofHeader + content.length)) = .ok q ∧
        Reading q content (alignUp content.length 4) := by
  unfold sizeofHeader at small
  have padded := memory.aligned
  have bound := p.block.inMemory
  obtain ⟨rest,parts⟩ := memory.holds
  have size : p.size = .ok (sizeofHeader + content.length) := by
    rw [Pickle.size,memory.payloadSize (by omega),memory.headerSize]
    change Except.ok ((sizeofHeader + content.length) % 2^64) = _
    unfold sizeofHeader
    rw [Nat.mod_eq_of_lt (by omega)]
  have bytes : (p.data (sizeofHeader + content.length)).bytes = toBytes 4 content.length ++ content := by
    change p.block.bytes.take _ = _
    rw [parts]
    apply List.take_left'
    rw [List.length_append,length_toBytes,sizeofHeader]
  have length : (p.data (sizeofHeader + content.length)).bytes.length = sizeofHeader + content.length := by
    rw [bytes,List.length_append,length_toBytes,sizeofHeader]
  have header : ofBytes ((p.data (sizeofHeader + content.length)).bytes.take 4) = content.length := by
    rw [bytes,List.take_left' (length_toBytes 4 _),ofBytes_toBytes (by omega)]
  obtain ⟨q,made,block,_,fine⟩ := ofData_eq (by rw [length]; exact small)
  have consistent : ¬(p.data (sizeofHeader + content.length)).Inconsistent := by
    unfold Block.Inconsistent
    rw [length,header]
    unfold sizeofHeader
    omega
  have valid := (fine consistent).1
  rw [header] at valid
  rw [length] at made
  refine ⟨size,q,made,valid,by rw [block,bytes],?_,by omega⟩
  rw [block]
  change p.block.address + sizeofHeader + alignUp content.length 4 < 2^64
  rw [memory.capacity] at bound
  omega

/-- Whatever is written to a fresh pickle, no write leaves its memory, and unless memory
runs out, reading the same types gives the same values, and then no more. -/
theorem pickle_round_trip (alloc : Allocator) (items : List Item) (small : sizeWith (items.flatMap Item.chunks) < 2^31) :
    (fresh alloc = .ok none ∧ alloc.Failing) ∨ ∃ p outcome, fresh alloc = .ok (some p) ∧
      writeAll alloc items p = .ok outcome ∧ (∀ w ∈ outcome.writes, w.Placed) ∧
      (outcome.returned = false → alloc.Failing) ∧
      (outcome.returned = true → ∃ size, outcome.pickle.size = .ok size ∧ size = sizeWith (items.flatMap Item.chunks) ∧
        ∃ q results iter, ofData (outcome.pickle.data size) (Int32.ofNat size) = .ok q ∧
          q.readAll (items.map Item.kind) 0 = .ok (results,iter) ∧
          List.Forall₂ (fun item result => ∃ value, result = some value ∧ item.Shown q.block value) items results ∧
          ∀ kind, kind ≠ .bytes 0 → ∃ next, q.read kind iter = .ok (none,next)) := by
  obtain failed | ⟨p,made,holds⟩ := fresh_holds alloc
  · exact .inl failed
  · obtain ⟨outcome,wrote,progress⟩ := @Holds.writeAll alloc _ _ holds items small
    refine .inr ⟨p,outcome,made,wrote,progress.placed,progress.failing,fun returned => ?_⟩
    obtain ⟨done,_,all,after⟩ := progress.holds
    rw [all returned,List.nil_append] at after
    obtain ⟨content,memory,length,laid⟩ := after.memory
    have total : sizeofHeader + content.length = sizeWith (items.flatMap Item.chunks) := congrArg _ length
    obtain ⟨size,q,read,reading⟩ := memory.reading (total ▸ after.small)
    have start : q.started 0 = q.block.address + sizeofHeader + 0 := by
      have valid := reading.valid.total
      have inMemory := reading.inMemory
      have header := reading.valid.header
      rw [reading.bytes,List.length_append,length_toBytes] at valid
      unfold sizeofHeader at *
      rw [Pickle.started,if_pos rfl,Pickle.payload]
      omega
    obtain ⟨results,iter,values,ended,shown⟩ := reading.readAll start laid
    exact ⟨_,size,total,q,results,iter,read,values,shown,fun kind other => reading.exhausted (le_alignUp _) ended other⟩

/-- Memory that is filled with zeros, always at one address. -/
def plainAllocator : Allocator where
  realloc old n := if fits : n < 2^32 then
      have length : (old.bytes.take n ++ List.replicate (n - (old.bytes.take n).length) 0).length = n := by
        simp only [List.length_append,List.length_replicate,List.length_take]
        omega
      some ⟨4096,old.bytes.take n ++ List.replicate (n - (old.bytes.take n).length) 0,by omega,fun _ => by decide⟩
    else none
  length_eq old n new moved := by
    split at moved
    · rw [← Option.some.inj moved]
      simp only [List.length_append,List.length_replicate,List.length_take]
      omega
    · cases moved
  kept old n new moved := by
    split at moved
    · rw [← Option.some.inj moved]
      exact List.prefix_append _ _
    · cases moved

def someItems : List Item := [.uint16 7,.string [104,105],.bool true,.wstring [],.bytes [1,2,3]]

theorem pickle_round_trip_some : ∃ p outcome, fresh plainAllocator = .ok (some p) ∧
    writeAll plainAllocator someItems p = .ok outcome ∧ ∀ w ∈ outcome.writes, w.Placed := by
  obtain ⟨failed,_⟩ | ⟨p,outcome,made,wrote,placed,_⟩ := pickle_round_trip plainAllocator someItems (by decide)
  · cases failed
  · exact ⟨p,outcome,made,wrote,placed⟩

end WebSearch.Pickle
