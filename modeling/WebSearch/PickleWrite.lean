import WebSearch.PickleRead

/-! What a pickle holds that has only been written to. -/
namespace WebSearch.Pickle
open Library

/-- The pieces of memory that a typed write asks for. -/
def Item.chunks : Item → List Bytes
  | .bool value => [toBytes 4 (if value then 1 else 0)]
  | .int value => [toBytes 4 value.toUInt32.toNat]
  | .long value => [toBytes 8 value.toUInt64.toNat]
  | .size value => [toBytes 8 value.toNat]
  | .uint16 value => [toBytes 2 value.toNat]
  | .uint32 value => [toBytes 4 value.toNat]
  | .int64 value => [toBytes 8 value.toUInt64.toNat]
  | .uint64 value => [toBytes 8 value.toNat]
  | .string value => [toBytes 4 value.length,value]
  | .wstring value => [toBytes 4 value.length,value.flatMap fun c => toBytes 4 c.toNat]
  | .string16 value => [toBytes 4 value.length,value.flatMap fun c => toBytes 2 c.toNat]
  | .data value => [toBytes 4 value.length,value]
  | .bytes value => [value]

/-- The size of a pickle with these chunks. -/
def sizeWith (chunks : List Bytes) : Nat := sizeofHeader + layoutSize 4 chunks

theorem exists_parts {α : Type} {list : List α} {i n : Nat} (long : i + n ≤ list.length) :
    ∃ front part back, list = front ++ part ++ back ∧ front.length = i ∧ part.length = n := by
  refine ⟨list.take i,(list.drop i).take n,(list.drop i).drop n,?_,?_,?_⟩
  · rw [List.append_assoc,List.take_append_drop,List.take_append_drop]
  · rw [List.length_take]
    omega
  · rw [List.length_take,List.length_drop]
    omega

theorem splice_parts {front part back bytes : Bytes} (same : bytes.length = part.length) :
    splice (front ++ part ++ back) front.length bytes = front ++ bytes ++ back := by
  have later : (front ++ part ++ back).drop (front.length + bytes.length) = back := by
    rw [same,← List.length_append,List.drop_left]
  rw [splice,later,List.append_assoc front part,List.take_left]

theorem store_parts {block : Block} {front part back bytes : Bytes} (parts : block.bytes = front ++ part ++ back)
    (same : bytes.length = part.length) : ∃ new, block.store (block.address + front.length) bytes = .ok new ∧
      new.address = block.address ∧ new.bytes.length = block.bytes.length ∧ new.bytes = front ++ bytes ++ back := by
  have covered : block.covers (block.address + front.length) bytes.length = true := by
    simp only [Block.covers,Bool.and_eq_true,decide_eq_true_eq,parts,List.length_append]
    omega
  have after : splice block.bytes (block.address + front.length - block.address) bytes = front ++ bytes ++ back := by
    rw [Nat.add_sub_cancel_left,parts,splice_parts same]
  rw [Block.store,dif_pos covered]
  refine ⟨_,rfl,rfl,?_,after⟩
  change (splice _ _ _).length = _
  rw [after,parts]
  simp [same]

/-- The memory of a writable pickle with so much payload. -/
structure Memory (p : Pickle) (content : Bytes) : Prop where
  header : p.header = p.block.address
  headerSize : p.headerSize = sizeofHeader
  capacity : p.block.bytes.length = p.capacity
  units : p.capacity % kPayloadUnit = 0
  bounded : p.capacity ≤ 2^33
  positive : 0 < p.capacity
  holds : ∃ rest, p.block.bytes = toBytes 4 content.length ++ content ++ rest

/-- The payload has the chunks in it, each where it was written. -/
structure Holds (p : Pickle) (chunks : List Bytes) : Prop where
  memory : ∃ content, Memory p content ∧ content.length = layoutSize 4 chunks ∧
    Laid 4 content 0 chunks (alignUp content.length 4)
  small : sizeWith chunks < 2^31

section Memory
variable {p : Pickle} {content : Bytes} {alloc : Allocator}

theorem Memory.long (memory : Memory p content) : sizeofHeader + content.length ≤ p.capacity := by
  obtain ⟨rest,parts⟩ := memory.holds
  rw [← memory.capacity,parts]
  simp only [List.length_append,length_toBytes,sizeofHeader]
  omega

/-- The padding behind the payload is still memory. -/
theorem Memory.aligned (memory : Memory p content) : sizeofHeader + alignUp content.length 4 ≤ p.capacity := by
  have long := memory.long
  have units := memory.units
  have multiple := alignUp_mod (by decide : 0 < 4) content.length
  have near := alignUp_lt (by decide : 0 < 4) content.length
  unfold sizeofHeader kPayloadUnit at *
  omega

theorem Memory.payloadSize (memory : Memory p content) (small : content.length < 2^32) :
    p.payloadSize = .ok content.length := by
  obtain ⟨rest,parts⟩ := memory.holds
  have long : 4 ≤ p.block.bytes.length := by
    rw [parts]
    simp only [List.length_append,length_toBytes]
    omega
  have first : p.block.bytes.take 4 = toBytes 4 content.length := by
    rw [parts,List.append_assoc]
    exact List.take_left' (length_toBytes 4 content.length)
  rw [Pickle.payloadSize,memory.header,load_start long,first]
  exact congrArg Except.ok (ofBytes_toBytes small)

theorem Memory.payload (memory : Memory p content) : p.payload = p.block.address + sizeofHeader := by
  have long := memory.long
  have bound := p.block.inMemory
  rw [memory.capacity] at bound
  rw [Pickle.payload,memory.header,memory.headerSize]
  unfold sizeofHeader at *
  omega

theorem Memory.withBlock (memory : Memory p content) {block : Block} {other : Bytes} (address : block.address = p.block.address)
    (length : block.bytes.length = p.block.bytes.length)
    (parts : ∃ rest, block.bytes = toBytes 4 other.length ++ other ++ rest) :
    Memory { p with block := block } other where
  header := memory.header.trans address.symm
  headerSize := memory.headerSize
  capacity := length.trans memory.capacity
  units := memory.units
  bounded := memory.bounded
  positive := memory.positive
  holds := parts

theorem Memory.store {front part back bytes : Bytes} (memory : Memory p (front ++ part ++ back)) (same : bytes.length = part.length) :
    ∃ q, p.store (p.block.address + sizeofHeader + front.length) bytes = .ok q ∧
      Memory q (front ++ bytes ++ back) ∧ q.capacity = p.capacity ∧ q.block.address = p.block.address := by
  obtain ⟨rest,parts⟩ := memory.holds
  have whole : p.block.bytes = toBytes 4 (front ++ part ++ back).length ++ front ++ part ++ (back ++ rest) := by
    rw [parts]
    simp only [List.append_assoc]
  obtain ⟨block,stored,address,length,after⟩ := store_parts whole same
  rw [List.length_append,length_toBytes,← Nat.add_assoc] at stored
  refine ⟨{ p with block := block },?_,memory.withBlock address length ⟨rest,?_⟩,rfl,address⟩
  · unfold Pickle.store sizeofHeader
    rw [stored]
    rfl
  · have size : (front ++ bytes ++ back).length = (front ++ part ++ back).length := by simp [same]
    rw [after,size]
    simp only [List.append_assoc]

theorem Memory.behind {n : Nat} (memory : Memory p content) (fits : sizeofHeader + content.length + n ≤ p.capacity) :
    ∃ part back, p.block.bytes = toBytes 4 content.length ++ content ++ part ++ back ∧ part.length = n := by
  obtain ⟨rest,parts⟩ := memory.holds
  have room : 0 + n ≤ rest.length := by
    rw [← memory.capacity,parts] at fits
    simp only [List.length_append,length_toBytes,sizeofHeader] at fits
    omega
  obtain ⟨front,part,back,split,nothing,same⟩ := exists_parts room
  rw [List.eq_nil_of_length_eq_zero nothing,List.nil_append] at split
  refine ⟨part,back,?_,same⟩
  rw [parts,split]
  simp only [List.append_assoc]

theorem Memory.storeBehind {bytes : Bytes} (memory : Memory p content) (fits : sizeofHeader + content.length + bytes.length ≤ p.capacity) :
    ∃ q, p.store (p.block.address + sizeofHeader + content.length) bytes = .ok q ∧
      Memory q content ∧ q.capacity = p.capacity ∧ q.block.address = p.block.address := by
  obtain ⟨part,back,whole,same⟩ := memory.behind fits
  obtain ⟨block,stored,address,length,after⟩ := store_parts whole same.symm
  rw [List.length_append,length_toBytes,← Nat.add_assoc] at stored
  refine ⟨{ p with block := block },?_,memory.withBlock address length ⟨bytes ++ back,?_⟩,rfl,address⟩
  · unfold Pickle.store sizeofHeader
    rw [stored]
    rfl
  · rw [after]
    simp only [List.append_assoc]

/-- A new payload size takes in what stood behind the payload. -/
theorem Memory.setPayloadSize {n : Nat} (memory : Memory p content) (fits : sizeofHeader + content.length + n ≤ p.capacity) :
    ∃ q more, p.setPayloadSize (content.length + n) = .ok q ∧ more.length = n ∧
      Memory q (content ++ more) ∧ q.capacity = p.capacity ∧ q.block.address = p.block.address := by
  obtain ⟨more,back,parts,length⟩ := memory.behind fits
  have whole : p.block.bytes = [] ++ toBytes 4 content.length ++ (content ++ more ++ back) := by
    rw [parts]
    simp only [List.nil_append,List.append_assoc]
  have same : (toBytes 4 (content.length + n)).length = (toBytes 4 content.length).length := by
    rw [length_toBytes,length_toBytes]
  obtain ⟨block,stored,address,kept,after⟩ := store_parts whole same
  rw [List.length_nil,Nat.add_zero,← memory.header] at stored
  refine ⟨{ p with block := block },more,?_,length,memory.withBlock address kept ⟨back,?_⟩,rfl,address⟩
  · unfold Pickle.setPayloadSize Pickle.store sizeofHeader
    rw [stored]
    rfl
  · rw [after,List.length_append,length]
    simp only [List.nil_append,List.append_assoc]

/-- Memory runs out at some time. -/
def Allocator.Failing (alloc : Allocator) : Prop := ∃ old n, alloc.realloc old n = none

/-- The memory is moved to a larger block, or not. -/
theorem Memory.resize (memory : Memory p content) {newCapacity : Nat} (larger : p.capacity ≤ newCapacity)
    (bounded : newCapacity ≤ 2^32) : (p.resize alloc newCapacity = .ok none ∧ alloc.Failing) ∨
      ∃ q, p.resize alloc newCapacity = .ok (some q) ∧ Memory q content ∧ newCapacity ≤ q.capacity := by
  have grown := @le_alignUp 64 newCapacity
  have near := alignUp_lt (by decide : 0 < 64) newCapacity
  have units := alignUp_mod (by decide : 0 < 64) newCapacity
  have aligned : alignInt newCapacity kPayloadUnit = alignUp newCapacity 64 := by
    rw [alignInt,kPayloadUnit]
    omega
  have writable : p.capacity ≠ kCapacityReadOnly := by
    have bound := memory.bounded
    unfold kCapacityReadOnly
    omega
  unfold Pickle.resize
  rw [if_neg writable,aligned]
  cases moved : alloc.realloc p.block (alignUp newCapacity 64) with
  | none => exact .inl ⟨rfl,_,_,moved⟩
  | some block =>
    have length := alloc.length_eq _ _ _ moved
    have kept := alloc.kept _ _ _ moved
    rw [List.take_of_length_le (by rw [memory.capacity]; omega)] at kept
    obtain ⟨extra,split⟩ := kept
    obtain ⟨rest,parts⟩ := memory.holds
    refine .inr ⟨_,rfl,⟨rfl,memory.headerSize,length,units,?_,?_,rest ++ extra,?_⟩,grown⟩
    · change alignUp newCapacity 64 ≤ 2^33
      omega
    · change 0 < alignUp newCapacity 64
      have positive := memory.positive
      omega
    · change block.bytes = _
      rw [← split,parts]
      simp only [List.append_assoc]

theorem Memory.reserve (memory : Memory p content) {neededSize : Nat} (bounded : neededSize < 2^31) :
    (p.reserve alloc neededSize = .ok none ∧ alloc.Failing) ∨
      ∃ q, p.reserve alloc neededSize = .ok (some q) ∧ Memory q content ∧ neededSize ≤ q.capacity := by
  unfold Pickle.reserve
  split
  · rename_i lacking
    have doubled : p.capacity * 2 % 2^64 = p.capacity * 2 := by omega
    rw [doubled]
    obtain failed | ⟨q,resized,held,enough⟩ := @Memory.resize _ _ alloc memory (max (p.capacity * 2) neededSize) (by omega) (by omega)
    · exact .inl failed
    · exact .inr ⟨q,resized,held,by omega⟩
  · rename_i enough
    exact .inr ⟨p,rfl,memory,by omega⟩

/-- The payload grows by padding and by what is to be written. -/
theorem Memory.beginWrite (memory : Memory p content) {length : Nat}
    (small : sizeofHeader + (alignUp content.length 4 + length) < 2^31) :
    (p.beginWrite alloc length = .ok none ∧ alloc.Failing) ∨
      ∃ q padding old, p.beginWrite alloc length = .ok (some (q.block.address + sizeofHeader + alignUp content.length 4,q)) ∧
        (content ++ padding).length = alignUp content.length 4 ∧ old.length = length ∧
        Memory q (content ++ padding ++ old) ∧ sizeofHeader + (alignUp content.length 4 + length) ≤ q.capacity := by
  have grows := @le_alignUp 4 content.length
  unfold sizeofHeader at small
  have aligned : alignInt content.length 4 = alignUp content.length 4 := by
    rw [alignInt]
    omega
  have size : (alignUp content.length 4 + length) % 2^64 = alignUp content.length 4 + length := by omega
  have needed : (p.headerSize + (alignUp content.length 4 + length)) % 2^64 = 4 + (alignUp content.length 4 + length) := by
    rw [memory.headerSize,sizeofHeader]
    omega
  have stored : (alignUp content.length 4 + length) % 2^32 = content.length + (alignUp content.length 4 - content.length + length) := by
    omega
  unfold Pickle.beginWrite
  rw [memory.payloadSize (by omega)]
  dsimp only [bind,Except.bind]
  rw [aligned,size,needed,stored]
  obtain failed | ⟨q,resized,held,enough⟩ := @Memory.reserve _ _ alloc memory (4 + (alignUp content.length 4 + length)) (by omega)
  · rw [failed.1]
    exact .inl ⟨rfl,failed.2⟩
  · rw [resized]
    have fits : sizeofHeader + content.length + (alignUp content.length 4 - content.length + length) ≤ q.capacity := by
      unfold sizeofHeader
      omega
    obtain ⟨after,more,set,long,holds,capacity,address⟩ := held.setPayloadSize fits
    obtain ⟨padding,old,none,split,first,second⟩ := exists_parts long.ge
    have nothing : none = [] := by
      apply List.eq_nil_of_length_eq_zero
      have total := congrArg List.length split
      simp only [List.length_append] at total
      omega
    rw [nothing,List.append_nil] at split
    refine .inr ⟨after,padding,old,?_,?_,second,?_,?_⟩
    · dsimp only
      rw [set]
      change Except.ok (some ((after.payload + alignUp content.length 4) % 2^64,after)) = _
      rw [holds.payload]
      have bound := after.block.inMemory
      rw [holds.capacity,capacity] at bound
      have inside : after.block.address + sizeofHeader + alignUp content.length 4 < 2^64 := by
        unfold sizeofHeader
        omega
      rw [Nat.mod_eq_of_lt inside]
    · rw [List.length_append,first]
      omega
    · rw [List.append_assoc,← split]
      exact holds
    · rw [capacity]
      exact enough

/-- Zeros up to the next multiple of four bytes. -/
theorem Memory.endWrite (memory : Memory p content) {dest : Nat} {length : Nat} (small : length < 2^31)
    (stop : dest + length = p.block.address + sizeofHeader + content.length) (same : length % 4 = content.length % 4) :
    ∃ q, p.endWrite dest (Int32.ofNat length) = .ok q ∧ Memory q content ∧ q.capacity = p.capacity ∧
      q.block.address = p.block.address := by
  have aligned := memory.aligned
  have multiple := alignUp_mod (by decide : 0 < 4) content.length
  have grows := @le_alignUp 4 content.length
  unfold Pickle.endWrite
  rw [sizeT_ofNat small]
  dsimp only
  split
  · rename_i rest
    have bound := p.block.inMemory
    rw [memory.capacity] at bound
    have fits : sizeofHeader + content.length + (List.replicate (4 - length % 4) (0 : UInt8)).length ≤ p.capacity := by
      rw [List.length_replicate]
      unfold sizeofHeader at *
      omega
    have inside : (dest + length) % 2^64 = p.block.address + sizeofHeader + content.length := by
      rw [stop]
      unfold sizeofHeader at *
      omega
    rw [inside]
    exact memory.storeBehind fits
  · exact ⟨p,rfl,memory,rfl,rfl⟩

end Memory

/-- A write began at a multiple of four, and its end and the padding are in the memory. -/
structure Written.Placed (w : Written) : Prop where
  aligned : w.offset % 4 = 0
  within : sizeofHeader + w.offset + w.length + (4 - w.length % 4) % 4 ≤ w.capacity

/-- What a write leaves. If memory runs out, some of its chunks may have been written. -/
structure Progress (alloc : Allocator) (before added : List Bytes) (outcome : Outcome) : Prop where
  holds : ∃ done : List Bytes, done.Sublist added ∧ (outcome.returned = true → done = added) ∧ Holds outcome.pickle (before ++ done)
  placed : ∀ w ∈ outcome.writes, w.Placed
  failing : outcome.returned = false → alloc.Failing

section Write
variable {alloc : Allocator} {p : Pickle} {before : List Bytes}

theorem Holds.writeBytes (holds : Holds p before) {data : Bytes} (small : sizeWith (before ++ [data]) < 2^31) :
    ∃ outcome, p.writeBytes alloc data (Int32.ofNat data.length) = .ok outcome ∧ Progress alloc before [data] outcome := by
  obtain ⟨content,memory,size,laid⟩ := holds.memory
  have total : layoutSize 4 (before ++ [data]) = alignUp content.length 4 + data.length := by
    rw [layoutSize_concat,size]
  have fits : sizeofHeader + (alignUp content.length 4 + data.length) < 2^31 := by
    rw [← total]
    exact small
  have short : data.length < 2^31 := by
    unfold sizeofHeader at fits
    omega
  have aligned := alignUp_mod (by decide : 0 < 4) content.length
  unfold Pickle.writeBytes
  rw [sizeT_ofNat short]
  obtain ⟨failed,failing⟩ | ⟨q,padding,old,begun,offset,length,after,room⟩ := @Memory.beginWrite _ _ alloc memory _ fits
  · rw [failed]
    refine ⟨⟨false,p,[]⟩,rfl,⟨[],List.nil_sublist _,nofun,?_⟩,nofun,fun _ => failing⟩
    rw [List.append_nil]
    exact holds
  · have enough : ¬data.length < data.length := Nat.lt_irrefl _
    have whole : Memory q (content ++ padding ++ old ++ []) := by
      rw [List.append_nil]
      exact after
    obtain ⟨copied,store,held,capacity,address⟩ := @Memory.store q _ _ _ data whole length.symm
    rw [offset] at store
    rw [List.append_nil] at held
    have stop : q.block.address + sizeofHeader + alignUp content.length 4 + data.length =
        copied.block.address + sizeofHeader + (content ++ padding ++ data).length := by
      rw [address,List.length_append,offset]
      omega
    have same : data.length % 4 = (content ++ padding ++ data).length % 4 := by
      rw [List.length_append,offset]
      omega
    obtain ⟨final,ended,kept,finalCapacity,finalAddress⟩ := held.endWrite short stop same
    rw [begun]
    dsimp only [bind,Except.bind]
    rw [if_neg enough,List.take_length,store]
    dsimp only [bind,Except.bind]
    rw [ended]
    refine ⟨_,rfl,⟨[data],List.Sublist.refl _,fun _ => rfl,⟨_,kept,?_,?_⟩,small⟩,?_,nofun⟩
    · rw [total,List.length_append,offset]
    · exact laid.push (by decide) offset
    · intro w member
      have start : q.block.address + sizeofHeader + alignUp content.length 4 - final.payload = alignUp content.length 4 := by
        rw [kept.payload,finalAddress,address]
        omega
      have padding : alignUp data.length 4 = data.length + (4 - data.length % 4) % 4 := rfl
      have padded := kept.aligned
      rw [List.length_append,offset,alignUp_add aligned,padding] at padded
      rw [List.mem_singleton.mp member,start]
      refine ⟨aligned,?_⟩
      change sizeofHeader + alignUp content.length 4 + data.length + (4 - data.length % 4) % 4 ≤ final.capacity
      omega

theorem Progress.andThen {first : Outcome} {a b : Bytes} (progress : Progress alloc before [a] first)
    {next : Pickle → Except Fault Outcome} (continued : ∀ q, Holds q (before ++ [a]) →
      ∃ outcome, next q = .ok outcome ∧ Progress alloc (before ++ [a]) [b] outcome) :
    ∃ outcome, first.andThen next = .ok outcome ∧ Progress alloc before [a,b] outcome := by
  obtain ⟨done,sublist,all,holds⟩ := progress.holds
  unfold Outcome.andThen
  cases returned : first.returned with
  | false =>
    refine ⟨first,rfl,⟨done,sublist.trans (List.sublist_append_left [a] [b]),fun yes => ?_,holds⟩,progress.placed,progress.failing⟩
    rw [returned] at yes
    cases yes
  | true =>
    rw [all returned] at holds
    obtain ⟨outcome,called,later⟩ := continued first.pickle holds
    obtain ⟨more,rest,whole,held⟩ := later.holds
    rw [if_pos rfl,called]
    refine ⟨_,rfl,⟨a :: more,List.Sublist.cons_cons a rest,fun yes => by rw [whole yes],?_⟩,fun w member => ?_,later.failing⟩
    · rw [List.append_assoc] at held
      exact held
    · exact (List.mem_append.mp member).elim (progress.placed w) (later.placed w)

theorem sizeWith_sublist {few many : List Bytes} (sublist : few.Sublist many) : sizeWith few ≤ sizeWith many :=
  Nat.add_le_add_left (layoutSize_sublist (by decide) sublist) _

theorem Holds.writeFixed (holds : Holds p before) {encoded : Bytes} (small : sizeWith (before ++ [encoded]) < 2^31) :
    ∃ outcome, Pickle.writeFixed alloc encoded p = .ok outcome ∧ Progress alloc before [encoded] outcome :=
  holds.writeBytes small

theorem Holds.writeText (holds : Holds p before) {count : Nat} {data : Bytes} (few : count ≤ data.length)
    (small : sizeWith (before ++ [toBytes 4 count,data]) < 2^31) :
    ∃ outcome, (do (← Pickle.writeInt alloc (Int32.ofNat count) p).andThen fun p => p.writeBytes alloc data (Int32.ofNat data.length)) =
      .ok outcome ∧ Progress alloc before [toBytes 4 count,data] outcome := by
  have both : sizeWith (before ++ [toBytes 4 count] ++ [data]) < 2^31 := by
    rw [List.append_assoc]
    exact small
  have short : count < 2^31 := by
    rw [sizeWith,layoutSize_concat] at both
    omega
  have first : (Int32.ofNat count).toUInt32.toNat = count := by
    change (BitVec.ofNat 32 count).toNat = count
    rw [BitVec.toNat_ofNat]
    omega
  obtain ⟨outcome,called,progress⟩ := @Holds.writeFixed alloc _ _ holds (toBytes 4 count)
    (Nat.lt_of_le_of_lt (sizeWith_sublist (List.sublist_append_left _ [data])) both)
  unfold Pickle.writeInt
  rw [first,called]
  exact progress.andThen fun q held => held.writeBytes both

theorem length_wide (value : List UInt32) : (value.flatMap fun c => toBytes 4 c.toNat).length = value.length * 4 :=
  length_flatMap_width (fun _ => length_toBytes 4 _) value

theorem length_char16 (value : List UInt16) : (value.flatMap fun c => toBytes 2 c.toNat).length = value.length * 2 :=
  length_flatMap_width (fun _ => length_toBytes 2 _) value

theorem length_lt_of_sizeWith {a b : Bytes} (small : sizeWith (before ++ [a,b]) < 2^31) : b.length < 2^31 := by
  have split : before ++ [a,b] = before ++ [a] ++ [b] := by rw [List.append_assoc,List.singleton_append]
  rw [split,sizeWith,layoutSize_concat] at small
  omega

theorem Holds.write (holds : Holds p before) (item : Item) (small : sizeWith (before ++ item.chunks) < 2^31) :
    ∃ outcome, Pickle.write alloc item p = .ok outcome ∧ Progress alloc before item.chunks outcome := by
  cases item with
  | bool value =>
    have same : toBytes 4 (if value then (1 : Int32) else 0).toUInt32.toNat = toBytes 4 (if value then 1 else 0) := by
      cases value <;> rfl
    change ∃ outcome, Pickle.writeFixed alloc (toBytes 4 (if value then (1 : Int32) else 0).toUInt32.toNat) p = _ ∧ _
    rw [same]
    exact holds.writeFixed small
  | int value => exact holds.writeFixed small
  | long value => exact holds.writeFixed small
  | size value => exact holds.writeFixed small
  | uint16 value => exact holds.writeFixed small
  | uint32 value => exact holds.writeFixed small
  | int64 value => exact holds.writeFixed small
  | uint64 value => exact holds.writeFixed small
  | string value => exact holds.writeText (Nat.le_refl _) small
  | wstring value =>
    have text := @Holds.writeText alloc _ _ holds value.length _ (by rw [length_wide]; omega) small
    rw [length_wide] at text
    exact text
  | string16 value =>
    have text := @Holds.writeText alloc _ _ holds value.length _ (by rw [length_char16]; omega) small
    have short := length_lt_of_sizeWith small
    rw [length_char16] at text short
    change ∃ outcome, writeString16 alloc value p = _ ∧ _
    unfold writeString16
    rw [sizeT_ofNat (by omega)]
    exact text
  | data value =>
    have nonneg : ¬(Int32.ofNat value.length).toInt < 0 := by
      rw [toInt_ofNat (length_lt_of_sizeWith small)]
      omega
    change ∃ outcome, writeData alloc value (Int32.ofNat value.length) p = _ ∧ _
    unfold writeData
    rw [if_neg nonneg]
    exact holds.writeText (Nat.le_refl _) small
  | bytes value => exact holds.writeBytes small

theorem Holds.writeAll (holds : Holds p before) {items : List Item} (small : sizeWith (before ++ items.flatMap Item.chunks) < 2^31) :
    ∃ outcome, Pickle.writeAll alloc items p = .ok outcome ∧ Progress alloc before (items.flatMap Item.chunks) outcome := by
  induction items generalizing p before with
  | nil =>
    refine ⟨_,rfl,⟨[],List.nil_sublist _,fun _ => rfl,?_⟩,nofun,nofun⟩
    rw [List.append_nil]
    exact holds
  | cons item items ih =>
    rw [List.flatMap_cons,← List.append_assoc] at small
    obtain ⟨first,wrote,progress⟩ := holds.write item (Nat.lt_of_le_of_lt (sizeWith_sublist (List.sublist_append_left _ _)) small)
    obtain ⟨done,sublist,all,held⟩ := progress.holds
    have less : sizeWith (before ++ done ++ items.flatMap Item.chunks) < 2^31 :=
      Nat.lt_of_le_of_lt (sizeWith_sublist ((sublist.append_left before).append_right _)) small
    obtain ⟨rest,ran,later⟩ := ih held less
    obtain ⟨more,behind,whole,final⟩ := later.holds
    unfold Pickle.writeAll
    rw [wrote]
    dsimp only [bind,Except.bind]
    rw [ran]
    refine ⟨_,rfl,⟨done ++ more,sublist.append behind,fun yes => ?_,?_⟩,fun w member => ?_,fun no => ?_⟩
    · obtain ⟨firstReturned,restReturned⟩ := Bool.and_eq_true_iff.mp yes
      rw [all firstReturned,whole restReturned,List.flatMap_cons]
    · rw [← List.append_assoc]
      exact final
    · exact (List.mem_append.mp member).elim (progress.placed w) (later.placed w)
    · rcases Bool.and_eq_false_iff.mp no with firstFailed | restFailed
      · exact progress.failing firstFailed
      · exact later.failing restFailed

end Write

theorem fresh_holds (alloc : Allocator) : (fresh alloc = .ok none ∧ alloc.Failing) ∨ ∃ p, fresh alloc = .ok (some p) ∧ Holds p [] := by
  unfold fresh Pickle.resize
  have writable : ¬(0 = kCapacityReadOnly) := by decide
  have unit : alignInt kPayloadUnit kPayloadUnit = 64 := by decide
  rw [if_neg writable,unit]
  cases made : alloc.realloc ⟨0,[],by decide,fun filled => absurd rfl filled⟩ 64 with
  | none => exact .inl ⟨rfl,_,_,made⟩
  | some block =>
    have length := alloc.length_eq _ _ _ made
    have room : 0 + 4 ≤ block.bytes.length := by omega
    obtain ⟨front,part,back,split,nothing,four⟩ := exists_parts room
    have start := List.eq_nil_of_length_eq_zero nothing
    subst start
    obtain ⟨after,stored,address,kept,parts⟩ := store_parts split ((length_toBytes 4 0).trans four.symm)
    rw [List.length_nil,Nat.add_zero] at stored
    refine .inr ⟨⟨after,block.address,sizeofHeader,64⟩,?_,⟨[],?_,rfl,.nil 0⟩,by decide⟩
    · dsimp only [bind,Except.bind,pure,Except.pure,Option.map,setPayloadSize,store,sizeofHeader]
      rw [stored]
    · have units : 64 % kPayloadUnit = 0 := by decide
      have bounded : 64 ≤ 2^33 := by decide
      exact ⟨address.symm,rfl,kept.trans length,units,bounded,Nat.succ_pos 63,back,parts⟩

end WebSearch.Pickle
