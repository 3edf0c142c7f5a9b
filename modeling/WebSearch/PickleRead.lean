import WebSearch.Pickle

/-! What the readers of a pickle over given bytes do, whatever the bytes are. -/
namespace WebSearch.Pickle
open Library

def Block.stop (block : Block) : Nat := block.address + block.bytes.length

/-- A header that is cut off or does not agree with the length of the data. -/
def Block.Inconsistent (block : Block) : Prop :=
  block.bytes.length < 4 ∨ block.bytes.length ≤ ofBytes (block.bytes.take 4) ∨
    (block.bytes.length - ofBytes (block.bytes.take 4)) % 4 ≠ 0

/-- The pickle that reads from a block with a consistent header. -/
structure Valid (p : Pickle) (n : Nat) : Prop where
  header : p.header = p.block.address
  notNull : p.header ≠ 0
  payload : p.payloadSize = .ok n
  total : p.headerSize + n = p.block.bytes.length

/-- The pickle that reads from any other. -/
structure Null (p : Pickle) : Prop where
  header : p.header = 0
  headerSize : p.headerSize = 0

theorem sizeT_eq {len : Int32} (nonneg : 0 ≤ len.toInt) : sizeT len = len.toInt.toNat := by
  have small := len.toInt_lt
  unfold sizeT
  rw [Int.emod_eq_of_lt nonneg (by omega)]

theorem toInt_ofNat {n : Nat} (small : n < 2^31) : (Int32.ofNat n).toInt = n := Int32.toInt_ofNat_of_lt small

theorem sizeT_ofNat {n : Nat} (small : n < 2^31) : sizeT (Int32.ofNat n) = n := by
  rw [sizeT_eq (by rw [toInt_ofNat small]; exact Int.natCast_nonneg n),toInt_ofNat small,Int.toNat_natCast]

theorem load_eq {block : Block} {a n : Nat} (low : block.address ≤ a) (high : a + n ≤ block.stop) :
    block.load a n = .ok (block.slice a n) := by
  have covered : block.covers a n = true := by
    simp only [Block.covers,Bool.and_eq_true,decide_eq_true_eq]
    exact ⟨low,high⟩
  rw [Block.load,covered,if_pos rfl]

theorem load_start {block : Block} (long : 4 ≤ block.bytes.length) :
    block.load block.address sizeofHeader = .ok (block.bytes.take 4) := by
  rw [sizeofHeader,load_eq (Nat.le_refl _) (Nat.add_le_add_left long _),Block.slice,Nat.sub_self,List.drop_zero]

theorem ofBytes_take_lt (bytes : Bytes) : ofBytes (bytes.take 4) < 2^32 := by
  have bound := ofBytes_lt (bytes.take 4)
  have few : (bytes.take 4).length ≤ 4 := List.length_take_le 4 bytes
  calc
    ofBytes (bytes.take 4) < 256^(bytes.take 4).length := bound
    _ ≤ 256^4 := Nat.pow_le_pow_right (by decide) few
    _ = 2^32 := by decide

theorem checkedHeaderSize_eq {length headerSize : Nat} (small : length < 2^31) (bound : headerSize < 2^32) :
    checkedHeaderSize (Int32.ofNat length) headerSize = if headerSize ≤ length ∧ headerSize % 4 = 0 then headerSize else 0 := by
  have same : ((length : Int) % 2^32).toNat = length := by omega
  unfold checkedHeaderSize
  rw [toInt_ofNat small,same]
  by_cases long : length < headerSize
  · have outside : ¬(headerSize ≤ length ∧ headerSize % 4 = 0) := fun both => absurd both.1 (Nat.not_le_of_gt long)
    rw [if_pos long,if_neg outside]
    rfl
  · rw [if_neg long]
    by_cases aligned : headerSize % 4 = 0
    · have kept : alignInt headerSize 4 = headerSize := by
        rw [alignInt,alignUp_eq aligned]
        omega
      rw [if_neg fun differs => differs kept.symm,if_pos ⟨Nat.le_of_not_lt long,aligned⟩]
    · have moved : headerSize ≠ alignInt headerSize 4 := by
        have multiple := alignUp_mod (by decide : 0 < 4) headerSize
        have near := alignUp_lt (by decide : 0 < 4) headerSize
        unfold alignInt
        omega
      rw [if_pos moved,if_neg fun both => aligned both.2]

/-- The constructor reads the header only when it is there, and drops the data when the
header size that comes out of it makes no sense. -/
theorem ofData_eq {data : Block} (small : data.bytes.length < 2^31) : ∃ p,
    ofData data (Int32.ofNat data.bytes.length) = .ok p ∧ p.block = data ∧
      (data.Inconsistent → Null p) ∧
      (¬data.Inconsistent → Valid p (ofBytes (data.bytes.take 4)) ∧ p.headerSize % 4 = 0) := by
  unfold ofData
  rw [toInt_ofNat small]
  by_cases long : 4 ≤ data.bytes.length
  · have there : (4 : Int) ≤ data.bytes.length := by omega
    have header := ofBytes_take_lt data.bytes
    rw [if_pos there,load_start long]
    refine ⟨_,rfl,rfl,?_⟩
    dsimp only
    generalize read : ofBytes (data.bytes.take 4) = n at header
    have wrapped : (((data.bytes.length : Int) - n) % 2^32).toNat < 2^32 := by omega
    have size : (if (((data.bytes.length : Int) - n) % 2^32).toNat ≤ data.bytes.length ∧
        (((data.bytes.length : Int) - n) % 2^32).toNat % 4 = 0 then (((data.bytes.length : Int) - n) % 2^32).toNat else 0) =
        if n < data.bytes.length ∧ (data.bytes.length - n) % 4 = 0 then data.bytes.length - n else 0 := by
      split <;> split <;> omega
    rw [checkedHeaderSize_eq small wrapped,size]
    constructor
    · intro inconsistent
      have dropped : ¬(n < data.bytes.length ∧ (data.bytes.length - n) % 4 = 0) := by
        unfold Block.Inconsistent at inconsistent
        rw [read] at inconsistent
        omega
      rw [if_neg dropped]
      exact ⟨rfl,rfl⟩
    · intro consistent
      have kept : n < data.bytes.length ∧ (data.bytes.length - n) % 4 = 0 := by
        unfold Block.Inconsistent at consistent
        rw [read] at consistent
        omega
      have nonzero : data.bytes.length - n ≠ 0 := by omega
      have somewhere : data.address ≠ 0 := data.notNull fun empty => by rw [empty] at long; exact absurd long (by decide)
      rw [if_pos kept,if_neg nonzero]
      refine ⟨⟨rfl,somewhere,?_,Nat.sub_add_cancel kept.1.le⟩,kept.2⟩
      rw [payloadSize,load_start long]
      exact congrArg Except.ok read
  · have short : ¬(4 : Int) ≤ data.bytes.length := by omega
    have nothing : checkedHeaderSize (Int32.ofNat data.bytes.length) 0 = 0 := by
      rw [checkedHeaderSize_eq small (by decide)]
      split <;> rfl
    rw [if_neg short]
    change ∃ p, Except.ok (ε := Fault) (Pickle.mk data (if checkedHeaderSize _ 0 = 0 then 0 else _) (checkedHeaderSize _ 0) _) = _ ∧ _
    rw [nothing]
    exact ⟨_,rfl,rfl,fun _ => ⟨rfl,rfl⟩,fun consistent => absurd (.inl (Nat.lt_of_not_le long)) consistent⟩

/-! The check that every reader makes. -/

/-- The memory from an address on has so many bytes of the data. -/
def Room (p : Pickle) (iter n : Nat) : Prop := p.block.address ≤ iter ∧ iter + n ≤ p.block.stop

instance (p : Pickle) (iter n : Nat) : Decidable (p.Room iter n) := inferInstanceAs (Decidable (_ ∧ _))

theorem Valid.endOfPayload {p : Pickle} {n : Nat} (valid : Valid p n) : p.endOfPayload = .ok p.block.stop := by
  have total := valid.total
  have header := valid.header
  have bound := p.block.inMemory
  rw [Pickle.endOfPayload,if_pos valid.notNull,valid.payload]
  change Except.ok ((p.payload + n) % 2^64) = _
  congr 1
  unfold Pickle.payload Block.stop
  omega

theorem Null.endOfPayload {p : Pickle} (null : Null p) : p.endOfPayload = .ok 0 := by
  rw [Pickle.endOfPayload,if_neg fun other => other null.header]
  rfl

/-- The sum of the iterator and the length may wrap, and then the region ends before
the iterator. -/
theorem hasRoom_eq {p : Pickle} {stop : Nat} (known : p.endOfPayload = .ok stop) (bound : stop < 2^64) (iter : Nat) (len : Int32) :
    p.iteratorHasRoomFor iter len = .ok (decide (0 ≤ len.toInt ∧ p.header ≤ iter ∧ iter + len.toInt.toNat ≤ stop)) := by
  have small := len.toInt_lt
  unfold iteratorHasRoomFor
  rw [known]
  by_cases early : len.toInt < 0 ∨ iter < p.header
  · have outside : ¬(0 ≤ len.toInt ∧ p.header ≤ iter ∧ iter + len.toInt.toNat ≤ stop) := by omega
    have checked : (decide (len.toInt < 0) || decide (iter < p.header)) = true := by simpa using early
    rw [if_pos checked,decide_eq_false outside]
    rfl
  · have checked : ¬(decide (len.toInt < 0) || decide (iter < p.header)) = true := by simpa using early
    rw [if_neg checked,sizeT_eq (by omega)]
    change (if stop < iter then Except.ok false else
      Except.ok (decide (iter ≤ (iter + len.toInt.toNat) % 2^64) && decide ((iter + len.toInt.toNat) % 2^64 ≤ stop))) = _
    split
    · rw [decide_eq_false (by omega)]
    · congr 1
      rw [Bool.eq_iff_iff]
      simp only [Bool.and_eq_true,decide_eq_true_eq]
      omega

theorem Valid.hasRoom {p : Pickle} {n : Nat} (valid : Valid p n) (iter : Nat) (len : Int32) :
    p.iteratorHasRoomFor iter len = .ok (decide (0 ≤ len.toInt ∧ p.Room iter len.toInt.toNat)) := by
  rw [hasRoom_eq valid.endOfPayload p.block.inMemory,valid.header]
  rfl

theorem Null.hasRoom {p : Pickle} (null : Null p) (iter : Nat) (len : Int32) :
    p.iteratorHasRoomFor iter len = .ok (decide (len.toInt = 0 ∧ iter = 0)) := by
  rw [hasRoom_eq null.endOfPayload (by decide),null.header]
  congr 1
  rw [decide_eq_decide]
  omega

theorem Null.started {p : Pickle} (null : Null p) (iter : Nat) : p.started iter = iter := by
  unfold Pickle.started payload
  rw [null.header,null.headerSize]
  split
  · rename_i zero
    exact zero.symm
  · rfl

section Readers
variable {α : Type} {p : Pickle} {n : Nat}

theorem Valid.readFixed (valid : Valid p n) {width : Nat} (small : width < 2^31) (decode : Bytes → α) (iter : Nat) :
    Pickle.readFixed width decode p iter = .ok (if p.Room (p.started iter) width then
      (some (decode (p.block.slice (p.started iter) width)),updateIter (p.started iter) (Int32.ofNat width))
      else (none,p.started iter)) := by
  unfold Pickle.readFixed
  dsimp only
  rw [valid.hasRoom,toInt_ofNat small,Int.toNat_natCast]
  by_cases room : p.Room (p.started iter) width
  · rw [load_eq room.1 room.2,decide_eq_true ⟨Int.natCast_nonneg width,room⟩,if_pos room]
    rfl
  · rw [decide_eq_false fun both => room both.2,if_neg room]
    rfl

theorem Null.readFixed (null : Null p) {width : Nat} (small : width < 2^31) (positive : 0 < width) (decode : Bytes → α)
    (iter : Nat) : Pickle.readFixed width decode p iter = .ok (none,iter) := by
  unfold Pickle.readFixed
  dsimp only
  rw [null.started,null.hasRoom,toInt_ofNat small,decide_eq_false (by omega)]
  rfl

theorem updateIter_eq {iter count : Nat} (small : count < 2^31) (aligned : count % 4 = 0) :
    updateIter iter (Int32.ofNat count) = (iter + count) % 2^64 := by
  rw [updateIter,sizeT_ofNat small,alignInt,alignUp_eq aligned,Nat.mod_eq_of_lt (by omega : count < 2^64)]

theorem room_lt {iter count : Nat} (room : p.Room iter count) : iter + count < 2^64 := Nat.lt_of_le_of_lt room.2 p.block.inMemory

def lengthAt (p : Pickle) (a : Nat) : Int32 := (uint32 (p.block.slice a 4)).toInt32

theorem Valid.readInt (valid : Valid p n) (iter : Nat) : p.readInt iter =
    .ok (if p.Room (p.started iter) 4 then (some (p.lengthAt (p.started iter)),p.started iter + 4) else (none,p.started iter)) := by
  rw [Pickle.readInt,valid.readFixed (by decide)]
  split
  · rename_i room
    rw [updateIter_eq (by decide) (by decide),Nat.mod_eq_of_lt (room_lt room)]
    rfl
  · rfl

theorem Valid.afterLength (valid : Valid p n) (iter : Nat) (rest : Int32 → Nat → Except Fault (Option α × Nat)) :
    p.afterLength iter rest = if p.Room (p.started iter) 4 then
      (if 0 ≤ (p.lengthAt (p.started iter)).toInt then rest (p.lengthAt (p.started iter)) (p.started iter + 4)
        else .ok (none,p.started iter + 4)) else .ok (none,p.started iter) := by
  rw [Pickle.afterLength,readLength,valid.readInt]
  by_cases room : p.Room (p.started iter) 4
  · rw [if_pos room,if_pos room]
    by_cases nonneg : 0 ≤ (p.lengthAt (p.started iter)).toInt
    · rw [if_pos nonneg]
      simp [bind,Except.bind,pure,Except.pure,Option.filter,nonneg]
    · rw [if_neg nonneg]
      simp [bind,Except.bind,pure,Except.pure,Option.filter,nonneg]
  · rw [if_neg room,if_neg room]
    rfl

theorem Null.afterLength (null : Null p) (iter : Nat) (rest : Int32 → Nat → Except Fault (Option α × Nat)) :
    p.afterLength iter rest = .ok (none,iter) := by
  rw [Pickle.afterLength,readLength,Pickle.readInt,null.readFixed (by decide) (by decide)]
  rfl

/-- The narrowed number of bytes is right or negative. -/
theorem toInt_ofNat_wide {m : Nat} (bound : m < 2^32) : (m < 2^31 ∧ (Int32.ofNat m).toInt = m) ∨ (2^31 ≤ m ∧ (Int32.ofNat m).toInt < 0) := by
  by_cases small : m < 2^31
  · exact .inl ⟨small,toInt_ofNat small⟩
  · refine .inr ⟨by omega,?_⟩
    rw [Int32.toInt_ofNat',Int.bmod_def,Int32.size]
    omega

theorem Valid.readUnits (valid : Valid p n) {width : Nat} {len : Int32} (nonneg : 0 ≤ len.toInt)
    (narrow : len.toInt.toNat * width < 2^32) (decode : Bytes → α) (iter : Nat) :
    Pickle.readUnits width decode p iter len =
      .ok (if len.toInt.toNat * width < 2^31 ∧ p.Room iter (len.toInt.toNat * width) then
        (some ((pieces width len.toInt.toNat (p.block.slice iter (len.toInt.toNat * width))).map decode),
          updateIter iter (Int32.ofNat (len.toInt.toNat * width))) else (none,iter)) := by
  unfold Pickle.readUnits
  dsimp only
  rw [sizeT_eq nonneg,valid.hasRoom]
  obtain ⟨small,same⟩ | ⟨large,negative⟩ := toInt_ofNat_wide narrow
  · rw [same,Int.toNat_natCast]
    by_cases room : p.Room iter (len.toInt.toNat * width)
    · rw [load_eq room.1 room.2,decide_eq_true ⟨Int.natCast_nonneg _,room⟩,if_pos ⟨small,room⟩]
      rfl
    · rw [decide_eq_false fun both => room both.2,if_neg fun both => room both.2]
      rfl
  · rw [decide_eq_false fun both => absurd both.1 (Int.not_le.mpr negative),if_neg fun both => absurd both.1 (Nat.not_lt.mpr large)]
    rfl

theorem Valid.readBytes (valid : Valid p n) (iter : Nat) (length : Int32) : p.readBytes iter length =
    .ok (if 0 ≤ length.toInt ∧ p.Room (p.started iter) length.toInt.toNat then
      (some (p.started iter),updateIter (p.started iter) length) else (none,p.started iter)) := by
  unfold Pickle.readBytes
  dsimp only
  rw [valid.hasRoom]
  by_cases room : 0 ≤ length.toInt ∧ p.Room (p.started iter) length.toInt.toNat
  · rw [decide_eq_true room,if_pos room]
    rfl
  · rw [decide_eq_false room,if_neg room]
    rfl

theorem Null.readBytes (null : Null p) (iter : Nat) (length : Int32) : p.readBytes iter length =
    .ok (if length.toInt = 0 ∧ iter = 0 then (some iter,updateIter iter length) else (none,iter)) := by
  unfold Pickle.readBytes
  dsimp only
  rw [null.started,null.hasRoom]
  by_cases room : length.toInt = 0 ∧ iter = 0
  · rw [decide_eq_true room,if_pos room]
    rfl
  · rw [decide_eq_false room,if_neg room]
    rfl

end Readers

/-! What one read may return. -/

/-- How many bytes a unit of the encoded length stands for. -/
def Kind.unit : Kind → Option Nat
  | .string => some 1
  | .wstring => some 4
  | .string16 => some 2
  | .data => some 1
  | _ => none

/-- The length that is found at an address and what it announces. -/
structure Fits (p : Pickle) (a unit : Nat) : Prop where
  length : p.Room a 4
  nonneg : 0 ≤ (p.lengthAt a).toInt
  room : p.Room (a + 4) ((p.lengthAt a).toInt.toNat * unit)

/-- The call returns, and what it stores is as said. -/
def Returns {α : Type} (call : Except Fault (Option α × Nat)) (good : α → Prop) : Prop :=
  ∃ result iter, call = .ok (result,iter) ∧ ∀ value, result = some value → good value

section Returns
variable {α : Type} {p : Pickle} {n : Nat} {good : α → Prop}

theorem Returns.stored {wrap : α → Value} {call : Except Fault (Option α × Nat)} {kept : Value → Prop} (returns : Returns call good)
    (wrapped : ∀ value, good value → kept (wrap value)) : Returns (Pickle.stored wrap <$> call) kept := by
  obtain ⟨result,iter,called,holds⟩ := returns
  refine ⟨result.map wrap,iter,by rw [called]; rfl,fun value found => ?_⟩
  obtain ⟨inner,here,same⟩ := Option.map_eq_some_iff.mp found
  exact same ▸ wrapped inner (holds inner here)

theorem Returns.any {call : Except Fault (Option α × Nat)} {result : Option α × Nat} (called : call = .ok result) :
    Returns call fun _ => True :=
  ⟨result.1,result.2,called,fun _ _ => trivial⟩

theorem Valid.afterLength_returns (valid : Valid p n) (iter : Nat) {rest : Int32 → Nat → Except Fault (Option α × Nat)}
    {good : Int32 → Nat → α → Prop} (returns : ∀ len iter, 0 ≤ len.toInt → Returns (rest len iter) (good len iter)) :
    Returns (p.afterLength iter rest) fun value => p.Room (p.started iter) 4 ∧ 0 ≤ (p.lengthAt (p.started iter)).toInt ∧
      good (p.lengthAt (p.started iter)) (p.started iter + 4) value := by
  rw [valid.afterLength]
  split
  · rename_i room
    split
    · rename_i nonneg
      obtain ⟨result,next,called,holds⟩ := returns (p.lengthAt (p.started iter)) (p.started iter + 4) nonneg
      exact ⟨result,next,called,fun value found => ⟨room,nonneg,holds value found⟩⟩
    · exact ⟨none,_,rfl,nofun⟩
  · exact ⟨none,_,rfl,nofun⟩

theorem Valid.readUnits_returns (valid : Valid p n) {width : Nat} {len : Int32} (nonneg : 0 ≤ len.toInt)
    (narrow : len.toInt.toNat * width < 2^32) (decode : Bytes → α) (iter : Nat) :
    Returns (Pickle.readUnits width decode p iter len) fun _ => p.Room iter (len.toInt.toNat * width) := by
  rw [valid.readUnits nonneg narrow]
  split
  · rename_i both
    exact ⟨_,_,rfl,fun _ _ => both.2⟩
  · exact ⟨none,_,rfl,nofun⟩

/-- Both wide readers stay below the width of the numbers: one by its check, one by the
narrowing of the product. -/
theorem Valid.readString_returns (valid : Valid p n) (iter : Nat) :
    Returns (p.readString iter) fun _ => p.Fits (p.started iter) 1 := by
  have small (len : Int32) := len.toInt_lt
  obtain ⟨result,next,called,holds⟩ := valid.afterLength_returns iter
    fun len iter nonneg => valid.readUnits_returns nonneg (by have := small len; omega : len.toInt.toNat * 1 < 2^32) byte iter
  exact ⟨result,next,called,fun value found => ⟨(holds value found).1,(holds value found).2.1,(holds value found).2.2⟩⟩

theorem Valid.readString16_returns (valid : Valid p n) (iter : Nat) :
    Returns (p.readString16 iter) fun _ => p.Fits (p.started iter) 2 := by
  have small (len : Int32) := len.toInt_lt
  obtain ⟨result,next,called,holds⟩ := valid.afterLength_returns iter
    fun len iter nonneg => valid.readUnits_returns nonneg (by have := small len; omega : len.toInt.toNat * 2 < 2^32) uint16 iter
  exact ⟨result,next,called,fun value found => ⟨(holds value found).1,(holds value found).2.1,(holds value found).2.2⟩⟩

theorem Valid.readWString_returns (valid : Valid p n) (iter : Nat) :
    Returns (p.readWString iter) fun _ => p.Fits (p.started iter) 4 := by
  have rest (len : Int32) (iter : Nat) (nonneg : 0 ≤ len.toInt) :
      Returns (if (2^31 - 1) / 4 < len.toInt then .ok (none,iter) else p.readUnits 4 uint32 iter len)
        fun _ => p.Room iter (len.toInt.toNat * 4) := by
    split
    · exact ⟨none,_,rfl,nofun⟩
    · exact valid.readUnits_returns nonneg (by omega) uint32 iter
  obtain ⟨result,next,called,holds⟩ := valid.afterLength_returns iter rest
  exact ⟨result,next,called,fun value found => ⟨(holds value found).1,(holds value found).2.1,(holds value found).2.2⟩⟩

theorem Valid.readBytes_returns (valid : Valid p n) (iter : Nat) (length : Int32) :
    Returns (p.readBytes iter length) fun data => 0 ≤ length.toInt ∧ p.Room data length.toInt.toNat := by
  rw [valid.readBytes]
  split
  · rename_i room
    exact ⟨_,_,rfl,fun data found => Option.some.inj found ▸ room⟩
  · exact ⟨none,_,rfl,nofun⟩

theorem started_eq {iter : Nat} (moved : iter ≠ 0) : p.started iter = iter := if_neg moved

theorem Valid.readData_returns (valid : Valid p n) (iter : Nat) : Returns (p.readData iter) fun result =>
    0 ≤ result.2.toInt ∧ p.Room result.1 result.2.toInt.toNat ∧ p.Fits (p.started iter) 1 := by
  let good (len : Int32) (iter : Nat) (result : Nat × Int32) : Prop :=
    result.2 = len ∧ p.Room (p.started iter) len.toInt.toNat ∧ result.1 = p.started iter
  obtain ⟨result,next,called,holds⟩ : Returns (p.readData iter) _ :=
    @Valid.afterLength_returns _ p n valid iter _ good (by
      intro len iter nonneg
      rw [valid.readBytes]
      split
      · rename_i room
        exact ⟨some (p.started iter,len),_,rfl,fun result found => Option.some.inj found ▸ ⟨rfl,room.2,rfl⟩⟩
      · exact ⟨none,_,rfl,fun _ found => absurd found.symm (Option.some_ne_none _)⟩)
  refine ⟨result,next,called,fun value found => ?_⟩
  obtain ⟨room,nonneg,same,within,here⟩ := holds value found
  rw [started_eq (Nat.succ_ne_zero _)] at within here
  rw [same,here]
  exact ⟨nonneg,within,room,nonneg,by rwa [Nat.mul_one]⟩

/-- A range is one of the data, and an encoded length announces no more than there is. -/
structure Good (p : Pickle) (kind : Kind) (a : Nat) (value : Value) : Prop where
  range : ∀ data length, value = .range data length → 0 ≤ length.toInt ∧ p.Room data length.toInt.toNat
  fits : ∀ unit, kind.unit = some unit → p.Fits a unit

theorem good_plain {kind : Kind} {a : Nat} {value : Value} (noRange : ∀ data length, value ≠ .range data length)
    (noLength : kind.unit = none) : p.Good kind a value :=
  ⟨fun data length here => absurd here (noRange data length),fun _ found => absurd (noLength.symm.trans found) nofun⟩

theorem good_text {kind : Kind} {a unit : Nat} {value : Value} (noRange : ∀ data length, value ≠ .range data length)
    (known : kind.unit = some unit) (fits : p.Fits a unit) : p.Good kind a value :=
  ⟨fun data length here => absurd here (noRange data length),fun _ found => Option.some.inj (known.symm.trans found) ▸ fits⟩

theorem Valid.readFixed_returns (valid : Valid p n) {width : Nat} (small : width < 2^31) (decode : Bytes → α) (iter : Nat) :
    Returns (Pickle.readFixed width decode p iter) fun _ => True :=
  .any (valid.readFixed small decode iter)

theorem Valid.read_returns (valid : Valid p n) (kind : Kind) (iter : Nat) :
    Returns (p.read kind iter) (p.Good kind (p.started iter)) := by
  have plain {β : Type} {call : Except Fault (Option β × Nat)} {wrap : β → Value} (returns : Returns call fun _ => True)
      (noRange : ∀ value data length, wrap value ≠ .range data length) (noLength : kind.unit = none) :
      Returns (Pickle.stored wrap <$> call) (p.Good kind (p.started iter)) :=
    returns.stored fun value _ => good_plain (noRange value) noLength
  cases kind with
  | bool =>
    refine plain ?_ nofun rfl
    rw [readBool,valid.readInt]
    exact .any rfl
  | int => exact plain (valid.readFixed_returns (by decide) _ iter) nofun rfl
  | long => exact plain (valid.readFixed_returns (by decide) _ iter) nofun rfl
  | size => exact plain (valid.readFixed_returns (by decide) _ iter) nofun rfl
  | uint16 => exact plain (valid.readFixed_returns (by decide) _ iter) nofun rfl
  | uint32 => exact plain (valid.readFixed_returns (by decide) _ iter) nofun rfl
  | int64 => exact plain (valid.readFixed_returns (by decide) _ iter) nofun rfl
  | uint64 => exact plain (valid.readFixed_returns (by decide) _ iter) nofun rfl
  | length =>
    refine plain ?_ nofun rfl
    rw [readLength,valid.readInt]
    exact .any rfl
  | string => exact (valid.readString_returns iter).stored fun _ fits => good_text nofun rfl fits
  | wstring => exact (valid.readWString_returns iter).stored fun _ fits => good_text nofun rfl fits
  | string16 => exact (valid.readString16_returns iter).stored fun _ fits => good_text nofun rfl fits
  | data =>
    apply (valid.readData_returns iter).stored
    intro result holds
    obtain ⟨nonneg,room,fits⟩ := holds
    refine ⟨fun data length here => ?_,fun unit found => Option.some.inj found ▸ fits⟩
    obtain ⟨same,also⟩ := Value.range.inj here
    exact same ▸ also ▸ ⟨nonneg,room⟩
  | bytes length =>
    apply (valid.readBytes_returns iter length).stored
    intro data room
    refine ⟨fun other otherLength here => ?_,nofun⟩
    obtain ⟨same,also⟩ := Value.range.inj here
    exact same ▸ also ▸ room

/-- Without a header nothing can be read but no bytes at all. -/
theorem Null.read_returns (null : Null p) (kind : Kind) (iter : Nat) :
    Returns (p.read kind iter) fun value => kind = .bytes 0 ∧ value = .range 0 0 := by
  have fixed {β : Type} {width : Nat} (small : width < 2^31) (positive : 0 < width) (decode : Bytes → β) (wrap : β → Value)
      {kept : Value → Prop} : Returns (Pickle.stored wrap <$> Pickle.readFixed width decode p iter) kept := by
    rw [null.readFixed small positive]
    exact ⟨none,_,rfl,nofun⟩
  have text {β : Type} {wrap : β → Value} (rest : Int32 → Nat → Except Fault (Option β × Nat)) {kept : Value → Prop} :
      Returns (Pickle.stored wrap <$> p.afterLength iter rest) kept := by
    rw [null.afterLength]
    exact ⟨none,_,rfl,nofun⟩
  cases kind with
  | bool =>
    rw [read,readBool,readInt,null.readFixed (by decide) (by decide)]
    exact ⟨none,_,rfl,nofun⟩
  | int => exact fixed (by decide) (by decide) _ _
  | long => exact fixed (by decide) (by decide) _ _
  | size => exact fixed (by decide) (by decide) _ _
  | uint16 => exact fixed (by decide) (by decide) _ _
  | uint32 => exact fixed (by decide) (by decide) _ _
  | int64 => exact fixed (by decide) (by decide) _ _
  | uint64 => exact fixed (by decide) (by decide) _ _
  | length =>
    rw [read,readLength,readInt,null.readFixed (by decide) (by decide)]
    exact ⟨none,_,rfl,nofun⟩
  | string => exact text _
  | wstring => exact text _
  | string16 => exact text _
  | data => exact text _
  | bytes length =>
    rw [read,null.readBytes]
    split
    · rename_i nothing
      have zero : length = 0 := Int32.toInt_inj.mp nothing.1
      refine ⟨_,_,rfl,fun value found => ?_⟩
      rw [← Option.some.inj found,zero,nothing.2]
      exact ⟨rfl,rfl⟩
    · exact ⟨none,_,rfl,nofun⟩

theorem readAll_returns {good : Kind → Value → Prop} (each : ∀ kind iter, Returns (p.read kind iter) (good kind))
    (kinds : List Kind) (iter : Nat) : ∃ results last, p.readAll kinds iter = .ok (results,last) ∧
      List.Forall₂ (fun kind result => ∀ value, result = some value → good kind value) kinds results := by
  induction kinds generalizing iter with
  | nil => exact ⟨[],iter,rfl,.nil⟩
  | cons kind kinds ih =>
    obtain ⟨result,next,called,holds⟩ := each kind iter
    obtain ⟨results,last,others,rest⟩ := ih next
    refine ⟨result :: results,last,?_,.cons holds rest⟩
    rw [readAll,called]
    change (p.readAll kinds next >>= fun rest => pure (result :: rest.1,rest.2)) = _
    rw [others]
    rfl

end Returns

/-- Whatever the data are, no read leaves them. A range that is returned lies in them,
unless the header is of no use; then only a read of no bytes returns true. A length that
is found announces no more than there is, or the read fails. -/
theorem reads_within (data : Block) (small : data.bytes.length < 2^31) : ∃ p,
    ofData data (Int32.ofNat data.bytes.length) = .ok p ∧ p.block = data ∧
      (∀ kinds, ∃ results iter, p.readAll kinds 0 = .ok (results,iter) ∧
        List.Forall₂ (fun kind result => ∀ value, result = some value →
          (data.Inconsistent → kind = .bytes 0 ∧ value = .range 0 0) ∧
          (¬data.Inconsistent → ∀ a length, value = .range a length →
            0 ≤ length.toInt ∧ data.address ≤ a ∧ a + length.toInt.toNat ≤ data.address + data.bytes.length)) kinds results) ∧
      ∀ kind unit iter value next, kind.unit = some unit → p.read kind iter = .ok (some value,next) →
        p.Fits (p.started iter) unit := by
  obtain ⟨p,made,block,bad,fine⟩ := ofData_eq small
  refine ⟨p,made,block,?_⟩
  by_cases inconsistent : data.Inconsistent
  · have null := bad inconsistent
    refine ⟨fun kinds => readAll_returns (fun kind iter => ?_) kinds 0,fun kind unit iter value next known called => ?_⟩
    · obtain ⟨result,next,called,holds⟩ := null.read_returns kind iter
      exact ⟨result,next,called,fun value found => ⟨fun _ => holds value found,fun consistent => absurd inconsistent consistent⟩⟩
    · obtain ⟨result,last,same,holds⟩ := null.read_returns kind iter
      obtain ⟨here,_⟩ := Prod.mk.inj (Except.ok.inj (called.symm.trans same))
      rw [(holds value here.symm).1] at known
      cases known
  · have valid := (fine inconsistent).1
    refine ⟨fun kinds => readAll_returns (fun kind iter => ?_) kinds 0,fun kind unit iter value next known called => ?_⟩
    · obtain ⟨result,next,called,holds⟩ := valid.read_returns kind iter
      refine ⟨result,next,called,fun value found => ⟨fun bad => absurd bad inconsistent,fun _ a length here => ?_⟩⟩
      rw [← block]
      exact (holds value found).range a length here
    · obtain ⟨result,last,same,holds⟩ := valid.read_returns kind iter
      obtain ⟨here,_⟩ := Prod.mk.inj (Except.ok.inj (called.symm.trans same))
      exact (holds value here.symm).fits unit known

/-- A payload of four bytes, which say that minus one characters follow. -/
def evilLength : Block := ⟨4096,[4,0,0,0,255,255,255,255],by decide,fun _ => by decide⟩

theorem reads_within_evilLength : ∃ p, ofData evilLength 8 = .ok p ∧
    ∀ iter value next, p.read .string16 iter ≠ .ok (some value,next) ∨ 0 ≤ (p.lengthAt (p.started iter)).toInt := by
  obtain ⟨p,made,_,_,fits⟩ := reads_within evilLength (by decide)
  refine ⟨p,made,fun iter value next => ?_⟩
  by_cases called : p.read .string16 iter = .ok (some value,next)
  · exact .inr (fits .string16 2 iter value next rfl called).nonneg
  · exact .inl called

def noData : Block := ⟨4096,[],by decide,nofun⟩

/-- Reading no bytes from them succeeds, with a range that begins nowhere in them. -/
theorem read_noData : noData.Inconsistent ∧ ∃ p, ofData noData 0 = .ok p ∧
    p.readAll [.bytes 0] 0 = .ok ([some (.range 0 0)],0) ∧ ¬noData.address ≤ 0 :=
  ⟨.inl (by decide),_,rfl,rfl,by decide⟩

end WebSearch.Pickle
