import WebSearch.Base.Bytes
import WebSearch.Library.LittleEndian
import WebSearch.Library.BlockStream
import Mathlib.Data.Nat.Bitwise

/-! `base/md5.cc` on a little-endian machine. `MD5Update` takes the message in pieces
of any length, `MD5Sum` in one. -/
namespace WebSearch.MD5
open Library Library.BlockStream

abbrev UInt := BitVec 32

/-- The `buf` of a context. -/
structure Hash where
  a : UInt
  b : UInt
  c : UInt
  d : UInt
  deriving DecidableEq

/-- `input` is the member `in`, with whatever it held before. -/
structure Context where
  buf : Hash
  bits0 : UInt
  bits1 : UInt
  input : Bytes

/-- `byteReverse` reads the bytes of a number from the lowest on and stores the number. -/
def byteReverse : Nat → Bytes → Bytes
  | longs + 1,b0 :: b1 :: b2 :: b3 :: rest =>
    toBytes 4 ((b3.toNat <<< 8 ||| b2.toNat) <<< 16 ||| (b1.toNat <<< 8 ||| b0.toNat)) ++ byteReverse longs rest
  | _,bytes => bytes

def F1 (x y z : UInt) : UInt := z ^^^ (x &&& (y ^^^ z))
def F2 (x y z : UInt) : UInt := F1 z x y
def F3 (x y z : UInt) : UInt := x ^^^ y ^^^ z
def F4 (x y z : UInt) : UInt := y ^^^ (x ||| ~~~z)

def MD5STEP (f : UInt → UInt → UInt → UInt) (w x y z data : UInt) (s : Nat) : UInt :=
  let w := w + (f x y z + data)
  let w := w <<< s ||| w >>> (32 - s)
  w + x

/-- `((uint32 *)in)[i]`. -/
def wordAt (input : Bytes) (i : Nat) : UInt := BitVec.ofNat 32 (ofBytes ((input.drop (4 * i)).take 4))

def MD5Transform (buf : Hash) (input : Bytes) : Hash :=
  let word := wordAt input
  let a := buf.a
  let b := buf.b
  let c := buf.c
  let d := buf.d
  let a := MD5STEP F1 a b c d (word 0 + 0xd76aa478) 7
  let d := MD5STEP F1 d a b c (word 1 + 0xe8c7b756) 12
  let c := MD5STEP F1 c d a b (word 2 + 0x242070db) 17
  let b := MD5STEP F1 b c d a (word 3 + 0xc1bdceee) 22
  let a := MD5STEP F1 a b c d (word 4 + 0xf57c0faf) 7
  let d := MD5STEP F1 d a b c (word 5 + 0x4787c62a) 12
  let c := MD5STEP F1 c d a b (word 6 + 0xa8304613) 17
  let b := MD5STEP F1 b c d a (word 7 + 0xfd469501) 22
  let a := MD5STEP F1 a b c d (word 8 + 0x698098d8) 7
  let d := MD5STEP F1 d a b c (word 9 + 0x8b44f7af) 12
  let c := MD5STEP F1 c d a b (word 10 + 0xffff5bb1) 17
  let b := MD5STEP F1 b c d a (word 11 + 0x895cd7be) 22
  let a := MD5STEP F1 a b c d (word 12 + 0x6b901122) 7
  let d := MD5STEP F1 d a b c (word 13 + 0xfd987193) 12
  let c := MD5STEP F1 c d a b (word 14 + 0xa679438e) 17
  let b := MD5STEP F1 b c d a (word 15 + 0x49b40821) 22
  let a := MD5STEP F2 a b c d (word 1 + 0xf61e2562) 5
  let d := MD5STEP F2 d a b c (word 6 + 0xc040b340) 9
  let c := MD5STEP F2 c d a b (word 11 + 0x265e5a51) 14
  let b := MD5STEP F2 b c d a (word 0 + 0xe9b6c7aa) 20
  let a := MD5STEP F2 a b c d (word 5 + 0xd62f105d) 5
  let d := MD5STEP F2 d a b c (word 10 + 0x02441453) 9
  let c := MD5STEP F2 c d a b (word 15 + 0xd8a1e681) 14
  let b := MD5STEP F2 b c d a (word 4 + 0xe7d3fbc8) 20
  let a := MD5STEP F2 a b c d (word 9 + 0x21e1cde6) 5
  let d := MD5STEP F2 d a b c (word 14 + 0xc33707d6) 9
  let c := MD5STEP F2 c d a b (word 3 + 0xf4d50d87) 14
  let b := MD5STEP F2 b c d a (word 8 + 0x455a14ed) 20
  let a := MD5STEP F2 a b c d (word 13 + 0xa9e3e905) 5
  let d := MD5STEP F2 d a b c (word 2 + 0xfcefa3f8) 9
  let c := MD5STEP F2 c d a b (word 7 + 0x676f02d9) 14
  let b := MD5STEP F2 b c d a (word 12 + 0x8d2a4c8a) 20
  let a := MD5STEP F3 a b c d (word 5 + 0xfffa3942) 4
  let d := MD5STEP F3 d a b c (word 8 + 0x8771f681) 11
  let c := MD5STEP F3 c d a b (word 11 + 0x6d9d6122) 16
  let b := MD5STEP F3 b c d a (word 14 + 0xfde5380c) 23
  let a := MD5STEP F3 a b c d (word 1 + 0xa4beea44) 4
  let d := MD5STEP F3 d a b c (word 4 + 0x4bdecfa9) 11
  let c := MD5STEP F3 c d a b (word 7 + 0xf6bb4b60) 16
  let b := MD5STEP F3 b c d a (word 10 + 0xbebfbc70) 23
  let a := MD5STEP F3 a b c d (word 13 + 0x289b7ec6) 4
  let d := MD5STEP F3 d a b c (word 0 + 0xeaa127fa) 11
  let c := MD5STEP F3 c d a b (word 3 + 0xd4ef3085) 16
  let b := MD5STEP F3 b c d a (word 6 + 0x04881d05) 23
  let a := MD5STEP F3 a b c d (word 9 + 0xd9d4d039) 4
  let d := MD5STEP F3 d a b c (word 12 + 0xe6db99e5) 11
  let c := MD5STEP F3 c d a b (word 15 + 0x1fa27cf8) 16
  let b := MD5STEP F3 b c d a (word 2 + 0xc4ac5665) 23
  let a := MD5STEP F4 a b c d (word 0 + 0xf4292244) 6
  let d := MD5STEP F4 d a b c (word 7 + 0x432aff97) 10
  let c := MD5STEP F4 c d a b (word 14 + 0xab9423a7) 15
  let b := MD5STEP F4 b c d a (word 5 + 0xfc93a039) 21
  let a := MD5STEP F4 a b c d (word 12 + 0x655b59c3) 6
  let d := MD5STEP F4 d a b c (word 3 + 0x8f0ccc92) 10
  let c := MD5STEP F4 c d a b (word 10 + 0xffeff47d) 15
  let b := MD5STEP F4 b c d a (word 1 + 0x85845dd1) 21
  let a := MD5STEP F4 a b c d (word 8 + 0x6fa87e4f) 6
  let d := MD5STEP F4 d a b c (word 15 + 0xfe2ce6e0) 10
  let c := MD5STEP F4 c d a b (word 6 + 0xa3014314) 15
  let b := MD5STEP F4 b c d a (word 13 + 0x4e0811a1) 21
  let a := MD5STEP F4 a b c d (word 4 + 0xf7537e82) 6
  let d := MD5STEP F4 d a b c (word 11 + 0xbd3af235) 10
  let c := MD5STEP F4 c d a b (word 2 + 0x2ad7d2bb) 15
  let b := MD5STEP F4 b c d a (word 9 + 0xeb86d391) 21
  ⟨buf.a + a,buf.b + b,buf.c + c,buf.d + d⟩

def iv : Hash := ⟨0x67452301,0xefcdab89,0x98badcfe,0x10325476⟩

def MD5Init (ctx : Context) : Context := {ctx with buf := iv,bits0 := 0,bits1 := 0}

def memcpy (dst : Bytes) (offset : Nat) (src : Bytes) : Bytes :=
  dst.take offset ++ src ++ dst.drop (offset + src.length)

def memset (dst : Bytes) (offset count : Nat) : Bytes := memcpy dst offset (List.replicate count 0)

/-- The loop over whole chunks, and the copy of what remains. -/
def processChunks (ctx : Context) (buf : Bytes) : Context :=
  if 64 ≤ buf.length then
    let input := byteReverse 16 (memcpy ctx.input 0 (buf.take 64))
    processChunks {ctx with buf := MD5Transform ctx.buf input,input} (buf.drop 64)
  else {ctx with input := memcpy ctx.input 0 buf}
termination_by buf.length
decreasing_by
  rw [List.length_drop]
  omega

def MD5Update (ctx : Context) (buf : Bytes) : Context :=
  let len := buf.length
  let t := ctx.bits0
  let bits0 := t + BitVec.ofNat 32 len <<< 3
  let bits1 := if bits0 < t then ctx.bits1 + 1 else ctx.bits1
  let bits1 := bits1 + BitVec.ofNat 32 (len >>> 29)
  let t := (t >>> 3 &&& 0x3f).toNat
  let ctx := {ctx with bits0,bits1}
  if t ≠ 0 then
    if len < 64 - t then {ctx with input := memcpy ctx.input t buf}
    else
      let input := byteReverse 16 (memcpy ctx.input t (buf.take (64 - t)))
      processChunks {ctx with buf := MD5Transform ctx.buf input,input} (buf.drop (64 - t))
  else processChunks ctx buf

def Hash.bytes (h : Hash) : Bytes := toBytes 4 h.a.toNat ++ toBytes 4 h.b.toNat ++ toBytes 4 h.c.toNat ++ toBytes 4 h.d.toNat

/-- The digest, and what is left in the context: the last `memset` clears as many bytes
as a pointer has. -/
def MD5Final (ctx : Context) : Bytes × Context :=
  let count := (ctx.bits0 >>> 3 &&& 0x3f).toNat
  let input := memcpy ctx.input count [0x80]
  let p := count + 1
  let count := 64 - 1 - count
  let (buf,input) :=
    if count < 8 then
      let input := byteReverse 16 (memset input p count)
      (MD5Transform ctx.buf input,memset input 0 56)
    else (ctx.buf,memset input p (count - 8))
  let input := byteReverse 14 input
  let input := memcpy input 56 (toBytes 4 ctx.bits0.toNat)
  let input := memcpy input 60 (toBytes 4 ctx.bits1.toNat)
  let buf := MD5Transform buf input
  (byteReverse 4 buf.bytes,⟨{buf with a := 0,b := 0},ctx.bits0,ctx.bits1,input⟩)

def zEncode : Bytes := "0123456789abcdef".toUTF8.toList

def MD5DigestToBase16 (digest : Bytes) : Bytes :=
  digest.flatMap fun a => [zEncode.getD (a.toNat >>> 4 &&& 0xf) 0,zEncode.getD (a.toNat &&& 0xf) 0]

/-- `ctx` is the uninitialized local. -/
def MD5Sum (ctx : Context) (data : Bytes) : Bytes := (MD5Final (MD5Update (MD5Init ctx) data)).1

def MD5String (ctx : Context) (str : Bytes) : Bytes := MD5DigestToBase16 (MD5Sum ctx str)

/-! The algorithm itself: the message is padded to whole blocks, the number of its bits
last, and the blocks go through the transform one by one. -/

def padding (length : Nat) : Bytes :=
  [0x80] ++ List.replicate ((119 - length % 64) % 64) 0 ++ toBytes 8 (8 * length)

def md5 (message : Bytes) : Bytes := (absorb 64 MD5Transform iv (message ++ padding message.length)).1.bytes

section Bytes

theorem toBytes_append (first second n : Nat) :
    toBytes (first + second) n = toBytes first n ++ toBytes second (n / 256^first) := by
  induction first generalizing n with
  | zero => simp [toBytes]
  | succ first ih =>
    rw [Nat.succ_add,toBytes,toBytes,ih,List.cons_append,Nat.div_div_eq_div_mul,Nat.pow_succ,Nat.mul_comm 256]

theorem toBytes_mod (width n : Nat) : toBytes width (n % 256^width) = toBytes width n := by
  induction width generalizing n with
  | zero => rfl
  | succ width ih =>
    have low : UInt8.ofNat (n % 256^(width + 1)) = UInt8.ofNat n := by
      apply UInt8.toNat_inj.mp
      rw [UInt8.toNat_ofNat',UInt8.toNat_ofNat',Nat.pow_succ,Nat.mod_mul_left_mod]
    rw [toBytes,toBytes,low,Nat.pow_succ,Nat.mul_comm,Nat.mod_mul_right_div_self,ih]

/-- Harmless on little-endian machines. -/
theorem byteReverse_id (longs : Nat) (bytes : Bytes) : byteReverse longs bytes = bytes := by
  induction longs, bytes using byteReverse.induct with
  | case1 longs b0 b1 b2 b3 rest ih =>
    have high : b3.toNat <<< 8 ||| b2.toNat = b3.toNat * 2^8 + b2.toNat := by
      rw [← Nat.shiftLeft_add_eq_or_of_lt b2.toNat_lt,Nat.shiftLeft_eq]
    have low : b1.toNat <<< 8 ||| b0.toNat = b1.toNat * 2^8 + b0.toNat := by
      rw [← Nat.shiftLeft_add_eq_or_of_lt b0.toNat_lt,Nat.shiftLeft_eq]
    have below : b1.toNat * 2^8 + b0.toNat < 2^16 := by
      have := b1.toNat_lt
      have := b0.toNat_lt
      omega
    rw [byteReverse,ih,high,low,← Nat.shiftLeft_add_eq_or_of_lt below,Nat.shiftLeft_eq]
    have b0_lt := b0.toNat_lt
    have b1_lt := b1.toNat_lt
    have b2_lt := b2.toNat_lt
    have b3_lt := b3.toNat_lt
    have byte {n : Nat} {b : UInt8} (same : n % 256 = b.toNat) : UInt8.ofNat n = b := by
      apply UInt8.toNat_inj.mp
      rw [UInt8.toNat_ofNat',same]
    simp only [toBytes,List.cons_append,List.nil_append,List.cons.injEq,and_true]
    exact ⟨byte (by omega),byte (by omega),byte (by omega),byte (by omega)⟩
  | case2 longs bytes short => rw [byteReverse]; exact short

theorem memcpy_length {dst src : Bytes} {offset : Nat} (fits : offset + src.length ≤ dst.length) :
    (memcpy dst offset src).length = dst.length := by
  simp only [memcpy,List.length_append,List.length_take,List.length_drop]
  omega

theorem memcpy_take {dst : Bytes} (src : Bytes) {offset : Nat} (inside : offset ≤ dst.length) :
    (memcpy dst offset src).take (offset + src.length) = dst.take offset ++ src := by
  apply List.take_left'
  rw [List.length_append,List.length_take,Nat.min_eq_left inside]

/-- A copy that goes to the end leaves nothing of what was there. -/
theorem memcpy_to_end {dst src : Bytes} {offset : Nat} (full : offset + src.length = dst.length) :
    memcpy dst offset src = dst.take offset ++ src := by
  rw [memcpy,full,List.drop_length,List.append_nil]

end Bytes

section Update

/-- The context after the message has gone in: the chaining value, the bytes that do not
fill a chunk yet, and 64 bits of the number of message bits. -/
structure Holds (ctx : Context) (message : Bytes) : Prop where
  length : ctx.input.length = 64
  bits0 : ctx.bits0 = BitVec.ofNat 32 (8 * message.length)
  bits1 : ctx.bits1 = BitVec.ofNat 32 (8 * message.length / 2^32)
  absorbed : absorb 64 MD5Transform iv message = (ctx.buf,ctx.input.take (message.length % 64))

theorem init_holds {ctx : Context} (length : ctx.input.length = 64) : Holds (MD5Init ctx) [] :=
  ⟨length,rfl,rfl,absorb_short _ (by simp)⟩

theorem processChunks_absorbs (ctx : Context) (buf : Bytes) (length : ctx.input.length = 64) :
    (processChunks ctx buf).input.length = 64 ∧ (processChunks ctx buf).bits0 = ctx.bits0 ∧
    (processChunks ctx buf).bits1 = ctx.bits1 ∧ absorb 64 MD5Transform ctx.buf buf =
      ((processChunks ctx buf).buf,(processChunks ctx buf).input.take (buf.length % 64)) := by
  induction ctx, buf using processChunks.induct with
  | case1 ctx buf enough input ih =>
    have chunk : input = buf.take 64 := by
      have whole : (buf.take 64).length = 64 := by simp [enough]
      change byteReverse 16 (memcpy ctx.input 0 (buf.take 64)) = _
      rw [byteReverse_id,memcpy_to_end (by omega),List.take_zero,List.nil_append]
    have stepped : processChunks ctx buf =
        processChunks {ctx with buf := MD5Transform ctx.buf input,input} (buf.drop 64) := by
      rw [processChunks,if_pos enough]
    obtain ⟨length',bits0,bits1,absorbed⟩ := ih (by rw [chunk]; simp [enough])
    rw [stepped]
    refine ⟨length',bits0,bits1,?_⟩
    rw [List.length_drop,← Nat.mod_eq_sub_mod enough] at absorbed
    rw [← absorbed,absorb_block (by omega) _ enough,← chunk]
  | case2 ctx buf few =>
    have short : buf.length < 64 := by omega
    rw [processChunks,if_neg few,absorb_short _ short,Nat.mod_eq_of_lt short]
    refine ⟨?_,rfl,rfl,?_⟩
    · rw [memcpy_length (by omega),length]
    · have copied := memcpy_take buf (Nat.zero_le ctx.input.length)
      rw [Nat.zero_add,List.take_zero,List.nil_append] at copied
      rw [copied]

theorem count_mod (n : Nat) : (BitVec.ofNat 32 (8 * n) >>> 3 &&& 0x3f : UInt).toNat = n % 64 := by
  simp only [BitVec.toNat_and,BitVec.toNat_ushiftRight,BitVec.toNat_ofNat,Nat.shiftRight_eq_div_pow]
  rw [show BitVec.toNat 63 = 2^6 - 1 from rfl,Nat.and_two_pow_sub_one_eq_mod]
  omega

/-- The two halves of the bit count, with the carry from low to high. -/
theorem count_add (n k : Nat) :
    BitVec.ofNat 32 (8 * n) + BitVec.ofNat 32 k <<< 3 = BitVec.ofNat 32 (8 * (n + k)) ∧
    (if BitVec.ofNat 32 (8 * n) + BitVec.ofNat 32 k <<< 3 < BitVec.ofNat 32 (8 * n) then
        BitVec.ofNat 32 (8 * n / 2^32) + 1 else BitVec.ofNat 32 (8 * n / 2^32)) + BitVec.ofNat 32 (k >>> 29) =
      BitVec.ofNat 32 (8 * (n + k) / 2^32) := by
  have low : BitVec.ofNat 32 (8 * n) + BitVec.ofNat 32 k <<< 3 = BitVec.ofNat 32 (8 * (n + k)) := by
    apply BitVec.eq_of_toNat_eq
    simp only [BitVec.toNat_add,BitVec.toNat_shiftLeft,BitVec.toNat_ofNat,Nat.shiftLeft_eq]
    omega
  refine ⟨low,?_⟩
  rw [low]
  apply BitVec.eq_of_toNat_eq
  by_cases carry : BitVec.ofNat 32 (8 * (n + k)) < BitVec.ofNat 32 (8 * n)
  · rw [if_pos carry]
    rw [BitVec.lt_def,BitVec.toNat_ofNat,BitVec.toNat_ofNat] at carry
    have one : BitVec.toNat (1 : UInt) = 1 := rfl
    simp only [BitVec.toNat_add,BitVec.toNat_ofNat,Nat.shiftRight_eq_div_pow,one]
    omega
  · rw [if_neg carry]
    rw [BitVec.lt_def,BitVec.toNat_ofNat,BitVec.toNat_ofNat] at carry
    simp only [BitVec.toNat_add,BitVec.toNat_ofNat,Nat.shiftRight_eq_div_pow]
    omega

theorem update_holds {ctx : Context} {message : Bytes} (holds : Holds ctx message) (chunk : Bytes) :
    Holds (MD5Update ctx chunk) (message ++ chunk) := by
  obtain ⟨length,bits0,bits1,absorbed⟩ := holds
  obtain ⟨low,high⟩ := count_add message.length chunk.length
  have pending : absorb 64 MD5Transform iv (message ++ chunk) = _ := absorb_append (by omega) iv message chunk
  rw [absorbed] at pending
  dsimp only at pending
  have filled := Nat.mod_lt message.length (show 64 > 0 by omega)
  rw [MD5Update]
  dsimp only
  rw [bits0,bits1,count_mod,high,low,← List.length_append]
  by_cases empty : message.length % 64 = 0
  · rw [if_neg (by omega)]
    rw [empty,List.take_zero,List.nil_append] at pending
    obtain ⟨length',bits0',bits1',absorbed'⟩ := processChunks_absorbs {ctx with
      bits0 := BitVec.ofNat 32 (8 * (message ++ chunk).length)
      bits1 := BitVec.ofNat 32 (8 * (message ++ chunk).length / 2^32)} chunk length
    refine ⟨length',bits0',bits1',?_⟩
    have rest : (message ++ chunk).length % 64 = chunk.length % 64 := by
      rw [List.length_append]
      omega
    rw [pending,rest,absorbed']
  · rw [if_pos empty]
    have held : (ctx.input.take (message.length % 64)).length = message.length % 64 := by
      rw [List.length_take]
      omega
    by_cases short : chunk.length < 64 - message.length % 64
    · rw [if_pos short]
      have copied := memcpy_take chunk (show message.length % 64 ≤ ctx.input.length by omega)
      refine ⟨?_,rfl,rfl,?_⟩
      · rw [memcpy_length (by omega),length]
      · have rest : (message ++ chunk).length % 64 = message.length % 64 + chunk.length := by
          rw [List.length_append]
          omega
        rw [pending,rest,copied]
        apply absorb_short
        rw [List.length_append,held]
        omega
    · rw [if_neg short]
      -- the chunk in the buffer is completed first
      have first : (chunk.take (64 - message.length % 64)).length = 64 - message.length % 64 := by
        rw [List.length_take]
        omega
      have whole : byteReverse 16 (memcpy ctx.input (message.length % 64) (chunk.take (64 - message.length % 64))) =
          ctx.input.take (message.length % 64) ++ chunk.take (64 - message.length % 64) := by
        rw [byteReverse_id,memcpy_to_end (by omega)]
      rw [whole]
      obtain ⟨length',bits0',bits1',absorbed'⟩ := processChunks_absorbs ⟨MD5Transform ctx.buf
        (ctx.input.take (message.length % 64) ++ chunk.take (64 - message.length % 64)),
        BitVec.ofNat 32 (8 * (message ++ chunk).length),BitVec.ofNat 32 (8 * (message ++ chunk).length / 2^32),
        ctx.input.take (message.length % 64) ++ chunk.take (64 - message.length % 64)⟩
        (chunk.drop (64 - message.length % 64)) (by rw [List.length_append]; omega)
      refine ⟨length',bits0',bits1',?_⟩
      have rest : (message ++ chunk).length % 64 = (chunk.drop (64 - message.length % 64)).length % 64 := by
        rw [List.length_append,List.length_drop]
        omega
      dsimp only at absorbed'
      rw [pending,rest,← absorbed']
      apply absorb_complete
      · omega
      · omega
      · omega

theorem updates_hold {ctx : Context} {message : Bytes} (holds : Holds ctx message) (chunks : List Bytes) :
    Holds (chunks.foldl MD5Update ctx) (message ++ chunks.flatten) := by
  induction chunks generalizing ctx message with
  | nil => simpa using holds
  | cons chunk chunks ih =>
    rw [List.foldl_cons,List.flatten_cons,← List.append_assoc]
    apply ih
    exact update_holds holds chunk

end Update

section Final

/-- The length goes into the last eight bytes. -/
theorem lengths_stored {input : Bytes} (length : input.length = 64) (n : Nat) :
    memcpy (memcpy input 56 (toBytes 4 (BitVec.ofNat 32 n).toNat)) 60 (toBytes 4 (BitVec.ofNat 32 (n / 2^32)).toNat) =
      input.take 56 ++ toBytes 8 n := by
  have halves : toBytes 8 n = toBytes 4 n ++ toBytes 4 (n / 2^32) := toBytes_append 4 4 n
  have low : toBytes 4 (BitVec.ofNat 32 n).toNat = toBytes 4 n := by
    rw [BitVec.toNat_ofNat]
    exact toBytes_mod 4 n
  have high : toBytes 4 (BitVec.ofNat 32 (n / 2^32)).toNat = toBytes 4 (n / 2^32) := by
    rw [BitVec.toNat_ofNat]
    exact toBytes_mod 4 (n / 2^32)
  have first : memcpy input 56 (toBytes 4 n) = input.take 56 ++ toBytes 4 n ++ input.drop 60 := by
    rw [memcpy,length_toBytes]
  rw [low,high,halves,← List.append_assoc,memcpy_to_end]
  · rw [first]
    congr 1
    apply List.take_left'
    simp [length]
  · rw [memcpy_length]
    · rw [length,length_toBytes]
    · rw [length,length_toBytes]
      omega

theorem memset_take {dst : Bytes} {offset : Nat} (count : Nat) (inside : offset ≤ dst.length) :
    (memset dst offset count).take (offset + count) = dst.take offset ++ List.replicate count 0 := by
  have copied := memcpy_take (List.replicate count 0) inside
  rwa [List.length_replicate] at copied

theorem memset_length (dst : Bytes) {offset count : Nat} (fits : offset + count ≤ dst.length) :
    (memset dst offset count).length = dst.length := by
  apply memcpy_length
  rwa [List.length_replicate]

theorem final_digest {ctx : Context} {message : Bytes} (holds : Holds ctx message) :
    (MD5Final ctx).1 = md5 message := by
  obtain ⟨length,bits0,bits1,absorbed⟩ := holds
  have filled := Nat.mod_lt message.length (show 64 > 0 by omega)
  have pending : absorb 64 MD5Transform iv (message ++ padding message.length) = _ :=
    absorb_append (by omega) iv message _
  rw [absorbed] at pending
  dsimp only at pending
  rw [md5,pending,MD5Final,padding]
  dsimp only
  rw [bits0,bits1,count_mod,byteReverse_id,byteReverse_id,byteReverse_id]
  generalize message.length % 64 = count at *
  have inside : count ≤ ctx.input.length := by omega
  have marked : (memcpy ctx.input count [0x80]).length = 64 := by
    rw [memcpy_length,length]
    rw [List.length_singleton]
    omega
  have mark : (memcpy ctx.input count [0x80]).take (count + 1) = ctx.input.take count ++ [0x80] := by
    have copied := memcpy_take [0x80] inside
    rwa [List.length_singleton] at copied
  have held : (ctx.input.take count).length = count := List.length_take_of_le inside
  by_cases crowded : 64 - 1 - count < 8
  · rw [if_pos crowded]
    -- no room for the length: a block of zeros first
    have fits : count + 1 + (64 - 1 - count) ≤ (memcpy ctx.input count [0x80]).length := by omega
    have size := memset_length _ fits
    have filled := memset_take (64 - 1 - count) (Nat.le_of_add_right_le fits)
    rw [List.take_of_length_le (by omega),mark] at filled
    have cleared := memset_take 56 (Nat.zero_le (memset (memcpy ctx.input count [0x80]) (count + 1) (64 - 1 - count)).length)
    rw [Nat.zero_add,List.take_zero,List.nil_append] at cleared
    have split : List.replicate ((119 - count) % 64) (0 : UInt8) =
        List.replicate (64 - 1 - count) 0 ++ List.replicate 56 0 := by
      rw [← List.replicate_add]
      congr 1
      omega
    dsimp only
    rw [lengths_stored,cleared,filled,split]
    · have regroup : ctx.input.take count ++ ([0x80] ++ (List.replicate (64 - 1 - count) 0 ++ List.replicate 56 0) ++
          toBytes 8 (8 * message.length)) = ctx.input.take count ++ [0x80] ++ List.replicate (64 - 1 - count) 0 ++
          (List.replicate 56 0 ++ toBytes 8 (8 * message.length)) := by
        simp only [List.append_assoc]
      rw [regroup,absorb_first (by omega),absorb_last (by omega)]
      · simp
      · simp only [List.length_append,List.length_singleton,List.length_replicate,held]
        omega
    · rw [memset_length]
      · omega
      · omega
  · rw [if_neg crowded]
    have fits : count + 1 + (64 - 1 - count - 8) ≤ (memcpy ctx.input count [0x80]).length := by omega
    have size := memset_length _ fits
    have filled := memset_take (64 - 1 - count - 8) (Nat.le_of_add_right_le fits)
    rw [mark,show count + 1 + (64 - 1 - count - 8) = 56 by omega] at filled
    dsimp only
    rw [lengths_stored (by omega),filled,show (119 - count) % 64 = 64 - 1 - count - 8 by omega,absorb_last (by omega)]
    · simp only [List.append_assoc]
    · simp only [List.length_append,List.length_singleton,List.length_replicate,length_toBytes,held]
      omega

end Final

/-- However a message is cut, and whatever the contexts held before. -/
theorem chunks_digest (ctx other : Context) (length : ctx.input.length = 64) (length' : other.input.length = 64)
    (chunks : List Bytes) : (MD5Final (chunks.foldl MD5Update (MD5Init ctx))).1 = md5 chunks.flatten ∧
    MD5String other chunks.flatten = MD5DigestToBase16 (md5 chunks.flatten) := by
  constructor
  · have holds := updates_hold (init_holds length) chunks
    rw [List.nil_append] at holds
    exact final_digest holds
  · have holds := update_holds (init_holds length') chunks.flatten
    rw [List.nil_append] at holds
    rw [MD5String,MD5Sum,final_digest holds]

theorem chunks_digest_abc : MD5DigestToBase16
    (MD5Final ([[97],[98,99]].foldl MD5Update (MD5Init ⟨iv,0,0,List.replicate 64 7⟩))).1 =
    "900150983cd24fb0d6963f7d28e17f72".toUTF8.toList := by
  have digest := chunks_digest ⟨iv,0,0,List.replicate 64 7⟩ ⟨iv,0,0,List.replicate 64 0⟩
    List.length_replicate List.length_replicate [[97],[98,99]]
  rw [digest.1]
  decide +kernel

end WebSearch.MD5
