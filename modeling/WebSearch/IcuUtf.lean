import WebSearch.Base.Bytes
import WebSearch.Library.Unicode

/-! `base/thirdparty/icu`: the macros of `icu_utf.h` and the decoding body of `icu_utf.cc`.
A code point is a `uint32`, and `CBU_SENTINEL` is -1 as such. A read behind the string and
an `int32` that overflows are none. -/
namespace WebSearch.Icu
open Library.Unicode

def sentinel : Nat := 2^32 - 1

/-- `char` has a sign. -/
def charToUInt32 (b : UInt8) : Nat := if b < 0x80 then b.toNat else b.toNat + (2^32 - 2^8)

/-- The table `utf8_countTrailBytes`, at the low byte. -/
def countTrailBytes (c : Nat) : Nat :=
  let b := c % 256
  if b < 0xC0 then 0 else if b < 0xE0 then 1 else if b < 0xF0 then 2 else if b < 0xF8 then 3
  else if b < 0xFC then 4 else if b < 0xFE then 5 else 0

def minLegal (count : Nat) : Nat := [0,0x80,0x800,0x10000].getD count 0

def isSurrogate (c : Nat) : Bool := c &&& 0xFFFFF800 = 0xD800

def isLead (c : UInt8) : Bool := c - 0xC0 < 0x3E

def isTrail (c : UInt8) : Bool := c &&& 0xC0 = 0x80

/-- The cases 3, 2 and 1 of the `switch`, which fall through: the index, the code point and
`illegal`. -/
def readTrails (s : Bytes) : Nat → Nat → Nat → Bool → Option (Nat × Nat × Bool)
  | 0, i, c, illegal => some (i,c,illegal)
  | count + 1, i, c, illegal => do
    let trail := (← s[i]?).toNat
    let c := (c <<< 6) ||| (trail &&& 0x3F)
    if count = 2 ∧ 0x110 ≤ c then return (i + 1,c,true)
    readTrails s count (i + 1) c (illegal || ((trail &&& 0xC0) ^^^ 0x80) != 0)

/-- Not beyond this sequence. -/
def skipTrails (s : Bytes) : Nat → Nat → Option Nat
  | 0, i => some i
  | count + 1, i => do if isTrail (← s[i]?) then skipTrails s count (i + 1) else return i

/-- `strict` is -1. -/
def utf8NextCharSafeBody (s : Bytes) (pi length c : Nat) : Option (Nat × Nat) := do
  let count := countTrailBytes c
  if 2^31 ≤ pi + count then none
  else if pi + count ≤ length then
    let c := c &&& ((1 <<< (6 - count)) - 1)
    if count = 0 then return (pi,sentinel)
    let (i,c,illegal) ← if 4 ≤ count then some (pi,c,true) else readTrails s count pi c false
    if illegal || c < minLegal count || isSurrogate c then return (← skipTrails s count pi,sentinel)
    return (i,c)
  else return (← skipTrails s (length - pi) pi,sentinel)

abbrev DecodingBody := Bytes → Nat → Nat → Nat → Option (Nat × Nat)

/-- `CBU8_NEXT`: where the index is afterwards, and the code point. -/
def u8Next (body : DecodingBody) (s : Bytes) (i length : Nat) : Option (Nat × Nat) := do
  let c ← s[i]?
  if c < 0x80 then return (i + 1,charToUInt32 c)
  else if isLead c then body s (i + 1) length (charToUInt32 c)
  else return (i + 1,sentinel)

/-- What `CBU8_APPEND_UNSAFE` writes. -/
def u8Append (c : Nat) : Bytes :=
  if c ≤ 0x7F then [UInt8.ofNat c]
  else if c ≤ 0x7FF then [UInt8.ofNat ((c >>> 6) ||| 0xC0),UInt8.ofNat ((c &&& 0x3F) ||| 0x80)]
  else if c ≤ 0xFFFF then
    [UInt8.ofNat ((c >>> 12) ||| 0xE0),UInt8.ofNat (((c >>> 6) &&& 0x3F) ||| 0x80),UInt8.ofNat ((c &&& 0x3F) ||| 0x80)]
  else
    [UInt8.ofNat ((c >>> 18) ||| 0xF0),UInt8.ofNat (((c >>> 12) &&& 0x3F) ||| 0x80),
      UInt8.ofNat (((c >>> 6) &&& 0x3F) ||| 0x80),UInt8.ofNat ((c &&& 0x3F) ||| 0x80)]

def isSurrogateLead (c : Nat) : Bool := c &&& 0x400 = 0

def isTrail16 (c : Nat) : Bool := c &&& 0xFFFFFC00 = 0xDC00

def surrogateOffset : Nat := (0xD800 <<< 10) + 0xDC00 - 0x10000

/-- `CBU16_GET_SUPPLEMENTARY`. -/
def getSupplementary (lead trail : Nat) : Nat := ((lead <<< 10) + trail + 2^32 - surrogateOffset) % 2^32

/-- What `CBU16_APPEND_UNSAFE` writes. -/
def u16Append (c : Nat) : List UInt16 :=
  if c ≤ 0xFFFF then [UInt16.ofNat c]
  else [UInt16.ofNat ((c >>> 10) + 0xD7C0),UInt16.ofNat ((c &&& 0x3FF) ||| 0xDC00)]

/-! Bits. -/

theorem shift_or {a b : Nat} (small : b < 64) : (a <<< 6) ||| b = a * 64 + b := by
  rw [← Nat.shiftLeft_add_eq_or_of_lt small,Nat.shiftLeft_eq]

/-- The bits from a place on. -/
theorem and_high (a m k : Nat) : a &&& (m * 2^k) = (a / 2^k &&& m) * 2^k := by
  apply Nat.eq_of_testBit_eq
  intro i
  rw [Nat.testBit_and,Nat.testBit_mul_two_pow,Nat.testBit_mul_two_pow,Nat.testBit_and,Nat.testBit_div_two_pow]
  by_cases high : k ≤ i
  · simp [high]
  · simp [high]

theorem isSurrogate_iff {c : Nat} (small : c < 2^32) : isSurrogate c = true ↔ 0xD800 ≤ c ∧ c < 0xE000 := by
  have high := and_high c (2^21 - 1) 11
  rw [Nat.and_two_pow_sub_one_eq_mod] at high
  rw [isSurrogate,decide_eq_true_eq]
  change c &&& (2^21 - 1) * 2^11 = 0xD800 ↔ _
  rw [high]
  omega

theorem isTrail16_iff {c : Nat} (small : c < 2^32) : isTrail16 c = true ↔ 0xDC00 ≤ c ∧ c < 0xE000 := by
  have high := and_high c (2^22 - 1) 10
  rw [Nat.and_two_pow_sub_one_eq_mod] at high
  rw [isTrail16,decide_eq_true_eq]
  change c &&& (2^22 - 1) * 2^10 = 0xDC00 ↔ _
  rw [high]
  omega

theorem isSurrogateLead_iff {c : Nat} (surrogate : 0xD800 ≤ c ∧ c < 0xE000) : isSurrogateLead c = true ↔ c < 0xDC00 := by
  have high := and_high c (2^1 - 1) 10
  rw [Nat.and_two_pow_sub_one_eq_mod] at high
  rw [isSurrogateLead,decide_eq_true_eq]
  change c &&& (2^1 - 1) * 2^10 = 0 ↔ _
  rw [high]
  omega

theorem isTrail_iff (b : UInt8) : isTrail b = true ↔ 0x80 ≤ b.toNat ∧ b.toNat < 0xC0 := by
  have all : ∀ n < 256, isTrail (UInt8.ofNat n) = true ↔ 0x80 ≤ n ∧ n < 0xC0 := by decide +kernel
  have here := all b.toNat b.toNat_lt
  rw [UInt8.ofNat_toNat] at here
  exact here

theorem isLead_iff (b : UInt8) : isLead b = true ↔ 0xC0 ≤ b.toNat ∧ b.toNat < 0xFE := by
  have all : ∀ n < 256, isLead (UInt8.ofNat n) = true ↔ 0xC0 ≤ n ∧ n < 0xFE := by decide +kernel
  have here := all b.toNat b.toNat_lt
  rw [UInt8.ofNat_toNat] at here
  exact here

theorem not_trail (b : UInt8) : (((b.toNat &&& 0xC0) ^^^ 0x80) != 0) = !isTrail b := by
  have all : ∀ n < 256, (((n &&& 0xC0) ^^^ 0x80) != 0) = !isTrail (UInt8.ofNat n) := by decide +kernel
  have here := all b.toNat b.toNat_lt
  rw [UInt8.ofNat_toNat] at here
  exact here

theorem low_six (n : Nat) : n &&& 0x3F = n % 64 := Nat.and_two_pow_sub_one_eq_mod n 6

/-! The decoding body. -/

section Body
variable {s : Bytes} {pi length c v : Nat} {t : UInt8}

theorem readTrails_succ (count : Nat) (illegal : Bool) (here : s[pi]? = some t) :
    readTrails s (count + 1) pi c illegal =
      if count = 2 ∧ 0x110 ≤ c * 64 + t.toNat % 64 then some (pi + 1,c * 64 + t.toNat % 64,true)
      else readTrails s count (pi + 1) (c * 64 + t.toNat % 64) (illegal || !isTrail t) := by
  have low : t.toNat % 64 < 64 := Nat.mod_lt _ (by decide)
  simp only [readTrails,here,Option.bind_eq_bind,Option.bind_some,low_six,shift_or low,not_trail]
  rfl

theorem skipTrails_some (count : Nat) (inside : pi + count ≤ s.length) : ∃ i, skipTrails s count pi = some i := by
  induction count generalizing pi with
  | zero => exact ⟨pi,rfl⟩
  | succ count ih =>
    have here : s[pi]? = some s[pi] := List.getElem?_eq_getElem (by omega)
    simp only [skipTrails,here,Option.bind_eq_bind,Option.bind_some]
    split
    · exact ih (by omega)
    · exact ⟨pi,rfl⟩

/-- Where the sequence ends too early. -/
theorem body_short (short : length < pi + countTrailBytes c) (fits : pi + countTrailBytes c < 2^31) (inside : length ≤ s.length)
    (before : pi ≤ length) : ∃ i, utf8NextCharSafeBody s pi length c = some (i,sentinel) := by
  obtain ⟨i,skipped⟩ := @skipTrails_some s pi (length - pi) (by omega)
  refine ⟨i,?_⟩
  simp only [utf8NextCharSafeBody,if_neg (Nat.not_le.mpr fits),if_neg (Nat.not_le.mpr short),skipped]
  rfl

/-- Four trail bytes and more are always illegal. -/
theorem body_long (long : 4 ≤ countTrailBytes c) (room : pi + countTrailBytes c ≤ length) (small : length < 2^31)
    (inside : length ≤ s.length) : ∃ i, utf8NextCharSafeBody s pi length c = some (i,sentinel) := by
  obtain ⟨i,skipped⟩ := @skipTrails_some s pi (countTrailBytes c) (by omega)
  refine ⟨i,?_⟩
  have fits : ¬2^31 ≤ pi + countTrailBytes c := by omega
  have many : countTrailBytes c ≠ 0 := by omega
  simp only [utf8NextCharSafeBody,if_neg fits,if_pos room,if_neg many,if_pos long,Option.bind_eq_bind,Option.bind_some,
    Bool.true_or,if_true,skipped]
  rfl

/-- What the trail bytes come to decides. -/
theorem body_read {count i : Nat} {illegal : Bool} (trails : countTrailBytes c = count + 1) (few : count < 3)
    (room : pi + (count + 1) ≤ length) (small : length < 2^31)
    (read : readTrails s (count + 1) pi (c % 2^(6 - (count + 1))) false = some (i,v,illegal)) :
    utf8NextCharSafeBody s pi length c =
      if illegal || v < minLegal (count + 1) || isSurrogate v then (skipTrails s (count + 1) pi).map (·,sentinel)
      else some (i,v) := by
  have fits : ¬2^31 ≤ pi + (count + 1) := by omega
  have short : ¬4 ≤ count + 1 := by omega
  have mask : c &&& ((1 <<< (6 - (count + 1))) - 1) = c % 2^(6 - (count + 1)) := by
    rw [Nat.one_shiftLeft,Nat.and_two_pow_sub_one_eq_mod]
  simp only [utf8NextCharSafeBody,trails,if_neg fits,if_pos room,mask,Nat.succ_ne_zero,if_false,if_neg short,read,
    Option.bind_eq_bind,Option.bind_some]
  split
  · cases skipTrails s (count + 1) pi <;> rfl
  · rfl

/-- A lead byte, its trail bytes, and what they come to. -/
theorem body_one (trails : countTrailBytes c = 1) (room : pi + 1 ≤ length) (small : length < 2^31) (first : s[pi]? = some t) :
    utf8NextCharSafeBody s pi length c =
      if !isTrail t || c % 32 * 64 + t.toNat % 64 < 0x80 || isSurrogate (c % 32 * 64 + t.toNat % 64) then
        (skipTrails s 1 pi).map (·,sentinel)
      else some (pi + 1,c % 32 * 64 + t.toNat % 64) := by
  have read := readTrails_succ (c := c % 32) 0 false first
  rw [if_neg (by omega)] at read
  exact body_read trails (by decide) room small read

theorem body_two {t₁ t₂ : UInt8} (trails : countTrailBytes c = 2) (room : pi + 2 ≤ length) (small : length < 2^31)
    (first : s[pi]? = some t₁) (second : s[pi + 1]? = some t₂)
    (value : v = (c % 16 * 64 + t₁.toNat % 64) * 64 + t₂.toNat % 64) :
    utf8NextCharSafeBody s pi length c =
      if !isTrail t₁ || !isTrail t₂ || v < 0x800 || isSurrogate v then (skipTrails s 2 pi).map (·,sentinel)
      else some (pi + 2,v) := by
  have read := readTrails_succ (c := c % 16) 1 false first
  rw [if_neg (by omega),readTrails_succ 0 _ second,if_neg (by omega),← value] at read
  exact body_read trails (by decide) room small read

theorem body_three {t₁ t₂ t₃ : UInt8} (trails : countTrailBytes c = 3) (room : pi + 3 ≤ length) (small : length < 2^31)
    (first : s[pi]? = some t₁) (second : s[pi + 1]? = some t₂) (third : s[pi + 1 + 1]? = some t₃)
    (value : v = ((c % 8 * 64 + t₁.toNat % 64) * 64 + t₂.toNat % 64) * 64 + t₃.toNat % 64) :
    utf8NextCharSafeBody s pi length c =
      if 0x110 ≤ c % 8 * 64 + t₁.toNat % 64 || !isTrail t₁ || !isTrail t₂ || !isTrail t₃ || v < 0x10000 || isSurrogate v then
        (skipTrails s 3 pi).map (·,sentinel)
      else some (pi + 3,v) := by
  have read := readTrails_succ (c := c % 8) 2 false first
  by_cases large : 0x110 ≤ c % 8 * 64 + t₁.toNat % 64
  · rw [if_pos ⟨rfl,large⟩] at read
    rw [body_read trails (by decide) room small read,decide_eq_true large]
    rfl
  · rw [if_neg fun both => large both.2,readTrails_succ 1 _ second,if_neg (by omega),readTrails_succ 0 _ third,
      if_neg (by omega),← value] at read
    rw [body_read trails (by decide) room small read,decide_eq_false large]
    rfl

end Body

/-! Characters decoded. -/

theorem charToUInt32_eq {b : UInt8} (high : 0x80 ≤ b.toNat) : charToUInt32 b = b.toNat + (2^32 - 2^8) := by
  have large : ¬b < 0x80 := by
    rw [UInt8.lt_iff_toNat_lt]
    exact Nat.not_lt.mpr high
  rw [charToUInt32,if_neg large]

theorem countTrailBytes_eq {b : UInt8} (high : 0x80 ≤ b.toNat) : countTrailBytes (charToUInt32 b) =
    if b.toNat < 0xC0 then 0 else if b.toNat < 0xE0 then 1 else if b.toNat < 0xF0 then 2 else if b.toNat < 0xF8 then 3
    else if b.toNat < 0xFC then 4 else if b.toNat < 0xFE then 5 else 0 := by
  have bound := b.toNat_lt
  have same : charToUInt32 b % 256 = b.toNat := by
    rw [charToUInt32_eq high]
    omega
  rw [countTrailBytes,same]

/-- A part of what can be read, by its places. -/
theorem read_at {s before middle rest : Bytes} {length : Nat} (part : s.take length = before ++ middle ++ rest) {k : Nat}
    (inside : k < middle.length) : s[before.length + k]? = middle[k]? := by
  have long := congrArg List.length part
  simp only [List.length_take,List.length_append] at long
  have taken : (s.take length)[before.length + k]? = s[before.length + k]? := List.getElem?_take_of_lt (by omega)
  rw [← taken,part,List.append_assoc,List.getElem?_append_right (Nat.le_add_right _ _),Nat.add_sub_cancel_left,
    List.getElem?_append_left inside]

theorem part_le {s before middle rest : Bytes} {length : Nat} (part : s.take length = before ++ middle ++ rest) :
    before.length + middle.length ≤ length := by
  have long := congrArg List.length part
  simp only [List.length_take,List.length_append] at long
  omega

/-- What a decoding body is to do on the first bytes of a string: a character that is there
as a whole is decoded, and of anything else comes the sentinel. -/
structure StrictDecoder (body : DecodingBody) (s : Bytes) (length : Nat) : Prop where
  good : ∀ before c rest, s.take length = before ++ String.utf8EncodeChar c ++ rest → 0x80 ≤ c.toNat →
    body s (before.length + 1) length (charToUInt32 ((String.utf8EncodeChar c).headD 0)) =
      some (before.length + (String.utf8EncodeChar c).length,c.toNat)
  bad : ∀ before b rest, s.take length = before ++ b :: rest → isLead b = true →
    (∀ c, ¬String.utf8EncodeChar c <+: b :: rest) →
    ∃ i, body s (before.length + 1) length (charToUInt32 b) = some (i,sentinel)

theorem isTrail_trail (n : Nat) : isTrail (trail n) = true := by
  rw [isTrail_iff,trail_toNat]
  omega

theorem isSurrogate_char (c : Char) : isSurrogate c.toNat = false := by
  have range := char_range c
  rw [← Bool.not_eq_true,isSurrogate_iff (by omega)]
  omega

theorem body_good {s before rest : Bytes} {length : Nat} (small : length < 2^31) {c : Char}
    (part : s.take length = before ++ String.utf8EncodeChar c ++ rest) (high : 0x80 ≤ c.toNat) :
    utf8NextCharSafeBody s (before.length + 1) length (charToUInt32 ((String.utf8EncodeChar c).headD 0)) =
      some (before.length + (String.utf8EncodeChar c).length,c.toNat) := by
  have range := char_range c
  have whole := isSurrogate_char c
  have bytes := shape c
  generalize String.utf8EncodeChar c = encoded at part bytes
  have room := part_le part
  cases bytes with
  | one low => exact absurd high (by omega)
  | two _ low =>
    have lead : (UInt8.ofNat (0xC0 + c.toNat / 64)).toNat = 0xC0 + c.toNat / 64 := byte_toNat (by omega)
    have large : 0x80 ≤ (UInt8.ofNat (0xC0 + c.toNat / 64)).toNat := by omega
    have trails := countTrailBytes_eq large
    rw [lead,if_neg (by omega),if_pos (by omega)] at trails
    have value : charToUInt32 (UInt8.ofNat (0xC0 + c.toNat / 64)) % 32 * 64 + (trail c.toNat).toNat % 64 = c.toNat := by
      rw [charToUInt32_eq large,lead,trail_toNat]
      omega
    have decoded := body_one trails room small (read_at part (k := 1) (by simp))
    rw [value,isTrail_trail,whole,decide_eq_false (by omega)] at decoded
    exact decoded
  | three above low =>
    have lead : (UInt8.ofNat (0xE0 + c.toNat / 4096)).toNat = 0xE0 + c.toNat / 4096 := byte_toNat (by omega)
    have large : 0x80 ≤ (UInt8.ofNat (0xE0 + c.toNat / 4096)).toNat := by omega
    have trails := countTrailBytes_eq large
    rw [lead,if_neg (by omega),if_neg (by omega),if_pos (by omega)] at trails
    have value : c.toNat = (charToUInt32 (UInt8.ofNat (0xE0 + c.toNat / 4096)) % 16 * 64 +
        (trail (c.toNat / 64)).toNat % 64) * 64 + (trail c.toNat).toNat % 64 := by
      rw [charToUInt32_eq large,lead,trail_toNat,trail_toNat]
      omega
    have decoded := body_two trails room small (read_at part (k := 1) (by simp)) (read_at part (k := 2) (by simp)) value
    rw [isTrail_trail,isTrail_trail,whole,decide_eq_false (by omega)] at decoded
    exact decoded
  | four above low =>
    have lead : (UInt8.ofNat (0xF0 + c.toNat / 262144)).toNat = 0xF0 + c.toNat / 262144 := byte_toNat (by omega)
    have large : 0x80 ≤ (UInt8.ofNat (0xF0 + c.toNat / 262144)).toNat := by omega
    have trails := countTrailBytes_eq large
    rw [lead,if_neg (by omega),if_neg (by omega),if_neg (by omega),if_pos (by omega)] at trails
    have high_bits : charToUInt32 (UInt8.ofNat (0xF0 + c.toNat / 262144)) % 8 = c.toNat / 262144 := by
      rw [charToUInt32_eq large,lead]
      omega
    have value : c.toNat = ((charToUInt32 (UInt8.ofNat (0xF0 + c.toNat / 262144)) % 8 * 64 +
        (trail (c.toNat / 4096)).toNat % 64) * 64 + (trail (c.toNat / 64)).toNat % 64) * 64 + (trail c.toNat).toNat % 64 := by
      rw [high_bits,trail_toNat,trail_toNat,trail_toNat]
      omega
    have decoded := body_three trails room small (read_at part (k := 1) (by simp)) (read_at part (k := 2) (by simp))
      (read_at part (k := 3) (by simp)) value
    rw [high_bits,isTrail_trail,isTrail_trail,isTrail_trail,whole,trail_toNat,decide_eq_false (by omega),
      decide_eq_false (by omega)] at decoded
    exact decoded

section Bad
variable {s before rest : Bytes} {length : Nat} {b t₁ t₂ t₃ : UInt8}

/-- The sentinel, unless the bytes are those of a character after all. -/
theorem sentinel_or {count pi : Nat} {illegal : Bool} {decoded : Nat × Nat} (inside : pi + count ≤ s.length)
    (legal : illegal ≠ false) :
    ∃ i, (if illegal = true then (skipTrails s count pi).map (·,sentinel) else some decoded) = some (i,sentinel) := by
  obtain ⟨i,skipped⟩ := skipTrails_some count inside
  exact ⟨i,by rw [if_pos (Bool.of_not_eq_false legal),skipped]; rfl⟩

variable (inside : length ≤ s.length) (small : length < 2^31)
include inside small

theorem body_bad_two (part : s.take length = before ++ [b,t₁] ++ rest) (lead : 0xC0 ≤ b.toNat ∧ b.toNat < 0xE0)
    (broken : ∀ c, String.utf8EncodeChar c ≠ [b,t₁]) :
    ∃ i, utf8NextCharSafeBody s (before.length + 1) length (charToUInt32 b) = some (i,sentinel) := by
  have large : 0x80 ≤ b.toNat := by omega
  have trails := countTrailBytes_eq large
  rw [if_neg (by omega),if_pos lead.2] at trails
  have room : before.length + 1 + 1 ≤ length := part_le part
  have decoded := body_one trails room small (read_at part (k := 1) (by simp))
  rw [decoded]
  refine sentinel_or (by omega) ?_
  intro legal
  simp only [Bool.or_eq_false_iff,Bool.not_eq_false',decide_eq_false_iff_not,isTrail_iff] at legal
  obtain ⟨c,bytes⟩ := encoded_two lead legal.1.1 rfl (by have value := charToUInt32_eq large; omega)
  exact broken c bytes

theorem body_bad_three (part : s.take length = before ++ [b,t₁,t₂] ++ rest) (lead : 0xE0 ≤ b.toNat ∧ b.toNat < 0xF0)
    (broken : ∀ c, String.utf8EncodeChar c ≠ [b,t₁,t₂]) :
    ∃ i, utf8NextCharSafeBody s (before.length + 1) length (charToUInt32 b) = some (i,sentinel) := by
  have large : 0x80 ≤ b.toNat := by omega
  have trails := countTrailBytes_eq large
  rw [if_neg (by omega),if_neg (by omega),if_pos lead.2] at trails
  have room : before.length + 1 + 2 ≤ length := part_le part
  have low : charToUInt32 b % 16 = b.toNat % 16 := by
    rw [charToUInt32_eq large]
    omega
  have decoded := body_two trails room small (read_at part (k := 1) (by simp)) (read_at part (k := 2) (by simp)) rfl
  rw [low] at decoded
  rw [decoded]
  refine sentinel_or (by omega) ?_
  intro legal
  simp only [Bool.or_eq_false_iff,Bool.not_eq_false',decide_eq_false_iff_not,isTrail_iff] at legal
  obtain ⟨⟨⟨first,second⟩,longer⟩,whole⟩ := legal
  rw [← Bool.not_eq_true,isSurrogate_iff (by omega)] at whole
  obtain ⟨c,bytes⟩ := encoded_three lead first second rfl (Nat.not_lt.mp longer) whole
  exact broken c bytes

theorem body_bad_four (part : s.take length = before ++ [b,t₁,t₂,t₃] ++ rest) (lead : 0xF0 ≤ b.toNat ∧ b.toNat < 0xF8)
    (broken : ∀ c, String.utf8EncodeChar c ≠ [b,t₁,t₂,t₃]) :
    ∃ i, utf8NextCharSafeBody s (before.length + 1) length (charToUInt32 b) = some (i,sentinel) := by
  have large : 0x80 ≤ b.toNat := by omega
  have trails := countTrailBytes_eq large
  rw [if_neg (by omega),if_neg (by omega),if_neg (by omega),if_pos lead.2] at trails
  have room : before.length + 1 + 3 ≤ length := part_le part
  have low : charToUInt32 b % 8 = b.toNat % 8 := by
    rw [charToUInt32_eq large]
    omega
  have decoded := body_three trails room small (read_at part (k := 1) (by simp)) (read_at part (k := 2) (by simp))
    (read_at part (k := 3) (by simp)) rfl
  rw [low] at decoded
  rw [decoded]
  refine sentinel_or (by omega) ?_
  intro legal
  simp only [Bool.or_eq_false_iff,Bool.not_eq_false',decide_eq_false_iff_not,isTrail_iff] at legal
  obtain ⟨⟨⟨⟨⟨top,first⟩,second⟩,third⟩,longer⟩,-⟩ := legal
  obtain ⟨c,bytes⟩ := encoded_four lead first second third rfl (Nat.not_lt.mp longer) (by omega)
  exact broken c bytes

end Bad

/-- Where no character is there, the trail bytes or what they come to are illegal. -/
theorem body_bad {s before rest : Bytes} {length : Nat} {b : UInt8} (inside : length ≤ s.length) (small : length + 5 < 2^31)
    (part : s.take length = before ++ b :: rest) (lead : isLead b = true)
    (broken : ∀ c, ¬String.utf8EncodeChar c <+: b :: rest) :
    ∃ i, utf8NextCharSafeBody s (before.length + 1) length (charToUInt32 b) = some (i,sentinel) := by
  obtain ⟨lower,upper⟩ := (isLead_iff b).mp lead
  have trails := countTrailBytes_eq (b := b) (by omega)
  have width := congrArg List.length part
  rw [List.length_take,Nat.min_eq_left inside,List.length_append,List.length_cons] at width
  have few : countTrailBytes (charToUInt32 b) ≤ 5 := by
    rw [trails]
    repeat' split
    all_goals omega
  by_cases room : before.length + 1 + countTrailBytes (charToUInt32 b) ≤ length
  · have needed := room
    rw [trails,if_neg (by omega)] at needed
    by_cases two : b.toNat < 0xE0
    · rw [if_pos two] at needed
      obtain ⟨t₁,rest,rfl⟩ := List.exists_cons_of_ne_nil (List.ne_nil_of_length_pos (by omega : 0 < rest.length))
      have part : s.take length = before ++ [b,t₁] ++ rest := part.trans (List.append_assoc before [b,t₁] rest).symm
      exact body_bad_two inside (by omega) part ⟨lower,two⟩ fun c bytes => broken c ⟨rest,by rw [bytes]; rfl⟩
    · rw [if_neg two] at needed
      by_cases three : b.toNat < 0xF0
      · rw [if_pos three] at needed
        obtain ⟨t₁,rest,rfl⟩ := List.exists_cons_of_ne_nil (List.ne_nil_of_length_pos (by omega : 0 < rest.length))
        rw [List.length_cons] at width
        obtain ⟨t₂,rest,rfl⟩ := List.exists_cons_of_ne_nil (List.ne_nil_of_length_pos (by omega : 0 < rest.length))
        have part : s.take length = before ++ [b,t₁,t₂] ++ rest := part.trans (List.append_assoc before [b,t₁,t₂] rest).symm
        exact body_bad_three inside (by omega) part ⟨Nat.not_lt.mp two,three⟩ fun c bytes =>
          broken c ⟨rest,by rw [bytes]; rfl⟩
      · by_cases four : b.toNat < 0xF8
        · rw [if_neg three,if_pos four] at needed
          obtain ⟨t₁,rest,rfl⟩ := List.exists_cons_of_ne_nil (List.ne_nil_of_length_pos (by omega : 0 < rest.length))
          rw [List.length_cons] at width
          obtain ⟨t₂,rest,rfl⟩ := List.exists_cons_of_ne_nil (List.ne_nil_of_length_pos (by omega : 0 < rest.length))
          rw [List.length_cons] at width
          obtain ⟨t₃,rest,rfl⟩ := List.exists_cons_of_ne_nil (List.ne_nil_of_length_pos (by omega : 0 < rest.length))
          have part : s.take length = before ++ [b,t₁,t₂,t₃] ++ rest :=
            part.trans (List.append_assoc before [b,t₁,t₂,t₃] rest).symm
          exact body_bad_four inside (by omega) part ⟨Nat.not_lt.mp three,four⟩ fun c bytes =>
            broken c ⟨rest,by rw [bytes]; rfl⟩
        · have long : 4 ≤ countTrailBytes (charToUInt32 b) := by
            rw [trails,if_neg (by omega),if_neg two,if_neg three,if_neg four]
            split <;> omega
          exact body_long long room (by omega) inside
  · exact body_short (Nat.not_le.mp room) (by omega) inside (by omega)

/-- The length leaves room for the index and the longest sequence. -/
theorem strictDecoder_body {s : Bytes} {length : Nat} (inside : length ≤ s.length) (small : length + 5 < 2^31) :
    StrictDecoder utf8NextCharSafeBody s length where
  good _ _ _ part high := body_good (by omega) part high
  bad _ _ _ part lead broken := body_bad inside small part lead broken

end WebSearch.Icu
