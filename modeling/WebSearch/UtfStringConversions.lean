import WebSearch.IcuUtf

/-! `base/utf_string_conversions.cc`, where `wchar_t` has 32 bits. The result of a reader is
the index of the last unit that it read, and the code point where that is valid. -/
namespace WebSearch.UtfStringConversions
open Icu Library.Unicode

def isValidCodepoint (codePoint : Nat) : Bool :=
  codePoint < 0xD800 || (0xE000 ≤ codePoint && codePoint ≤ 0x10FFFF)

/-- Non-characters are none: U+FDD0 to U+FDEF and all that end in 0xFFFE or 0xFFFF. -/
def isValidCharacter (codePoint : Nat) : Bool :=
  codePoint < 0xD800 || (0xE000 ≤ codePoint && codePoint < 0xFDD0) ||
    (0xFDEF < codePoint && codePoint ≤ 0x10FFFF && codePoint &&& 0xFFFE ≠ 0xFFFE)

def valid (codePoint : Nat) : Option Nat := if isValidCodepoint codePoint then some codePoint else none

/-- `ReadUnicodeCharacter` of a `char`. -/
def readUnicodeChar (body : DecodingBody) (src : Bytes) (srcLen charIndex : Nat) : Option (Nat × Option Nat) := do
  let (next,codePoint) ← u8Next body src charIndex srcLen
  return (next - 1,valid codePoint)

/-- `ReadUnicodeCharacter` of a `char16`. -/
def readUnicodeChar16 (src : List UInt16) (srcLen charIndex : Nat) : Option (Nat × Option Nat) := do
  let unit := (← src[charIndex]?).toNat
  if !isSurrogate unit then return (charIndex,valid unit)
  if !isSurrogateLead unit || srcLen ≤ charIndex + 1 then return (charIndex,none)
  let trail := (← src[charIndex + 1]?).toNat
  if !isTrail16 trail then return (charIndex,none)
  return (charIndex + 1,valid (getSupplementary unit trail))

/-- `WriteUnicodeCharacter` to a `std::string`. -/
def writeUnicodeChar (codePoint : Nat) : Bytes := if codePoint ≤ 0x7F then [UInt8.ofNat codePoint] else u8Append codePoint

/-- `WriteUnicodeCharacter` to a `string16`. -/
def writeUnicodeChar16 (codePoint : Nat) : List UInt16 :=
  if codePoint ≤ 0xFFFF then [UInt16.ofNat codePoint] else u16Append codePoint

section Convert
variable {β : Type}

/-- The loop: how often it may run at most, its index, and the two results so far. -/
def convertLoop (read : Nat → Option (Nat × Option Nat)) (write : Nat → List β) (srcLen32 : Nat) :
    Nat → Nat → Bool → List β → Option (Bool × List β)
  | 0, i, success, output => if i < srcLen32 then none else some (success,output)
  | fuel + 1, i, success, output =>
    if i < srcLen32 then do
      match ← read i with
      | (last,some codePoint) => convertLoop read write srcLen32 fuel (last + 1) success (output ++ write codePoint)
      | (last,none) => convertLoop read write srcLen32 fuel (last + 1) false (output ++ write 0xFFFD)
    else some (success,output)

/-- A negative length is one that the loop does not run for. -/
def convertUnicode {α : Type} (read : List α → Nat → Nat → Option (Nat × Option Nat)) (write : Nat → List β) (src : List α) :
    Option (Bool × List β) :=
  let srcLen32 := (toInt32 src.length).toNat
  convertLoop (read src srcLen32) write srcLen32 src.length 0 true []

end Convert

def utf16ToUtf8 (src : List UInt16) : Option (Bool × Bytes) := convertUnicode readUnicodeChar16 writeUnicodeChar src

def utf8ToUtf16 (src : Bytes) : Option (Bool × List UInt16) :=
  convertUnicode (readUnicodeChar utf8NextCharSafeBody) writeUnicodeChar16 src

/-! A character written. -/

/-- The bits of two numbers that have none in common. -/
theorem or_high (m k : Nat) {b : Nat} (small : b < 2^k) : b ||| m * 2^k = m * 2^k + b := by
  rw [Nat.or_comm,← Nat.shiftLeft_eq,Nat.shiftLeft_add_eq_or_of_lt small]

theorem shift_six (n : Nat) : n >>> 6 = n / 64 := Nat.shiftRight_eq_div_pow n 6
theorem shift_ten (n : Nat) : n >>> 10 = n / 1024 := Nat.shiftRight_eq_div_pow n 10
theorem shift_twelve (n : Nat) : n >>> 12 = n / 4096 := Nat.shiftRight_eq_div_pow n 12
theorem shift_eighteen (n : Nat) : n >>> 18 = n / 262144 := Nat.shiftRight_eq_div_pow n 18

theorem or_trail (n : Nat) : UInt8.ofNat ((n &&& 0x3F) ||| 0x80) = trail n := by
  have low : n % 64 < 2^7 := by omega
  have high : n % 64 ||| 0x80 = 0x80 + n % 64 := or_high 1 7 low
  rw [low_six,high,trail]

theorem writeUnicodeChar_char (c : Char) : writeUnicodeChar c.toNat = String.utf8EncodeChar c := by
  have bytes := shape c
  generalize String.utf8EncodeChar c = encoded at bytes
  cases bytes with
  | one small => rw [writeUnicodeChar,if_pos (by omega)]
  | two large small =>
    have lead : c.toNat / 64 ||| 0xC0 = 0xC0 + c.toNat / 64 := or_high 3 6 (by omega)
    rw [writeUnicodeChar,if_neg (by omega),u8Append,if_neg (by omega),if_pos (by omega),shift_six,lead,or_trail]
  | three large small =>
    have lead : c.toNat / 4096 ||| 0xE0 = 0xE0 + c.toNat / 4096 := or_high 7 5 (by omega)
    rw [writeUnicodeChar,if_neg (by omega),u8Append,if_neg (by omega),if_neg (by omega),if_pos (by omega),shift_six,
      shift_twelve,lead,or_trail,or_trail]
  | four large small =>
    have lead : c.toNat / 262144 ||| 0xF0 = 0xF0 + c.toNat / 262144 := or_high 15 4 (by omega)
    rw [writeUnicodeChar,if_neg (by omega),u8Append,if_neg (by omega),if_neg (by omega),if_neg (by omega),shift_six,
      shift_twelve,shift_eighteen,lead,or_trail,or_trail,or_trail]

theorem writeUnicodeChar16_char (c : Char) : writeUnicodeChar16 c.toNat = utf16EncodeChar c := by
  have range := char_range c
  rw [writeUnicodeChar16,utf16EncodeChar]
  by_cases plane : c.toNat < 0x10000
  · rw [if_pos (by omega),if_pos plane]
  · have mask : c.toNat &&& 0x3FF = c.toNat % 1024 := Nat.and_two_pow_sub_one_eq_mod c.toNat 10
    have low : c.toNat % 1024 ||| 0xDC00 = 0xDC00 + c.toNat % 1024 := or_high 55 10 (Nat.mod_lt _ (by decide))
    have first : c.toNat / 1024 + 0xD7C0 = 0xD800 + (c.toNat - 0x10000) / 0x400 := by omega
    have second : 0xDC00 + c.toNat % 1024 = 0xDC00 + (c.toNat - 0x10000) % 0x400 := by omega
    rw [if_neg (by omega),if_neg plane,u16Append,if_neg (by omega),shift_ten,mask,low,first,second]

/-! A character read. -/

theorem isValidCodepoint_char (c : Char) : isValidCodepoint c.toNat = true := by
  have range := char_range c
  simp only [isValidCodepoint,Bool.or_eq_true,Bool.and_eq_true,decide_eq_true_eq]
  omega

theorem valid_char (c : Char) : valid c.toNat = some c.toNat := if_pos (isValidCodepoint_char c)

/-- The bytes of a character are read as a whole. -/
theorem u8Next_char {body : DecodingBody} {s before rest : Bytes} {length : Nat} {c : Char}
    (part : s.take length = before ++ String.utf8EncodeChar c ++ rest)
    (good : 0x80 ≤ c.toNat → body s (before.length + 1) length (charToUInt32 ((String.utf8EncodeChar c).headD 0)) =
      some (before.length + (String.utf8EncodeChar c).length,c.toNat)) :
    u8Next body s before.length length = some (before.length + (String.utf8EncodeChar c).length,c.toNat) := by
  have bytes := shape c
  have range := char_range c
  generalize String.utf8EncodeChar c = encoded at part bytes good
  -- the first byte decides whether the body is called
  have first {b : UInt8} {trails : Bytes} (same : encoded = b :: trails) (high : 0xC0 ≤ b.toNat ∧ b.toNat < 0xFE)
      (large : 0x80 ≤ c.toNat) : u8Next body s before.length length = some (before.length + encoded.length,c.toNat) := by
    subst same
    have here : s[before.length]? = some b := read_at (k := 0) part (by simp)
    have wide : ¬b < 0x80 := by
      rw [UInt8.lt_iff_toNat_lt]
      exact Nat.not_lt.mpr (Nat.le_trans (by decide) high.1)
    simp only [u8Next,here,Option.bind_eq_bind,Option.bind_some,if_neg wide,if_pos ((isLead_iff b).mpr high)]
    exact good large
  cases bytes with
  | one small =>
    have same : (UInt8.ofNat c.toNat).toNat = c.toNat := byte_toNat (by omega)
    have here : s[before.length]? = some (UInt8.ofNat c.toNat) := read_at (k := 0) part (by simp)
    have low : UInt8.ofNat c.toNat < 0x80 := UInt8.lt_iff_toNat_lt.mpr (same.symm ▸ small)
    simp only [u8Next,here,Option.bind_eq_bind,Option.bind_some,if_pos low,charToUInt32,same]
    rfl
  | two large small =>
    have lead : (UInt8.ofNat (0xC0 + c.toNat / 64)).toNat = 0xC0 + c.toNat / 64 := byte_toNat (by omega)
    exact first rfl (by omega) large
  | three large small =>
    have lead : (UInt8.ofNat (0xE0 + c.toNat / 4096)).toNat = 0xE0 + c.toNat / 4096 := byte_toNat (by omega)
    exact first rfl (by omega) (by omega)
  | four large small =>
    have lead : (UInt8.ofNat (0xF0 + c.toNat / 262144)).toNat = 0xF0 + c.toNat / 262144 := byte_toNat (by omega)
    exact first rfl (by omega) (by omega)

section Char16
variable {src : List UInt16} {before : Option UInt16} {i : Nat} {u v : UInt16}

theorem isSurrogate_unit (u : UInt16) : isSurrogate u.toNat = true ↔ IsLead u ∨ IsTrail u := by
  have bound := u.toNat_lt
  rw [isSurrogate_iff (by omega),IsLead,IsTrail]
  omega

theorem isTrail16_unit (u : UInt16) : isTrail16 u.toNat = true ↔ IsTrail u := by
  have bound := u.toNat_lt
  exact isTrail16_iff (by omega)

theorem readUnicodeChar16_plain {c : Char} (same : c.toNat = u.toNat) (here : src[i]? = some u) (srcLen : Nat) :
    readUnicodeChar16 src srcLen i = some (i,some c.toNat) := by
  have plain := not_surrogate same
  have whole : isSurrogate u.toNat = false := by
    rw [← Bool.not_eq_true,isSurrogate_unit]
    exact not_or.mpr plain
  simp only [readUnicodeChar16,here,Option.bind_eq_bind,Option.bind_some,whole,Bool.not_false,if_true]
  rw [← same,valid_char]
  rfl

theorem readUnicodeChar16_pair {c : Char} (lead : IsLead u) (trail : IsTrail v)
    (value : c.toNat = 0x10000 + (u.toNat - 0xD800) * 0x400 + (v.toNat - 0xDC00)) (here : src[i]? = some u)
    (second : src[i + 1]? = some v) : readUnicodeChar16 src src.length i = some (i + 1,some c.toNat) := by
  have bound := u.toNat_lt
  have inside : ¬src.length ≤ i + 1 := fun outside => by simp [List.getElem?_eq_none outside] at second
  have surrogate := (isSurrogate_unit u).mpr (.inl lead)
  have leads : isSurrogateLead u.toNat = true := (isSurrogateLead_iff ((isSurrogate_iff (by omega)).mp surrogate)).mpr lead.2
  have trails := (isTrail16_unit v).mpr trail
  have supplementary : getSupplementary u.toNat v.toNat = c.toNat := by
    have bounds := And.intro lead trail
    unfold IsLead IsTrail at bounds
    have offset : surrogateOffset = 56613888 := by decide
    rw [getSupplementary,offset,Nat.shiftLeft_eq,value]
    omega
  simp only [readUnicodeChar16,here,second,Option.bind_eq_bind,Option.bind_some,surrogate,leads,trails,inside,Bool.not_true,
    Bool.false_eq_true,if_false,decide_false,Bool.or_self,supplementary,valid_char]
  rfl

/-- The index stays where a surrogate is not part of a pair. -/
theorem readUnicodeChar16_broken (surrogate : IsLead u ∨ IsTrail u) (alone : ¬Paired before u src[i + 1]?)
    (here : src[i]? = some u) : readUnicodeChar16 src src.length i = some (i,none) := by
  have bound := u.toNat_lt
  have whole := (isSurrogate_unit u).mpr surrogate
  have leads := isSurrogateLead_iff ((isSurrogate_iff (by omega)).mp whole)
  simp only [readUnicodeChar16,here,Option.bind_eq_bind,Option.bind_some,whole,Bool.not_true,Bool.false_eq_true,if_false]
  rcases surrogate with lead | trail
  · rw [leads.mpr lead.2]
    cases second : src[i + 1]? with
    | none =>
      have outside : src.length ≤ i + 1 := List.getElem?_eq_none_iff.mp second
      simp only [outside,decide_true,Bool.or_true,if_true]
      rfl
    | some v =>
      have plain : isTrail16 v.toNat = false := by
        rw [← Bool.not_eq_true,isTrail16_unit]
        intro trail
        rw [second] at alone
        exact alone (paired_lead lead trail)
      simp only [Option.bind_some,plain,Bool.not_false,if_true]
      split <;> rfl
  · have not_lead : isSurrogateLead u.toNat = false := by
      rw [← Bool.not_eq_true,leads]
      exact Nat.not_lt.mpr trail.1
    rw [not_lead]
    rfl

end Char16

/-! The loop over a whole string. -/

section Loop
variable {β : Type} {read : Nat → Option (Nat × Option Nat)} {write : Nat → List β} {srcLen32 fuel i last codePoint : Nat}
  {success : Bool} {output : List β}

theorem convertLoop_end (outside : srcLen32 ≤ i) : convertLoop read write srcLen32 fuel i success output = some (success,output) := by
  cases fuel <;> exact if_neg (Nat.not_lt.mpr outside)

theorem convertLoop_some (inside : i < srcLen32) (here : read i = some (last,some codePoint)) :
    convertLoop read write srcLen32 (fuel + 1) i success output =
      convertLoop read write srcLen32 fuel (last + 1) success (output ++ write codePoint) := by
  simp only [convertLoop,if_pos inside,here,Option.bind_eq_bind,Option.bind_some]

theorem convertLoop_none (inside : i < srcLen32) (here : read i = some (last,none)) :
    convertLoop read write srcLen32 (fuel + 1) i success output =
      convertLoop read write srcLen32 fuel (last + 1) false (output ++ write 0xFFFD) := by
  simp only [convertLoop,if_pos inside,here,Option.bind_eq_bind,Option.bind_some]

end Loop

/-- A list from a place on. -/
theorem drop_cons {α : Type} {src rest : List α} {i : Nat} {x : α} (part : src.drop i = x :: rest) :
    src[i]? = some x ∧ i < src.length ∧ src.drop (i + 1) = rest := by
  have here : src[i]? = some x := by
    rw [← List.head?_drop,part]
    rfl
  refine ⟨here,?_,?_⟩
  · exact Nat.lt_of_not_le fun outside => by simp [List.getElem?_eq_none outside] at here
  · rw [← List.tail_drop,part]
    rfl

/-- From where the units in front have been read, the loop writes the characters of the rest. -/
theorem convertLoop_reads {src : List UInt16} {before : Option UInt16} {units : List UInt16} {chars : List Char}
    (reads : Reads before units chars) {i fuel : Nat} (part : src.drop i = units) (enough : units.length ≤ fuel)
    (success : Bool) (output : Bytes) :
    convertLoop (readUnicodeChar16 src src.length) writeUnicodeChar src.length fuel i success output =
      some (success && decide (WellPaired before units),output ++ utf8 chars) := by
  induction reads generalizing i fuel success output with
  | nil before =>
    rw [convertLoop_end (List.drop_eq_nil_iff.mp part),utf8_nil,List.append_nil]
    exact congrArg (fun flag => some (flag,output)) (Bool.and_true success).symm
  | @plain before u c units chars same _ ih =>
    obtain ⟨here,inside,part⟩ := drop_cons part
    cases fuel with
    | zero => exact absurd enough (Nat.not_succ_le_zero _)
    | succ fuel =>
      have paired : WellPaired before (u :: units) ↔ WellPaired (some u) units := and_iff_right (paired_plain (not_surrogate same) _)
      rw [convertLoop_some inside (readUnicodeChar16_plain same here src.length),ih part (Nat.le_of_succ_le_succ enough),
        writeUnicodeChar_char,List.append_assoc,utf8_cons,decide_eq_decide.mpr paired]
  | @pair before u v c units chars lead trail value _ ih =>
    obtain ⟨here,inside,part⟩ := drop_cons part
    obtain ⟨second,-,part⟩ := drop_cons part
    cases fuel with
    | zero => exact absurd enough (Nat.not_succ_le_zero _)
    | succ fuel =>
      have paired : WellPaired before (u :: v :: units) ↔ WellPaired (some v) units :=
        (and_iff_right (paired_lead lead trail)).trans (and_iff_right (paired_trail lead trail _))
      have shorter : units.length ≤ fuel := Nat.le_of_succ_le (Nat.le_of_succ_le_succ enough)
      rw [convertLoop_some inside (readUnicodeChar16_pair lead trail value here second),ih part shorter,
        writeUnicodeChar_char,List.append_assoc,utf8_cons,decide_eq_decide.mpr paired]
  | @broken before u c units chars surrogate alone replacement _ ih =>
    obtain ⟨here,inside,part⟩ := drop_cons part
    cases fuel with
    | zero => exact absurd enough (Nat.not_succ_le_zero _)
    | succ fuel =>
      have next : src[i + 1]? = units.head? := by rw [← part,List.head?_drop]
      have read := readUnicodeChar16_broken surrogate (next.symm ▸ alone) here
      have unpaired : ¬WellPaired before (u :: units) := fun both => alone both.1
      rw [convertLoop_none inside read,ih part (Nat.le_of_succ_le_succ enough),← replacement,writeUnicodeChar_char,
        List.append_assoc,utf8_cons,decide_eq_false unpaired,Bool.false_and,Bool.and_false]

/-- From where the characters in front have been read, the loop writes the units of the rest. -/
theorem convertLoop_chars {src : Bytes} (small : src.length < 2^31) (chars : List Char)
    (front : Bytes) (whole : src = front ++ utf8 chars) {fuel : Nat} (enough : (utf8 chars).length ≤ fuel)
    (success : Bool) (output : List UInt16) :
    convertLoop (readUnicodeChar utf8NextCharSafeBody src src.length) writeUnicodeChar16 src.length fuel front.length success
      output = some (success,output ++ utf16 chars) := by
  induction chars generalizing front fuel output with
  | nil =>
    rw [convertLoop_end (by rw [whole,utf8_nil,List.append_nil]),utf16_nil,List.append_nil]
  | cons c chars ih =>
    have positive : 0 < (String.utf8EncodeChar c).length := List.length_pos_iff.mpr (utf8EncodeChar_ne_nil c)
    have part : src = front ++ String.utf8EncodeChar c ++ utf8 chars := by
      rw [whole,utf8_cons,List.append_assoc]
    have width := congrArg List.length part
    rw [List.length_append,List.length_append] at width
    rw [utf8_cons,List.length_append] at enough
    cases fuel with
    | zero => omega
    | succ fuel =>
      have all : src.take src.length = front ++ String.utf8EncodeChar c ++ utf8 chars := (List.take_length ..).trans part
      have next := u8Next_char all (body_good small all)
      have read : readUnicodeChar utf8NextCharSafeBody src src.length front.length =
          some (front.length + (String.utf8EncodeChar c).length - 1,some c.toNat) := by
        simp only [readUnicodeChar,next,Option.bind_eq_bind,Option.bind_some,valid_char]
        rfl
      have rest := ih (front ++ String.utf8EncodeChar c) part (by omega : (utf8 chars).length ≤ fuel) (output ++ utf16EncodeChar c)
      rw [List.length_append] at rest
      rw [convertLoop_some (by omega) read,writeUnicodeChar16_char,Nat.sub_add_cancel (by omega),rest,utf16_cons,
        List.append_assoc]

/-! There and back. -/

theorem utf16ToUtf8_eq {s : List UInt16} (short : s.length < 2^31) {chars : List Char} (reads : Reads none s chars) :
    utf16ToUtf8 s = some (decide (WellPaired none s),utf8 chars) := by
  rw [utf16ToUtf8,convertUnicode,toInt32_small short,Int.toNat_natCast,convertLoop_reads reads List.drop_zero (Nat.le_refl _)]
  rfl

theorem utf8ToUtf16_eq {chars : List Char} (small : (utf8 chars).length < 2^31) :
    utf8ToUtf16 (utf8 chars) = some (true,utf16 chars) := by
  rw [utf8ToUtf16,convertUnicode,toInt32_small small,Int.toNat_natCast]
  exact convertLoop_chars small chars [] rfl (Nat.le_refl _) true []

/-- The length is cast to a negative number, and nothing is converted. -/
theorem utf8ToUtf16_long {s : Bytes} (long : 2^31 ≤ s.length) (small : s.length < 2^32) : utf8ToUtf16 s = some (true,[]) := by
  have negative : (toInt32 s.length).toNat = 0 := by
    have low : s.length % 2^32 = s.length := Nat.mod_eq_of_lt small
    rw [toInt32,low,if_neg (Nat.not_lt.mpr long)]
    omega
  rw [utf8ToUtf16,convertUnicode,negative]
  exact convertLoop_end (Nat.le_refl 0)

/-- The string is converted to the UTF-8 of its characters, with what is not one replaced,
whether it was well formed is said, and the way back leads to the same characters. -/
def Converted (s : List UInt16) : Prop :=
  ∃ chars success, utf16 chars = repaired none s ∧ utf16ToUtf8 s = some (success,utf8 chars) ∧
    (success = true ↔ WellPaired none s) ∧ utf8ToUtf16 (utf8 chars) = some (true,repaired none s)

theorem utf8Size_le (before : Option UInt16) (units : List UInt16) : utf8Size before units ≤ 3 * units.length := by
  induction units generalizing before with
  | nil => exact Nat.le_refl 0
  | cons u units ih =>
    have rest := ih (some u)
    rw [utf8Size,List.length_cons]
    repeat' split
    all_goals omega

theorem size_of_converted {s : List UInt16} (short : s.length < 2^30) (converted : Converted s) : utf8Size none s < 2^31 := by
  obtain ⟨chars,success,-,there,-,back⟩ := converted
  obtain ⟨others,reads⟩ := @exists_reads none s (by simp)
  rw [utf16ToUtf8_eq (by omega) reads] at there
  have same : utf8 others = utf8 chars := (Prod.mk.inj (Option.some.inj there)).2
  have size : (utf8 chars).length = utf8Size none s := by rw [← same,reads.size]
  refine Nat.lt_of_not_le fun long => ?_
  have bound := utf8Size_le none s
  rw [utf8ToUtf16_long (by omega) (by omega)] at back
  have nothing : repaired none s = [] := (Prod.mk.inj (Option.some.inj back)).2.symm
  cases s with
  | nil => exact absurd long (by decide)
  | cons u units => exact absurd nothing (List.cons_ne_nil _ _)

theorem converted_iff (s : List UInt16) (short : s.length < 2^30) : Converted s ↔ utf8Size none s < 2^31 := by
  constructor
  · exact size_of_converted short
  · intro small
    obtain ⟨chars,reads⟩ := @exists_reads none s (by simp)
    have back := @utf8ToUtf16_eq chars (reads.size.symm ▸ small)
    rw [reads.repaired] at back
    exact ⟨chars,_,reads.repaired,utf16ToUtf8_eq (by omega) reads,decide_eq_true_iff,back⟩

theorem converted_unpaired : Converted [0x61,0xD83D,0xDE00,0xDE00,0x4E00] :=
  (converted_iff _ (by decide)).mpr (by decide)

theorem utf8Size_replicate (before : Option UInt16) (n : Nat) : utf8Size before (List.replicate n 0x4E00) = 3 * n := by
  induction n generalizing before with
  | zero => rfl
  | succ n ih =>
    have plain : ¬(IsLead 0x4E00 ∨ IsTrail 0x4E00) := by decide
    rw [List.replicate_succ,utf8Size,if_neg (by decide),if_neg (by decide),if_neg fun both => plain both.1,ih]
    omega

theorem ideographs_not_converted :
    (List.replicate 715827883 (0x4E00 : UInt16)).length < 2^30 ∧ ¬Converted (List.replicate 715827883 0x4E00) := by
  have short : (List.replicate 715827883 (0x4E00 : UInt16)).length < 2^30 := by
    rw [List.length_replicate]
    decide
  refine ⟨short,fun converted => ?_⟩
  have small := size_of_converted short converted
  rw [utf8Size_replicate] at small
  exact absurd small (by decide)

end WebSearch.UtfStringConversions
