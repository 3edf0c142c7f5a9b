import WebSearch.Base.Bytes

/-! `web_util/url_parser/url_encode.cc`. What is written to a buffer is the list of
the bytes so far, and a write behind the end of the buffer is an error. A string is
never so long that the buffer sizes wrap as a `size_t`. -/
namespace WebSearch.UrlEncode

/-- The index of a write outside the buffer. -/
abbrev Overflow := Nat

/-- `*dest++ = c`. -/
def put (room : Nat) (c : UInt8) (written : Bytes) : Except Overflow Bytes :=
  if written.length < room then .ok (written ++ [c]) else .error written.length

def hexValue (digit : UInt8) : Option Nat :=
  if 48 ≤ digit ∧ digit ≤ 57 then some (digit.toNat - 48)
  else if 65 ≤ digit ∧ digit ≤ 70 then some (digit.toNat - 65 + 10)
  else if 97 ≤ digit ∧ digit ≤ 102 then some (digit.toNat - 97 + 10)
  else none

/-- `-1` is none. -/
def hexPairValue (first second : UInt8) : Option Nat := do
  let high ← hexValue first
  let low ← hexValue second
  return high * 16 + low

/-- `source` is a C string, and so is what is written. -/
def urlDecode (room : Nat) : Bytes → Bytes → Except Overflow Bytes
  | [], written => put room 0 written
  | 43 :: source, written => do urlDecode room source (← put room 32 written)
  | 37 :: first :: second :: source, written => match hexPairValue first second with
    | some value => do urlDecode room source (← put room (UInt8.ofNat value) written)
    | none => do urlDecode room (first :: second :: source) (← put room 63 written)
  | 37 :: source, written => do urlDecode room source (← put room 63 written)
  | c :: source, written => do urlDecode room source (← put room c written)

/-- In the C locale. -/
def isalnum (c : UInt8) : Bool :=
  (48 ≤ c && c ≤ 57) || (65 ≤ c && c ≤ 90) || (97 ≤ c && c ≤ 122)

/-- The characters of `"-_.!~*'()"`. -/
def marks : Bytes := [45,95,46,33,126,42,39,40,41]

/-- `digits[n & 0x0F]`. -/
def digit (n : UInt8) : UInt8 := if n &&& 15 < 10 then 48 + (n &&& 15) else 55 + (n &&& 15)

/-- `len` stays zero. -/
def urlEncode (room : Nat) (max : UInt32) : Bytes → Bytes → Except Overflow Bytes
  | [], written => put room 0 written
  | ch :: source, written =>
    let len : UInt32 := 0
    if len < max - 4 then do
      if ch = 32 then urlEncode room max source (← put room 43 written)
      else if isalnum ch || marks.contains ch then urlEncode room max source (← put room ch written)
      else
        let written ← put room 37 written
        let written ← put room (digit (ch >>> 4)) written
        let written ← put room (digit ch) written
        urlEncode room max source written
    else put room 0 written

def stackalloc : Nat := 64

def roomFor (neededLength : Nat) : Nat := if stackalloc < neededLength then neededLength else stackalloc

def urlDecodeString (encoded : Bytes) : Except Overflow Bytes := do
  let neededLength := encoded.length + 2 * (cString encoded).count 37 + 10
  return cString (← urlDecode (roomFor neededLength) (cString encoded) [])

def urlEncodeString (decoded : Bytes) : Except Overflow Bytes := do
  let neededLength := decoded.length * 3 + 3
  return cString (← urlEncode (roomFor neededLength) (UInt32.ofNat neededLength) (cString decoded) [])

def escape (c : UInt8) : Bytes :=
  if c = 32 then [43] else if isalnum c || marks.contains c then [c] else [37,digit (c >>> 4),digit c]

theorem forall_byte {P : UInt8 → Prop} (all : ∀ n < 256, P (UInt8.ofNat n)) (c : UInt8) : P c := by
  have here := all c.toNat c.toNat_lt
  rwa [UInt8.ofNat_toNat] at here

theorem hexPairValue_digits : ∀ c : UInt8, hexPairValue (digit (c >>> 4)) (digit c) = some c.toNat :=
  forall_byte (by decide +kernel)

/-- A character that stands for itself has no meaning of its own to the decoder. -/
theorem plain_ne : ∀ c : UInt8, (isalnum c || marks.contains c) = true → c ≠ 43 ∧ c ≠ 37 :=
  forall_byte (by decide +kernel)

theorem zero_not_mem_escape : ∀ c : UInt8, c ≠ 0 → 0 ∉ escape c := forall_byte (by decide +kernel)

theorem length_escape (c : UInt8) : 1 ≤ (escape c).length ∧ (escape c).length ≤ 3 := by
  unfold escape
  split
  · decide
  · split
    · exact ⟨Nat.le_refl 1,Nat.le_add_left 1 2⟩
    · exact ⟨Nat.le_add_left 1 2,Nat.le_refl 3⟩

theorem put_ok {room : Nat} {written : Bytes} (fits : written.length < room) (c : UInt8) :
    put room c written = .ok (written ++ [c]) := if_pos fits

/-- One byte after the other. -/
def putAll (room : Nat) (bytes written : Bytes) : Except Overflow Bytes :=
  bytes.foldlM (fun written c => put room c written) written

theorem putAll_cons (room : Nat) (c : UInt8) (bytes : Bytes) :
    putAll room (c :: bytes) = fun written => put room c written >>= putAll room bytes := by
  funext written
  exact List.foldlM_cons

theorem putAll_ok {room : Nat} {bytes written : Bytes} (fits : written.length + bytes.length ≤ room) :
    putAll room bytes written = .ok (written ++ bytes) := by
  induction bytes generalizing written with
  | nil =>
    rw [List.append_nil]
    rfl
  | cons c bytes ih =>
    rw [List.length_cons] at fits
    have fits_here : written.length < room := by omega
    rw [putAll_cons]
    change (put room c written >>= putAll room bytes) = _
    rw [put_ok fits_here]
    change putAll room bytes (written ++ [c]) = _
    rw [ih (by rw [List.length_append,List.length_singleton]; omega),List.append_assoc,List.singleton_append]

/-- The loop writes what stands for each character in turn. -/
theorem urlEncode_putAll {max : UInt32} (turns : 0 < max - 4) (room : Nat) (source written : Bytes) :
    urlEncode room max source written = putAll room (source.flatMap escape ++ [0]) written := by
  induction source generalizing written with
  | nil => exact (bind_pure (put room 0 written)).symm
  | cons ch source ih =>
    rw [urlEncode,if_pos turns,List.flatMap_cons,escape]
    simp only [ih]
    by_cases space : ch = 32
    · simp only [if_pos space,List.append_assoc,List.cons_append,putAll_cons]
      rfl
    · by_cases plain : (isalnum ch || marks.contains ch) = true
      · simp only [if_neg space,if_pos plain,List.cons_append,List.nil_append,putAll_cons]
      · simp only [if_neg space,if_neg plain,List.cons_append,List.nil_append,putAll_cons]

theorem urlEncode_stuck {room : Nat} {max : UInt32} (stuck : ¬0 < max - 4) (source written : Bytes) :
    urlEncode room max source written = put room 0 written := by
  cases source with
  | nil => rfl
  | cons ch source => exact if_neg stuck

/-- Every `+` is a space, every `%` before two hexadecimal digits is their byte, every
other `%` is `?`, and all else stands for itself. -/
def decode : Bytes → Bytes
  | [] => []
  | 43 :: source => 32 :: decode source
  | 37 :: first :: second :: source => match hexPairValue first second with
    | some value => UInt8.ofNat value :: decode source
    | none => 63 :: decode (first :: second :: source)
  | 37 :: source => 63 :: decode source
  | c :: source => c :: decode source

theorem urlDecode_putAll (room : Nat) (source written : Bytes) :
    urlDecode room source written = putAll room (decode source ++ [0]) written := by
  fun_induction decode source generalizing written with
  | case1 => exact (bind_pure (put room 0 written)).symm
  | case2 source ih => simp only [urlDecode,List.cons_append,putAll_cons,ih]
  | case3 first second source value hex ih =>
    simp only [urlDecode,hex,List.cons_append,putAll_cons,ih]
  | case4 first second source hex ih => simp only [urlDecode,hex,List.cons_append,putAll_cons,ih]
  | case5 source short ih =>
    rw [urlDecode,List.cons_append,putAll_cons]
    · simp only [ih]
    · exact short
  | case6 c source noPlus longer noPercent ih =>
    rw [urlDecode,List.cons_append,putAll_cons]
    · simp only [ih]
    · exact noPlus
    · exact longer
    · exact noPercent

/-- One encoded character in front of any rest. -/
theorem decode_escape (c : UInt8) (rest : Bytes) : decode (escape c ++ rest) = c :: decode rest := by
  unfold escape
  split
  · rename_i space
    rw [space,List.singleton_append,decode]
  · split
    · rename_i plain
      obtain ⟨noPlus,noPercent⟩ := plain_ne c plain
      rw [List.singleton_append,decode]
      · exact noPlus
      · intro first second source here
        exact absurd here noPercent
      · exact noPercent
    · change decode (37 :: digit (c >>> 4) :: digit c :: rest) = _
      rw [decode,hexPairValue_digits]
      simp only [UInt8.ofNat_toNat]

theorem decode_escapes (s : Bytes) : decode (s.flatMap escape) = s := by
  induction s with
  | nil => rfl
  | cons c s ih => rw [List.flatMap_cons,decode_escape,ih]

theorem le_roomFor (neededLength : Nat) : neededLength ≤ roomFor neededLength := by
  unfold roomFor
  split <;> omega

theorem zero_not_mem_escapes {s : Bytes} (noNul : 0 ∉ s) : 0 ∉ s.flatMap escape := by
  intro member
  obtain ⟨c,inside,zero⟩ := List.mem_flatMap.mp member
  exact zero_not_mem_escape c (fun nul => noNul (nul ▸ inside)) zero

theorem length_le_escapes (s : Bytes) : s.length ≤ (s.flatMap escape).length := by
  induction s with
  | nil => exact Nat.le_refl 0
  | cons c s ih =>
    have some := (length_escape c).1
    rw [List.flatMap_cons,List.length_append,List.length_cons]
    omega

theorem length_escapes_le (s : Bytes) : (s.flatMap escape).length ≤ 3 * s.length := by
  induction s with
  | nil => exact Nat.le_refl 0
  | cons c s ih =>
    have few := (length_escape c).2
    rw [List.flatMap_cons,List.length_append,List.length_cons]
    omega

theorem size_eq_four_iff {length : Nat} (small : length < 2^32) : (length * 3 + 3) % 2^32 = 4 ↔ length = 2863311531 := by
  have bound : length * 3 + 3 < 2^32 * 4 := by omega
  have few : (length * 3 + 3) / 2^32 < 4 := Nat.div_lt_of_lt_mul bound
  have whole := Nat.div_add_mod (length * 3 + 3) (2^32)
  generalize (length * 3 + 3) / 2^32 = q at few whole
  constructor
  · intro four
    rw [four] at whole
    clear four
    rcases q with _ | _ | _ | _ | q <;> omega
  · intro here
    rw [here]
    decide

/-- The bound of the loop is never reached, unless it is zero. -/
theorem turns_iff (length : Nat) : 0 < UInt32.ofNat (length * 3 + 3) - 4 ↔ length % 2^32 ≠ 2863311531 := by
  have four : (4 : UInt32).toNat = 4 := rfl
  have same : (length * 3 + 3) % 2^32 = (length % 2^32 * 3 + 3) % 2^32 := by omega
  rw [UInt32.lt_iff_toNat_lt,UInt32.toNat_sub,UInt32.toNat_ofNat',UInt32.toNat_zero,four,same,Ne,
    ← size_eq_four_iff (Nat.mod_lt length (by decide))]
  generalize length % 2^32 * 3 + 3 = n
  have wrapped : n % 2^32 < 2^32 := Nat.mod_lt n (by decide)
  omega

theorem urlEncodeString_eq {s : Bytes} (noNul : 0 ∉ s) (turns : s.length % 2^32 ≠ 2863311531) :
    urlEncodeString s = .ok (s.flatMap escape) := by
  have room := le_roomFor (s.length * 3 + 3)
  unfold urlEncodeString
  rw [cString_eq noNul]
  dsimp only
  have long := length_escapes_le s
  rw [urlEncode_putAll ((turns_iff s.length).mpr turns),
    putAll_ok (by simp only [List.length_nil,List.length_append,List.length_singleton]; omega)]
  exact congrArg Except.ok (cString_cut (zero_not_mem_escapes noNul) [])

theorem urlEncodeString_stuck {s : Bytes} (stuck : s.length % 2^32 = 2863311531) : urlEncodeString s = .ok [] := by
  have room := le_roomFor (s.length * 3 + 3)
  have never : ¬0 < UInt32.ofNat (s.length * 3 + 3) - 4 := fun turns => (turns_iff s.length).mp turns stuck
  unfold urlEncodeString
  dsimp only
  rw [urlEncode_stuck never,put_ok (by rw [List.length_nil]; omega)]
  rfl

theorem urlDecodeString_escapes {s : Bytes} (noNul : 0 ∉ s) : urlDecodeString (s.flatMap escape) = .ok s := by
  have long := length_le_escapes s
  have room := le_roomFor ((s.flatMap escape).length + 2 * (s.flatMap escape).count 37 + 10)
  unfold urlDecodeString
  rw [cString_eq (zero_not_mem_escapes noNul)]
  dsimp only
  rw [urlDecode_putAll,decode_escapes,
    putAll_ok (by simp only [List.length_nil,List.length_append,List.length_singleton]; omega)]
  exact congrArg Except.ok (cString_cut noNul [])

/-- Decoding undoes encoding within both buffers, except at the lengths for which the
`unsigned` bound of the encoder's loop is zero. -/
theorem decode_encode_iff {s : Bytes} (noNul : 0 ∉ s) :
    (∃ encoded, urlEncodeString s = .ok encoded ∧ urlDecodeString encoded = .ok s) ↔ s.length % 2^32 ≠ 2863311531 := by
  constructor
  · intro undone stuck
    obtain ⟨encoded,made,read⟩ := undone
    rw [urlEncodeString_stuck stuck] at made
    rw [← Except.ok.inj made] at read
    have empty : ([] : Bytes) = s := Except.ok.inj read
    rw [← empty] at stuck
    exact absurd stuck (by decide)
  · intro turns
    exact ⟨_,urlEncodeString_eq noNul turns,urlDecodeString_escapes noNul⟩

/-- A space, two special characters and a byte that is no character. -/
theorem decode_encode_some : ∃ encoded, urlEncodeString [97,32,37,43,255] = .ok encoded ∧
    urlDecodeString encoded = .ok [97,32,37,43,255] :=
  (decode_encode_iff (by decide)).mpr (by decide)

/-- Of a string of so many letters nothing is encoded. -/
theorem encode_replicate : 0 ∉ List.replicate 2863311531 (97 : UInt8) ∧
    urlEncodeString (List.replicate 2863311531 97) = .ok [] ∧
    urlDecodeString [] ≠ .ok (List.replicate 2863311531 97) := by
  have stuck : (List.replicate 2863311531 (97 : UInt8)).length % 2^32 = 2863311531 := by
    rw [List.length_replicate]
    decide
  have nothing : urlDecodeString [] = .ok [] := rfl
  refine ⟨fun member => ?_,urlEncodeString_stuck stuck,fun read => ?_⟩
  · exact absurd (List.eq_of_mem_replicate member) (by decide)
  · rw [nothing] at read
    rw [← Except.ok.inj read] at stuck
    exact absurd stuck (by decide)

end WebSearch.UrlEncode
