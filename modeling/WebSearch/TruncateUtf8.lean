import WebSearch.UtfStringConversions

/-! `TruncateUTF8ToByteSize` of `base/string_util.cc`, without its `DCHECK`s. The decoding
body is a parameter. -/
namespace WebSearch.StringUtil
open Icu Library.Unicode UtfStringConversions

/-- The loop, which goes backwards from an index, here one more: where the character that it
finds ends. -/
def lastCharacter (body : DecodingBody) (data : Bytes) (truncationLength : Nat) : Nat → Option (Option Nat)
  | 0 => some none
  | prev + 1 => do
    let (charIndex,codePoint) ← u8Next body data prev truncationLength
    if !isValidCharacter codePoint || !isValidCodepoint codePoint then lastCharacter body data truncationLength prev
    else return some charIndex

def truncateUtf8ToByteSize (body : DecodingBody) (input : Bytes) (byteSize : Nat) : Option Bytes :=
  if input.length < byteSize then some input
  else do
    let truncationLength := (toInt32 byteSize).toNat
    match ← lastCharacter body input truncationLength truncationLength with
    | some charIndex => return input.take charIndex
    | none => return []

section Scan
variable {body : DecodingBody} {data : Bytes} {length : Nat}

/-- No character is found at these indices. -/
theorem lastCharacter_skip {first count : Nat}
    (nothing : ∀ k < count, ∃ next, u8Next body data (first + k) length = some (next,sentinel)) :
    lastCharacter body data length (first + count) = lastCharacter body data length first := by
  induction count with
  | zero => rfl
  | succ count ih =>
    obtain ⟨next,here⟩ := nothing count (Nat.lt_succ_self count)
    rw [Nat.add_succ,lastCharacter,here]
    exact ih fun k less => nothing k (Nat.lt_succ_of_lt less)

theorem u8Next_trail {i : Nat} {t : UInt8} (here : data[i]? = some t) (trail : 0x80 ≤ t.toNat ∧ t.toNat < 0xC0) :
    u8Next body data i length = some (i + 1,sentinel) := by
  have wide : ¬t < 0x80 := by
    rw [UInt8.lt_iff_toNat_lt]
    exact Nat.not_lt.mpr trail.1
  have plain : ¬isLead t = true := by
    rw [isLead_iff]
    omega
  simp only [u8Next,here,Option.bind_eq_bind,Option.bind_some,if_neg wide,if_neg plain]
  rfl

/-- Trail bytes are passed over. -/
theorem lastCharacter_trails {before trails rest : Bytes} (part : data.take length = before ++ trails ++ rest)
    (all : ∀ t ∈ trails, 0x80 ≤ t.toNat ∧ t.toNat < 0xC0) :
    lastCharacter body data length (before.length + trails.length) = lastCharacter body data length before.length :=
  lastCharacter_skip fun k less => by
    have here : data[before.length + k]? = some trails[k] := (read_at part less).trans (List.getElem?_eq_getElem less)
    exact ⟨_,u8Next_trail here (all _ (List.getElem_mem less))⟩

/-- And so is the part of a character that the cut has left. -/
theorem lastCharacter_cut (decoder : StrictDecoder body data length) {before cut : Bytes}
    (part : data.take length = before ++ cut) (unfinished : Unfinished cut) :
    lastCharacter body data length (before.length + cut.length) = lastCharacter body data length before.length := by
  obtain ⟨c,more,left,bytes⟩ := unfinished
  obtain ⟨b,trails,encoded,lead,low⟩ := lead_and_trails c
  cases cut with
  | nil => rfl
  | cons head cut =>
    obtain ⟨rfl,rfl⟩ := List.cons.inj (bytes.trans encoded)
    have high := lead fun empty => left (List.append_eq_nil_iff.mp empty).2
    have first : isLead head = true := (isLead_iff head).mpr (by omega)
    have wide : ¬head < 0x80 := by
      rw [UInt8.lt_iff_toNat_lt]
      exact Nat.not_lt.mpr (Nat.le_trans (by decide) high.1)
    -- a character in front of the cut would be the one that is cut
    have broken (d : Char) : ¬String.utf8EncodeChar d <+: head :: cut := by
      rintro ⟨behind,whole⟩
      rw [← whole,List.append_assoc] at bytes
      obtain ⟨-,empty⟩ := utf8EncodeChar_inj bytes
      exact left (List.append_eq_nil_iff.mp empty).2
    obtain ⟨next,decoded⟩ := decoder.bad before head cut part first broken
    have part : data.take length = before ++ [head] ++ cut := part.trans (List.append_assoc before [head] cut).symm
    have here : data[before.length]? = some head := read_at (k := 0) part (by simp)
    have read : u8Next body data before.length length = some (next,sentinel) := by
      simp only [u8Next,here,Option.bind_eq_bind,Option.bind_some,if_neg wide,if_pos first]
      exact decoded
    have behind := @lastCharacter_trails body data length (before ++ [head]) cut [] (by rw [List.append_nil]; exact part)
      fun t member => low t (List.mem_append_left more member)
    rw [List.length_append,Nat.add_assoc,Nat.add_comm [head].length] at behind
    rw [List.length_cons]
    exact behind.trans (@lastCharacter_skip body data length before.length 1 fun k less => by
      obtain rfl := Nat.lt_one_iff.mp less
      exact ⟨next,read⟩)

/-- A character is found at its first byte. -/
theorem lastCharacter_char (decoder : StrictDecoder body data length) {before rest : Bytes} {c : Char}
    (valid : isValidCharacter c.toNat = true) (part : data.take length = before ++ String.utf8EncodeChar c ++ rest) :
    lastCharacter body data length (before.length + (String.utf8EncodeChar c).length) =
      some (some (before.length + (String.utf8EncodeChar c).length)) := by
  have read := u8Next_char part (decoder.good before c rest part)
  obtain ⟨b,trails,bytes,-,low⟩ := lead_and_trails c
  have passed := @lastCharacter_trails body data length (before ++ [b]) trails rest
    (by rw [part,bytes,List.append_assoc before [b]]; rfl) low
  have width : before.length + (String.utf8EncodeChar c).length = (before ++ [b]).length + trails.length := by
    rw [bytes,List.length_append,List.length_cons,List.length_singleton]
    omega
  have here : lastCharacter body data length (before.length + 1) =
      some (some (before.length + (String.utf8EncodeChar c).length)) := by
    rw [lastCharacter,read]
    simp only [Option.bind_eq_bind,Option.bind_some,valid,isValidCodepoint_char]
    rfl
  rw [List.length_append,List.length_singleton] at passed width
  rw [width,passed,here,← width]

end Scan

/-- The output is the longest front of the characters that the size has room for. -/
theorem truncateUtf8ToByteSize_longest (body : DecodingBody) (chars : List Char) (byteSize : Nat)
    (valid : ∀ c ∈ chars, isValidCharacter c.toNat = true) (small : byteSize < 2^31)
    (decoder : byteSize ≤ (utf8 chars).length → StrictDecoder body (utf8 chars) byteSize) :
    ∃ front, truncateUtf8ToByteSize body (utf8 chars) byteSize = some (utf8 front) ∧ front <+: chars ∧
      (utf8 front).length ≤ byteSize ∧
      ∀ longer, longer <+: chars → (utf8 longer).length ≤ byteSize → longer <+: front := by
  by_cases all : (utf8 chars).length < byteSize
  · refine ⟨chars,?_,List.prefix_refl chars,Nat.le_of_lt all,fun _ part _ => part⟩
    rw [truncateUtf8ToByteSize,if_pos all]
  · have decoder := decoder (Nat.le_of_not_lt all)
    refine ⟨fitting byteSize chars,?_,fitting_front _ _,fitting_length _ _,fun _ => fitting_longest⟩
    obtain ⟨cut,part,unfinished⟩ := take_utf8 byteSize chars
    have whole := fitting_front byteSize chars
    generalize fitting byteSize chars = front at part whole
    have width := congrArg List.length part
    rw [List.length_take,Nat.min_eq_left (Nat.le_of_not_lt all),List.length_append] at width
    have passed := lastCharacter_cut decoder part unfinished
    rw [← width] at passed
    simp only [truncateUtf8ToByteSize,if_neg all,toInt32_small small,Int.toNat_natCast,passed]
    rcases List.eq_nil_or_concat' front with rfl | ⟨front,c,rfl⟩
    · rfl
    · have member : c ∈ chars := whole.mem (List.mem_append_right front (List.mem_singleton_self c))
      rw [utf8_concat] at part width ⊢
      have found := lastCharacter_char decoder (valid c member) part
      rw [← List.length_append] at found
      have kept : (utf8 chars).take (utf8 front ++ String.utf8EncodeChar c).length = utf8 front ++ String.utf8EncodeChar c := by
        have shorter := congrArg (List.take (utf8 front ++ String.utf8EncodeChar c).length) part
        rw [List.take_take,Nat.min_eq_left (by omega),List.take_left' rfl] at shorter
        exact shorter
      simp only [found,Option.bind_eq_bind,Option.bind_some,kept]
      rfl

theorem truncateUtf8ToByteSize_longest_euro : ∃ front,
    truncateUtf8ToByteSize utf8NextCharSafeBody (utf8 ['a','€','é']) 6 = some (utf8 front) ∧ front <+: ['a','€','é'] ∧
      (utf8 front).length ≤ 6 ∧
      ∀ longer, longer <+: ['a','€','é'] → (utf8 longer).length ≤ 6 → longer <+: front :=
  truncateUtf8ToByteSize_longest utf8NextCharSafeBody _ 6 (by simp [isValidCharacter]) (by decide) fun inside =>
    strictDecoder_body inside (by decide)

end WebSearch.StringUtil
