import WebSearch.UrlEncode
import Mathlib.Data.List.Infix

/-! What `UrlEncode` and `UrlDecode` write and return, and what `UrlDecodeString` makes
of any string. -/
namespace WebSearch.UrlEncode

/-- `UrlEncode` into a buffer with so much room. `start - dest` becomes an `int`. -/
def urlEncodeCall (room : Nat) (max : UInt32) (source : Bytes) : Except Overflow (Bytes × Int32) := do
  let written ← urlEncode room max (cString source) []
  return (written,Int32.ofInt (0 - (written.length - 1 : Nat)))

/-- `UrlDecode`, which returns `dest - start`. -/
def urlDecodeCall (room : Nat) (source : Bytes) : Except Overflow (Bytes × Int32) := do
  let written ← urlDecode room (cString source) []
  return (written,Int32.ofInt (written.length - 1 : Nat))

theorem putAll_overflow {room : Nat} {bytes written : Bytes} (nonempty : bytes ≠ [])
    (beyond : room < written.length + bytes.length) : ∃ i, putAll room bytes written = .error i := by
  induction bytes generalizing written with
  | nil => exact absurd rfl nonempty
  | cons c bytes ih =>
    rw [List.length_cons] at beyond
    rw [putAll_cons]
    change ∃ i, (put room c written >>= putAll room bytes) = .error i
    by_cases fits : written.length < room
    · rw [put_ok fits]
      apply ih
      · intro last
        rw [last,List.length_nil] at beyond
        omega
      · rw [List.length_append,List.length_singleton]
        omega
    · rw [put,if_neg fits]
      exact ⟨_,rfl⟩

/-- What is written and returned, unless the room ends before it. -/
theorem urlEncodeCall_eq {max : UInt32} (turns : 0 < max - 4) (room : Nat) (source : Bytes) :
    (((cString source).flatMap escape).length < room ∧ urlEncodeCall room max source =
      .ok ((cString source).flatMap escape ++ [0],Int32.ofInt (0 - ((cString source).flatMap escape).length))) ∨
    room ≤ ((cString source).flatMap escape).length ∧ ∃ i, urlEncodeCall room max source = .error i := by
  unfold urlEncodeCall
  rw [urlEncode_putAll turns]
  generalize (cString source).flatMap escape = text
  obtain fits | beyond := Nat.lt_or_ge text.length room
  · rw [putAll_ok (by simpa using Nat.succ_le_of_lt fits)]
    refine .inl ⟨fits,?_⟩
    simp [bind,Except.bind,pure,Except.pure]
  · have overflow : room < ([] : Bytes).length + (text ++ [0]).length := by simpa using Nat.lt_succ_of_le beyond
    obtain ⟨i,stopped⟩ := putAll_overflow (by simp) overflow
    rw [stopped]
    exact .inr ⟨beyond,i,rfl⟩

theorem urlEncodeCall_four {room : Nat} (some_room : 0 < room) (source : Bytes) :
    urlEncodeCall room 4 source = .ok ([0],0) := by
  rw [urlEncodeCall,urlEncode_stuck (by decide),put_ok some_room]
  rfl

/-- The difference the wrong way round is the count when that is zero. -/
theorem ofInt_neg_eq_iff (n : Nat) : (Int32.ofInt (0 - n)).toInt = n ↔ n = 0 := by
  rw [Int32.toInt_ofInt,Int.bmod,show ((Int32.size : Nat) : Int) = 2^32 from rfl]
  split <;> omega

theorem ofInt_eq_iff (n : Nat) : (Int32.ofInt n).toInt = n ↔ n < 2^31 := by
  have positive := Int.natCast_nonneg n
  rw [Int32.toInt_ofInt,Int.bmod,show ((Int32.size : Nat) : Int) = 2^32 from rfl]
  split <;> omega

/-- `UrlEncode` stays within `max` bytes, writes the encoding of the first characters and
a NUL, and returns the number of bytes before that. -/
def Encodes (source : Bytes) (max : UInt32) : Prop := ∃ written returned,
  urlEncodeCall max.toNat max source = .ok (written,returned) ∧
    (∃ taken, taken <+: cString source ∧ written = taken.flatMap escape ++ [0]) ∧
    returned.toInt = (written.length - 1 : Nat)

theorem encodes_four (source : Bytes) : Encodes source 4 :=
  ⟨_,_,urlEncodeCall_four (by decide) source,⟨[],List.nil_prefix,rfl⟩,rfl⟩

/-- With room for a character the loop runs to the end of the string, and what is
returned is not positive. It stays within `max` bytes when there is room for all. -/
theorem encodes_iff (source : Bytes) {max : UInt32} (room : 4 ≤ max) :
    (Encodes source max ↔ max = 4 ∨ cString source = []) ∧
    ((∃ result, urlEncodeCall max.toNat max source = .ok result) ↔
      max = 4 ∨ ((cString source).flatMap escape).length < max.toNat) := by
  by_cases four : max = 4
  · subst four
    exact ⟨iff_of_true (encodes_four source) (.inl rfl),
      iff_of_true ⟨_,urlEncodeCall_four (by decide) source⟩ (.inl rfl)⟩
  · have above : 4 ≤ max.toNat := UInt32.le_iff_toNat_le.mp room
    have turns : 0 < max - 4 := by
      have other : max.toNat ≠ 4 := fun same => four (UInt32.toNat_inj.mp same)
      rw [UInt32.lt_iff_toNat_lt,UInt32.toNat_sub_of_le _ _ room]
      change 0 < max.toNat - 4
      omega
    have long := length_le_escapes (cString source)
    obtain ⟨fits,wrote⟩ | ⟨beyond,i,stopped⟩ := urlEncodeCall_eq turns max.toNat source
    · refine ⟨?_,iff_of_true ⟨_,wrote⟩ (.inr fits)⟩
      simp only [Encodes,wrote,Except.ok.injEq,Prod.mk.injEq,four,false_or]
      constructor
      · rintro ⟨written,returned,⟨rfl,rfl⟩,_,count⟩
        rw [List.length_append,List.length_singleton,Nat.add_sub_cancel,ofInt_neg_eq_iff] at count
        exact List.eq_nil_of_length_eq_zero (by omega)
      · intro empty
        rw [empty]
        exact ⟨_,_,⟨rfl,rfl⟩,⟨[],List.nil_prefix,rfl⟩,rfl⟩
    · have some_text : cString source ≠ [] := by
        intro empty
        rw [empty,List.flatMap_nil,List.length_nil] at beyond
        omega
      refine ⟨iff_of_false ?_ ?_,iff_of_false ?_ ?_⟩
      · rintro ⟨written,returned,wrote,_⟩
        rw [stopped] at wrote
        cases wrote
      · exact not_or.mpr ⟨four,some_text⟩
      · rintro ⟨result,wrote⟩
        rw [stopped] at wrote
        cases wrote
      · exact not_or.mpr ⟨four,Nat.not_lt.mpr beyond⟩

/-- A letter, a blank and a percent sign, in a buffer of four bytes. -/
theorem encodes_percent : Encodes [97,32,37] 4 := (encodes_iff [97,32,37] (by decide)).1.mpr (.inl rfl)

/-- Of two letters, in a buffer of five bytes, minus two are counted. -/
theorem encodes_letters_not : urlEncodeCall 5 5 [97,98] = .ok ([97,98,0],-2) ∧
    ¬∀ (source : Bytes) (max : UInt32), 4 ≤ max → Encodes source max := by
  refine ⟨rfl,fun all => ?_⟩
  have kept := (encodes_iff [97,98] (by decide)).1.mp (all [97,98] 5 (by decide))
  exact absurd kept (by decide)

/-! Decoding any string. -/

theorem hexValue_facts : ∀ d : UInt8, ∀ v ∈ hexValue d, v < 16 ∧ (v = 0 ↔ d = 48) ∧ d ≠ 0 ∧ d ≠ 37 :=
  forall_byte (by decide +kernel)

/-- Two digits: neither is a NUL or a `%`, and their byte is a NUL when both are `0`. -/
theorem hexPairValue_facts {first second : UInt8} {value : Nat} (hex : hexPairValue first second = some value) :
    (UInt8.ofNat value = 0 ↔ first = 48 ∧ second = 48) ∧ (first ≠ 0 ∧ first ≠ 37) ∧ second ≠ 0 ∧ second ≠ 37 := by
  obtain ⟨high,is_high,hex⟩ := Option.bind_eq_some_iff.mp hex
  obtain ⟨low,is_low,hex⟩ := Option.bind_eq_some_iff.mp hex
  obtain ⟨high_lt,high_zero,first_ne⟩ := hexValue_facts first high is_high
  obtain ⟨low_lt,low_zero,second_ne⟩ := hexValue_facts second low is_low
  refine ⟨?_,first_ne,second_ne⟩
  rw [← Option.some.inj hex,← high_zero,← low_zero,← UInt8.toNat_inj,UInt8.toNat_ofNat',UInt8.toNat_zero]
  omega

theorem infix_cons (c : UInt8) (s : Bytes) : [37,48,48] <:+: c :: s ↔ (37 = c ∧ [48,48] <+: s) ∨ [37,48,48] <:+: s := by
  rw [List.infix_cons_iff,List.cons_prefix_cons]

theorem zero_mem_decode_iff (s : Bytes) : 0 ∈ decode s ↔ 0 ∈ s ∨ [37,48,48] <:+: s := by
  fun_induction decode s with
  | case1 => simp
  | case2 source ih => simp [ih,infix_cons]
  | case3 first second source value hex ih =>
    obtain ⟨zero,⟨first_nul,first_percent⟩,second_nul,second_percent⟩ := hexPairValue_facts hex
    have both : [48,48] <+: first :: second :: source ↔ first = 48 ∧ second = 48 := by
      simp [List.cons_prefix_cons,eq_comm]
    have percent : (0 : UInt8) ≠ 37 := by decide
    rw [List.mem_cons,eq_comm,zero,ih]
    simp only [infix_cons,List.mem_cons,true_and,both,first_percent.symm,second_percent.symm,first_nul.symm,
      second_nul.symm,false_and,false_or,percent]
    exact or_left_comm
  | case4 first second source hex ih =>
    have other : ¬[48,48] <+: first :: second :: source := by
      intro zeros
      simp only [List.cons_prefix_cons] at zeros
      rw [← zeros.1,← zeros.2.1] at hex
      cases hex
    have later := (infix_cons 37 (first :: second :: source)).trans (or_iff_right fun zeros => other zeros.2)
    rw [later,List.mem_cons,ih]
    simp
  | case5 source short ih =>
    have other : ¬[48,48] <+: source := by
      rintro ⟨rest,same⟩
      exact short 48 48 rest same.symm
    have later := (infix_cons 37 source).trans (or_iff_right fun zeros => other zeros.2)
    rw [later,List.mem_cons,ih]
    simp
  | case6 c source noPlus longer noPercent ih =>
    have later := (infix_cons c source).trans (or_iff_right fun zeros => noPercent zeros.1.symm)
    rw [later,List.mem_cons,ih,List.mem_cons,or_assoc]

theorem length_decode_le (s : Bytes) : (decode s).length ≤ s.length := by
  fun_induction decode s <;> simp only [List.length_cons,List.length_nil] at * <;> omega

theorem cString_append_zero (s : Bytes) : cString (s ++ [0]) = cString s := by
  by_cases nul : 0 ∈ s
  · exact cString_append_nul nul [0]
  · rw [cString_cut nul,cString_eq nul]

theorem urlDecode_fits {room : Nat} {source : Bytes} (fits : (cString source).length < room) :
    urlDecode room (cString source) [] = .ok (decode (cString source) ++ [0]) := by
  have shorter := length_decode_le (cString source)
  rw [urlDecode_putAll,putAll_ok (by simp only [List.length_nil,List.length_append,List.length_singleton]; omega),
    List.nil_append]

/-- The text is cut at its first NUL, and again where a NUL was decoded. -/
theorem urlDecodeString_eq (e : Bytes) : urlDecodeString e = .ok (cString (decode (cString e))) := by
  have room := le_roomFor (e.length + 2 * (cString e).count 37 + 10)
  have cut : (cString e).length ≤ e.length := (cString_begins e).length_le
  rw [urlDecodeString,urlDecode_fits (by omega)]
  exact congrArg Except.ok (cString_append_zero _)

theorem urlDecodeCall_eq {room : Nat} {e : Bytes} (fits : (cString e).length < room) :
    urlDecodeCall room e = .ok (decode (cString e) ++ [0],Int32.ofInt (decode (cString e)).length) := by
  rw [urlDecodeCall,urlDecode_fits fits]
  simp [bind,Except.bind,pure,Except.pure]

theorem urlDecodeCall_ok {room : Nat} {e : Bytes} {result : Bytes × Int32} (called : urlDecodeCall room e = .ok result) :
    result = (decode (cString e) ++ [0],Int32.ofInt (decode (cString e)).length) := by
  unfold urlDecodeCall at called
  rw [urlDecode_putAll] at called
  obtain beyond | fits := Nat.lt_or_ge room (([] : Bytes).length + (decode (cString e) ++ [0]).length)
  · obtain ⟨i,stopped⟩ := putAll_overflow (by simp) beyond
    rw [stopped] at called
    cases called
  · rw [putAll_ok fits] at called
    rw [← Except.ok.inj called]
    simp

/-- The result is the decoding of the whole string, and `UrlDecode` counts its bytes. -/
def Decodes (e : Bytes) : Prop := ∃ result, urlDecodeString e = .ok result ∧ result = decode e ∧
  ∀ room written returned, urlDecodeCall room e = .ok (written,returned) → returned.toInt = result.length

theorem decodes_iff (e : Bytes) : Decodes e ↔ 0 ∉ e ∧ ¬[37,48,48] <:+: e ∧ (decode e).length < 2^31 := by
  have clean : 0 ∉ decode e ↔ 0 ∉ e ∧ ¬[37,48,48] <:+: e := by rw [zero_mem_decode_iff,not_or]
  rw [← and_assoc,← clean]
  constructor
  · rintro ⟨result,made,rfl,counted⟩
    have same : cString (decode (cString e)) = decode e := Except.ok.inj ((urlDecodeString_eq e).symm.trans made)
    have noNul : 0 ∉ decode e := same ▸ zero_not_mem_cString _
    have whole : cString e = e := cString_eq (clean.mp noNul).1
    have count := counted _ _ _ (urlDecodeCall_eq (Nat.lt_succ_self (cString e).length))
    rw [whole,ofInt_eq_iff] at count
    exact ⟨noNul,count⟩
  · rintro ⟨noNul,small⟩
    have whole : cString e = e := cString_eq (clean.mp noNul).1
    refine ⟨_,urlDecodeString_eq e,?_,?_⟩
    · rw [whole,cString_eq noNul]
    · intro room written returned called
      rw [(Prod.mk.inj (urlDecodeCall_ok called)).2,whole,cString_eq noNul,ofInt_eq_iff]
      exact small

/-- An escaped NUL cuts the result short, and so does a NUL. -/
theorem decodes_nul_not : urlDecodeString [97,37,48,48,98] = .ok [97] ∧ decode [97,37,48,48,98] = [97,0,98] ∧
    urlDecodeString [97,0,98] = .ok [97] ∧ decode [97,0,98] = [97,0,98] ∧ ¬∀ e, Decodes e :=
  ⟨rfl,rfl,rfl,rfl,fun all => absurd ((decodes_iff [0]).mp (all [0])).1 (by decide)⟩

end WebSearch.UrlEncode
