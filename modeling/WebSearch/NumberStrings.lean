import WebSearch.StringUtil

/-! `base/string_util.cc`: what `IntToString` writes for every width, and what
`StringToInt64` and `StringToUint64` take for a number. -/
namespace WebSearch.StringUtil

/-- `IntToString` of an `int`. -/
def int32ToString (value : Int32) : Bytes := intToString 4 value.toInt

def uintToString (value : UInt32) : Bytes := intToString 4 value.toNat

/-- Every `DCHECK(it != outbuf.begin())` of `IntToStringT::IntToString` holds. -/
def insideOutbuf (size : Nat) (value : Int) : Bool :=
  let res := ((if value < 0 then -value else value) % 2^(8 * size)).toNat
  (writeDigits (decide (value < 0)) (3 * size + 1) res []).2

/-- The sign where there is one, the canonical numeral of the magnitude, and no write
before the buffer. -/
def Written (size : Nat) (value : Int) (text : Bytes) : Prop :=
  insideOutbuf size value = true ∧
    ∃ digits, Canonical digits value.natAbs ∧ text = signOf (decide (value < 0)) ++ digits

theorem intToString_written {size width : Nat} {value : Int} (lower : -2^(8 * size) < value) (upper : value < 2^(8 * size))
    (small : value.natAbs < 10^(width + 1)) (room : width + 2 < 3 * size + 1) : Written size value (intToString size value) := by
  have res : ((if value < 0 then -value else value) % 2^(8 * size)).toNat = value.natAbs := by
    split
    · rw [Int.emod_eq_of_lt (by omega) (by omega)]
      omega
    · rw [Int.emod_eq_of_lt (by omega) upper]
      omega
  obtain ⟨digits,canonical,same⟩ := writeDigits_eq (decide (value < 0)) (3 * size + 1) width value.natAbs [] small room
  refine ⟨?_,digits,canonical,?_⟩
  · simp only [insideOutbuf,res,same]
  · simp only [intToString,res,same,List.append_nil]

theorem intToString_text :
    (∀ value : Int32, Written 4 value.toInt (int32ToString value)) ∧
    (∀ value : UInt32, Written 4 value.toNat (uintToString value)) ∧
    (∀ value : Int64, Written 8 value.toInt (int64ToString value)) ∧
    (∀ value : UInt64, Written 8 value.toNat (uint64ToString value)) ∧
    ∀ value : Int64, stringToInt64 (int64ToString value) = (true,value) := by
  refine ⟨?_,?_,?_,?_,stringToInt64_int64ToString⟩
  · intro value
    have lower := value.le_toInt
    have upper := value.toInt_lt
    exact @intToString_written 4 9 value.toInt (by omega) (by omega) (by omega) (by decide)
  · intro value
    have upper := value.toNat_lt
    exact @intToString_written 4 9 value.toNat (by omega) (by omega) (by omega) (by decide)
  · intro value
    have lower := value.le_toInt
    have upper := value.toInt_lt
    exact @intToString_written 8 19 value.toInt (by omega) (by omega) (by omega) (by decide)
  · intro value
    have upper := value.toNat_lt
    exact @intToString_written 8 19 value.toNat (by omega) (by omega) (by omega) (by decide)

/-! Numerals read. -/

/-- A numeral with one sign or none. -/
def SignedNumeral (s : Bytes) (value : Int) : Prop :=
  ∃ digits n, Numeral digits n ∧
    (s = digits ∧ value = n ∨ s = plus :: digits ∧ value = n ∨ s = minus :: digits ∧ value = -n)

theorem numeral_head {digits : Bytes} {n : Nat} (numeral : Numeral digits n) :
    ∃ c rest, digits = c :: rest ∧ isdigit c = true := by
  obtain ⟨c,rest,rfl⟩ := List.exists_cons_of_ne_nil numeral.nonempty
  exact ⟨c,rest,rfl,List.all_eq_true.mp numeral.decimal c List.mem_cons_self⟩

theorem takeWhile_numeral {digits : Bytes} {n : Nat} (numeral : Numeral digits n) : digits.takeWhile isdigit = digits :=
  List.takeWhile_eq_self_iff.mpr fun _ member => List.all_eq_true.mp numeral.decimal _ member

/-- Digits that reach the end of the text are all of it. -/
theorem numeral_of_whole {s : Bytes} (some : (s.takeWhile isdigit).isEmpty = false)
    (whole : (s.takeWhile isdigit).length = s.length) : Numeral s (decimalValue (s.takeWhile isdigit)) := by
  have same : s.takeWhile isdigit = s := (List.takeWhile_prefix _).eq_of_length whole
  rw [same] at some ⊢
  refine ⟨?_,?_,rfl⟩
  · intro empty
    rw [empty] at some
    exact absurd some (by decide)
  · rw [← same]
    exact List.all_takeWhile

theorem scanNumber_plus {digits : Bytes} {n : Nat} (numeral : Numeral digits n) :
    scanNumber (plus :: digits) = some (false,n,(plus :: digits).length) := by
  have space : isspace plus = false := by decide
  have other : (plus == minus) = false := by decide
  obtain ⟨c,rest,text,_⟩ := numeral_head numeral
  simp [scanNumber,space,other,takeWhile_numeral numeral,numeral.value,Nat.add_comm]
  simp [text]

/-- What the digits behind the sign come to, when they end where the text ends. -/
theorem magnitude_of_whole {rest : Bytes} {isNeg negative : Bool} {sign magnitude found : Nat}
    (scanned : (if (rest.takeWhile isdigit).isEmpty = true then none
      else some (isNeg,decimalValue (rest.takeWhile isdigit),sign + (rest.takeWhile isdigit).length)) =
        some (negative,magnitude,found)) (whole : found = sign + rest.length) :
    isNeg = negative ∧ Numeral rest magnitude := by
  split at scanned
  · exact absurd scanned (by simp)
  · rename_i some
    simp only [Option.some.injEq,Prod.mk.injEq] at scanned
    obtain ⟨same,value,ended⟩ := scanned
    refine ⟨same,?_⟩
    rw [← value]
    exact numeral_of_whole ((Bool.not_eq_true _).mp some) (by omega)

theorem scan_signed {s : Bytes} (value : Int) (text : isspace (s.headD 0) = false) :
    (∃ negative magnitude, scanNumber s = some (negative,magnitude,s.length) ∧
      (if negative then -(magnitude : Int) else magnitude) = value) ↔ SignedNumeral s value := by
  constructor
  · rintro ⟨negative,magnitude,scanned,signed⟩
    have plain : s.takeWhile isspace = [] := by
      cases s with
      | nil => rfl
      | cons c rest => rw [List.takeWhile_cons,if_neg (by simpa using text)]
    simp only [scanNumber,plain,List.length_nil,List.drop_zero,Nat.zero_add] at scanned
    by_cases less : s.head? = some minus
    · obtain ⟨rest,rfl⟩ := List.head?_eq_some_iff.mp less
      simp only [List.head?_cons,beq_self_eq_true,Bool.true_or,if_true,List.drop_succ_cons,List.drop_zero] at scanned
      obtain ⟨rfl,numeral⟩ := magnitude_of_whole scanned (Nat.add_comm ..)
      exact ⟨rest,magnitude,numeral,.inr (.inr ⟨rfl,signed.symm⟩)⟩
    · have positive : (s.head? == some minus) = false := beq_eq_false_iff_ne.mpr less
      by_cases more : s.head? = some plus
      · obtain ⟨rest,rfl⟩ := List.head?_eq_some_iff.mp more
        simp only [List.head?_cons,beq_self_eq_true,Bool.or_true,if_true,List.drop_succ_cons,List.drop_zero] at scanned
        obtain ⟨rfl,numeral⟩ := magnitude_of_whole scanned (Nat.add_comm ..)
        exact ⟨rest,magnitude,numeral,.inr (.inl ⟨rfl,signed.symm⟩)⟩
      · have unsigned : (s.head? == some plus) = false := beq_eq_false_iff_ne.mpr more
        simp only [positive,unsigned,Bool.or_self,Bool.false_eq_true,if_false,List.drop_zero] at scanned
        obtain ⟨rfl,numeral⟩ := magnitude_of_whole scanned (Nat.zero_add _).symm
        exact ⟨s,magnitude,numeral,.inl ⟨rfl,signed.symm⟩⟩
  · rintro ⟨digits,n,numeral,⟨rfl,rfl⟩ | ⟨rfl,rfl⟩ | ⟨rfl,rfl⟩⟩
    · exact ⟨false,n,scanNumber_numeral false numeral,rfl⟩
    · exact ⟨false,n,scanNumber_plus numeral,rfl⟩
    · exact ⟨true,n,scanNumber_numeral true numeral,rfl⟩

theorem SignedNumeral.begins {s : Bytes} {value : Int} (signed : SignedNumeral s value) :
    s ≠ [] ∧ isspace (s.headD 0) = false := by
  obtain ⟨digits,n,numeral,⟨rfl,-⟩ | ⟨rfl,-⟩ | ⟨rfl,-⟩⟩ := signed
  · obtain ⟨c,rest,rfl,decimal⟩ := numeral_head numeral
    exact ⟨List.cons_ne_nil _ _,(isdigit_other decimal).1⟩
  · exact ⟨List.cons_ne_nil _ _,rfl⟩
  · exact ⟨List.cons_ne_nil _ _,rfl⟩

/-- `strtoll` ends inside the range at the end of the text. -/
theorem strtoll_eq_iff {s : Bytes} (some : s ≠ []) (value : Int) : strtoll s = (value,s.length,false) ↔
    (-2^63 ≤ value ∧ value < 2^63) ∧ ∃ negative magnitude, scanNumber s = Option.some (negative,magnitude,s.length) ∧
      (if negative then -(magnitude : Int) else magnitude) = value := by
  have long := List.length_pos_of_ne_nil some
  unfold strtoll
  cases scanned : scanNumber s with
  | none =>
    constructor
    · intro same
      rw [Prod.mk.injEq,Prod.mk.injEq] at same
      omega
    · rintro ⟨_,_,_,wrong,_⟩
      exact absurd wrong (by simp)
  | some number =>
    obtain ⟨negative,magnitude,endptr⟩ := number
    simp only [Option.some.injEq,Prod.mk.injEq]
    generalize signed : (if negative = true then -(magnitude : Int) else magnitude) = found
    constructor
    · intro same
      split at same
      · exact absurd same (by simp)
      · split at same
        · exact absurd same (by simp)
        · simp only [Prod.mk.injEq,and_true] at same
          exact ⟨by omega,negative,magnitude,⟨rfl,rfl,same.2⟩,by rw [signed,same.1]⟩
    · rintro ⟨range,_,_,⟨rfl,rfl,ended⟩,same⟩
      have value_eq : found = value := signed.symm.trans same
      rw [if_neg (by omega),if_neg (by omega),value_eq,ended]

theorem stringToInt64_eq_iff (s : Bytes) (value : Int64) :
    stringToInt64 s = (true,value) ↔ SignedNumeral s value.toInt := by
  have lower := value.le_toInt
  have upper := value.toInt_lt
  constructor
  · intro converted
    simp only [stringToInt64,Prod.mk.injEq,Bool.and_eq_true,Bool.not_eq_true',List.isEmpty_eq_false_iff,beq_iff_eq] at converted
    obtain ⟨⟨⟨⟨inRange,some⟩,ended⟩,text⟩,same⟩ := converted
    have number : strtoll s = ((strtoll s).1,s.length,false) := by
      rw [ended]
      exact Prod.ext rfl (Prod.ext rfl inRange)
    obtain ⟨range,scanned⟩ := (strtoll_eq_iff some _).mp number
    have value_eq : value.toInt = (strtoll s).1 := by
      rw [← same]
      exact Int64.toInt_ofInt_of_le range.1 range.2
    rw [value_eq]
    exact (scan_signed _ text).mp scanned
  · intro signed
    obtain ⟨some,text⟩ := signed.begins
    have number := (strtoll_eq_iff some _).mpr ⟨⟨by omega,by omega⟩,(scan_signed _ text).mpr signed⟩
    have filled : s.isEmpty = false := List.isEmpty_eq_false_iff.mpr some
    simp only [stringToInt64,number,filled,text,Bool.not_false,beq_self_eq_true,Bool.and_self,Int64.ofInt_toInt]

/-! `StringToUint64` asks only whether the string is empty. -/

/-- True for the numerals that fit and for nothing else, and then their value. -/
def Checked (s : Bytes) : Prop := ∀ value, stringToUint64 s = some value ↔ Numeral s value.toNat

theorem strtoull_numeral {s : Bytes} {n : Nat} (numeral : Numeral s n) (small : n < 2^64) : strtoull s = n := by
  have scanned := scanNumber_numeral false numeral
  change scanNumber s = some (false,n,s.length) at scanned
  simp only [strtoull,scanned,if_neg (not_le.mpr small),Bool.false_eq_true,if_false]

theorem checked_iff (s : Bytes) : (∀ value, stringToInt64 s = (true,value) ↔ SignedNumeral s value.toInt) ∧
    (Checked s ↔ s = [] ∨ ∃ value : UInt64, Numeral s value.toNat) := by
  refine ⟨stringToInt64_eq_iff s,?_,?_⟩
  · intro checked
    by_cases empty : s = []
    · exact .inl empty
    · have taken : stringToUint64 s = some (UInt64.ofNat (strtoull s)) := by
        rw [stringToUint64,if_neg (by simpa using empty)]
      exact .inr ⟨_,(checked _).mp taken⟩
  · rintro (rfl | ⟨value,numeral⟩) other
    · constructor
      · intro wrong
        exact absurd wrong (by simp [stringToUint64])
      · intro numeral
        exact absurd rfl numeral.nonempty
    · have filled : s.isEmpty = false := List.isEmpty_eq_false_iff.mpr numeral.nonempty
      have converted : stringToUint64 s = some value := by
        simp only [stringToUint64,filled,Bool.false_eq_true,if_false,strtoull_numeral numeral value.toNat_lt,
          UInt64.ofNat_toNat]
      rw [converted,Option.some.injEq]
      constructor
      · rintro rfl
        exact numeral
      · intro numeral'
        exact UInt64.toNat_inj.mp (numeral.value.symm.trans numeral'.value)

/-- `abc` is taken for the number 0. -/
theorem letters_not_checked : ¬Checked [97,98,99] := by
  intro checked
  have numeral := (checked 0).mp rfl
  exact absurd numeral.decimal (by decide)

end WebSearch.StringUtil
