import WebSearch.Base.Bytes
import Mathlib.Data.List.TakeWhile

/-! `base/string_util.cc`: numbers to strings and back. `strtoll` and `strtoull`
follow the C standard in base 10: leading white space, one sign, digits, and the
nearest representable value when the number is out of range. -/
namespace WebSearch.StringUtil

def digit (n : Nat) : UInt8 := UInt8.ofNat (n % 10 + 48)
def minus : UInt8 := 45
def plus : UInt8 := 43

def isdigit (c : UInt8) : Bool := 48 ≤ c && c ≤ 57
def isspace (c : UInt8) : Bool := c == 32 || (9 ≤ c && c ≤ 13)

/-- The loop of `IntToStringT::IntToString`, from the position of `it` in `outbuf`
and what is written behind it. The flag tells that every `DCHECK` has held. -/
def writeDigits (isNeg : Bool) : Nat → Nat → Bytes → Bytes × Bool
  | 0, _, written => (written,false)
  | it + 1, res, written =>
    let inside := it != 0
    let written := digit res :: written
    let res := res / 10
    if res = 0 then
      if isNeg then (minus :: written,inside && it - 1 != 0) else (written,inside)
    else
      let (written,rest) := writeDigits isNeg it res written
      (written,inside && rest)

/-- `IntToString` for a type of `size` bytes; the absolute value is taken modulo
two to the width of the type. -/
def intToString (size : Nat) (value : Int) : Bytes :=
  let res := ((if value < 0 then -value else value) % 2^(8 * size)).toNat
  (writeDigits (decide (value < 0)) (3 * size + 1) res []).1

def int64ToString (value : Int64) : Bytes := intToString 8 value.toInt
def uint64ToString (value : UInt64) : Bytes := intToString 8 value.toNat

def decimalValue (digits : Bytes) : Nat := digits.foldl (fun n c => 10 * n + (c.toNat - 48)) 0

/-- Sign, magnitude and end of the number that a string begins with. -/
def scanNumber (s : Bytes) : Option (Bool × Nat × Nat) :=
  let spaces := (s.takeWhile isspace).length
  let rest := s.drop spaces
  let negative := rest.head? == some minus
  let sign := if negative || rest.head? == some plus then 1 else 0
  let digits := (rest.drop sign).takeWhile isdigit
  if digits.isEmpty then none else some (negative,decimalValue digits,spaces + sign + digits.length)

/-- The value, the end of the number, and whether `errno` is `ERANGE`. -/
def strtoll (s : Bytes) : Int × Nat × Bool :=
  match scanNumber s with
  | none => (0,0,false)
  | some (negative,magnitude,endptr) =>
    let value : Int := if negative then -magnitude else magnitude
    if value < -2^63 then (-2^63,endptr,true)
    else if 2^63 ≤ value then (2^63 - 1,endptr,true)
    else (value,endptr,false)

def strtoull (s : Bytes) : Nat :=
  match scanNumber s with
  | none => 0
  | some (negative,magnitude,_) =>
    if 2^64 ≤ magnitude then 2^64 - 1
    else if negative then (2^64 - magnitude) % 2^64
    else magnitude

/-- `StringToNumber` with `StringToInt64Traits`: the result and `*output`. -/
def stringToInt64 (input : Bytes) : Bool × Int64 :=
  let (value,endptr,outOfRange) := strtoll input
  (!outOfRange && !input.isEmpty && input.length == endptr && !isspace (input.headD 0),Int64.ofInt value)

/-- `none` when the function returns false and leaves `*out` alone. -/
def stringToUint64 (value : Bytes) : Option UInt64 :=
  if value.isEmpty then none else some (UInt64.ofNat (strtoull value))

theorem isdigit_digit (n : Nat) : isdigit (digit n) = true ∧ (digit n).toNat - 48 = n % 10 := by
  have small : n % 10 < 10 := Nat.mod_lt _ (by decide)
  unfold digit
  generalize n % 10 = d at small
  revert d
  decide

theorem decimalValue_concat (digits : Bytes) (n : Nat) :
    decimalValue (digits ++ [digit n]) = 10 * decimalValue digits + n % 10 := by
  simp only [decimalValue,List.foldl_append,List.foldl_cons,List.foldl_nil,(isdigit_digit n).2]

/-- A numeral of the number: digits only, at least one. -/
structure Numeral (digits : Bytes) (n : Nat) : Prop where
  nonempty : digits ≠ []
  decimal : digits.all isdigit = true
  value : decimalValue digits = n

/-- The numeral that does not begin with a superfluous zero. -/
structure Canonical (digits : Bytes) (n : Nat) : Prop extends Numeral digits n where
  leading : digits.head? = some (digit 0) → n = 0 ∧ digits = [digit 0]

def signOf (isNeg : Bool) : Bytes := if isNeg then [minus] else []

theorem numeral_digit {n : Nat} (single : n / 10 = 0) : Numeral [digit n] n := by
  refine ⟨by simp,by simp [isdigit_digit],?_⟩
  have value := decimalValue_concat [] n
  have zero : decimalValue [] = 0 := rfl
  rw [List.nil_append,zero] at value
  omega

theorem numeral_concat {digits : Bytes} {n : Nat} (numeral : Numeral digits (n / 10)) :
    Numeral (digits ++ [digit n]) n := by
  refine ⟨by simp,?_,?_⟩
  · rw [List.all_append,numeral.decimal]
    simp [isdigit_digit]
  · rw [decimalValue_concat,numeral.value]
    omega

theorem digit_eq_zero_iff (n : Nat) : digit n = digit 0 ↔ n % 10 = 0 := by
  constructor
  · intro same
    have value := (isdigit_digit n).2
    rw [same,(isdigit_digit 0).2] at value
    exact value.symm
  · intro zero
    unfold digit
    rw [zero]

theorem canonical_digit {n : Nat} (single : n / 10 = 0) : Canonical [digit n] n := by
  refine ⟨numeral_digit single,?_⟩
  intro leading
  have zero := (digit_eq_zero_iff n).mp (Option.some.inj leading)
  have none : n = 0 := by omega
  exact ⟨none,by rw [none]⟩

theorem canonical_concat {digits : Bytes} {n : Nat} (longer : n / 10 ≠ 0) (canonical : Canonical digits (n / 10)) :
    Canonical (digits ++ [digit n]) n := by
  refine ⟨numeral_concat canonical.toNumeral,?_⟩
  intro leading
  rw [List.head?_append_of_ne_nil _ canonical.nonempty] at leading
  exact absurd (canonical.leading leading).1 longer

/-- The loop writes the sign and the numeral in front of what was written before, and
the buffer is long enough. -/
theorem writeDigits_eq (isNeg : Bool) (it width res : Nat) (written : Bytes) (small : res < 10^(width + 1))
    (room : width + 2 < it) : ∃ digits, Canonical digits res ∧
      writeDigits isNeg it res written = (signOf isNeg ++ (digits ++ written),true) := by
  induction width generalizing it res written with
  | zero =>
    obtain ⟨it,rfl⟩ : ∃ rest, it = rest + 1 := ⟨it - 1,by omega⟩
    have single : res / 10 = 0 := Nat.div_eq_of_lt small
    refine ⟨[digit res],canonical_digit single,?_⟩
    have first : it ≠ 0 := by omega
    have second : it - 1 ≠ 0 := by omega
    cases isNeg <;> simp [writeDigits,signOf,single,first,second]
  | succ width ih =>
    obtain ⟨it,rfl⟩ : ∃ rest, it = rest + 1 := ⟨it - 1,by omega⟩
    have first : it ≠ 0 := by omega
    have second : it - 1 ≠ 0 := by omega
    by_cases single : res / 10 = 0
    · refine ⟨[digit res],canonical_digit single,?_⟩
      cases isNeg <;> simp [writeDigits,signOf,single,first,second]
    · have smaller : res / 10 < 10^(width + 1) := by
        rw [Nat.pow_succ] at small
        exact Nat.div_lt_of_lt_mul (by omega)
      obtain ⟨digits,canonical,same⟩ := ih it (res / 10) (digit res :: written) smaller (by omega)
      refine ⟨digits ++ [digit res],canonical_concat single canonical,?_⟩
      simp only [writeDigits,single,if_false,same,List.append_assoc,List.singleton_append]
      simp [first]

theorem isdigit_other {c : UInt8} (decimal : isdigit c = true) : isspace c = false ∧ c ≠ minus ∧ c ≠ plus := by
  simp only [isdigit,Bool.and_eq_true,decide_eq_true_eq,UInt8.le_iff_toNat_le,UInt8.toNat_ofNat] at decimal
  refine ⟨?_,?_,?_⟩
  · simp only [isspace,Bool.or_eq_false_iff,Bool.and_eq_false_iff,beq_eq_false_iff_ne,decide_eq_false_iff_not,
      UInt8.le_iff_toNat_le,UInt8.toNat_ofNat,ne_eq,← UInt8.toNat_inj]
    omega
  · intro same
    exact absurd decimal (by rw [same]; decide)
  · intro same
    exact absurd decimal (by rw [same]; decide)

theorem scanNumber_numeral {digits : Bytes} {n : Nat} (isNeg : Bool) (numeral : Numeral digits n) :
    scanNumber (signOf isNeg ++ digits) = some (isNeg,n,(signOf isNeg ++ digits).length) := by
  obtain ⟨c,rest,rfl⟩ := List.exists_cons_of_ne_nil numeral.nonempty
  have head : isdigit c = true := List.all_eq_true.mp numeral.decimal c List.mem_cons_self
  obtain ⟨notSpace,notMinus,notPlus⟩ := isdigit_other head
  have whole : (c :: rest).takeWhile isdigit = c :: rest := by
    rw [List.takeWhile_eq_self_iff]
    exact fun d member => List.all_eq_true.mp numeral.decimal d member
  cases isNeg with
  | false => simp [scanNumber,signOf,notSpace,notMinus,notPlus,whole,numeral.value]
  | true =>
    have space : isspace minus = false := by decide
    simp [scanNumber,signOf,space,whole,numeral.value,Nat.add_comm]

theorem intToString_numeral (value : Int) (lower : -2^63 ≤ value) (upper : value < 2^64) :
    ∃ digits, Numeral digits value.natAbs ∧ intToString 8 value = signOf (decide (value < 0)) ++ digits := by
  have res : ((if value < 0 then -value else value) % 2^(8 * 8)).toNat = value.natAbs := by
    split <;> omega
  have small : value.natAbs < 10^(19 + 1) := by omega
  obtain ⟨digits,canonical,same⟩ := writeDigits_eq (decide (value < 0)) 25 19 value.natAbs [] small (by decide)
  refine ⟨digits,canonical.toNumeral,?_⟩
  simp only [intToString,res,same,List.append_nil]

theorem intToString_noNul (value : Int) (lower : -2^63 ≤ value) (upper : value < 2^64) : 0 ∉ intToString 8 value := by
  obtain ⟨digits,numeral,text⟩ := intToString_numeral value lower upper
  intro member
  rw [text,List.mem_append] at member
  obtain sign | decimal := member
  · unfold signOf at sign
    split at sign
    · exact absurd (List.mem_singleton.mp sign) (by decide)
    · exact List.not_mem_nil sign
  · exact absurd (List.all_eq_true.mp numeral.decimal 0 decimal) (by decide)

theorem stringToInt64_int64ToString (value : Int64) : stringToInt64 (int64ToString value) = (true,value) := by
  have lower := value.le_toInt
  have upper := value.toInt_lt
  obtain ⟨digits,numeral,text⟩ := intToString_numeral value.toInt (by omega) (by omega)
  obtain ⟨c,rest,rfl⟩ := List.exists_cons_of_ne_nil numeral.nonempty
  have signed : (if decide (value.toInt < 0) = true then -(value.toInt.natAbs : Int) else value.toInt.natAbs) =
      value.toInt := by
    by_cases negative : value.toInt < 0
    · rw [decide_eq_true negative,if_pos rfl]
      omega
    · rw [decide_eq_false negative,if_neg Bool.false_ne_true]
      omega
  have scanned : strtoll (int64ToString value) = (value.toInt,(int64ToString value).length,false) := by
    have below : ¬value.toInt < -2^63 := by omega
    have above : ¬(2^63 : Int) ≤ value.toInt := by omega
    rw [int64ToString,text]
    simp only [strtoll,scanNumber_numeral _ numeral,signed,below,above,if_false]
  have head : isspace ((int64ToString value).headD 0) = false := by
    have first : isdigit c = true := List.all_eq_true.mp numeral.decimal c List.mem_cons_self
    rw [int64ToString,text]
    cases decide (value.toInt < 0) with
    | true => rfl
    | false => exact (isdigit_other first).1
  have nonempty : (int64ToString value).isEmpty = false := by
    rw [int64ToString,text]
    cases decide (value.toInt < 0) <;> rfl
  simp only [stringToInt64,scanned,head,nonempty,Bool.not_false,beq_self_eq_true,Bool.and_self,Int64.ofInt_toInt]

theorem stringToUint64_uint64ToString (value : UInt64) : stringToUint64 (uint64ToString value) = some value := by
  have upper := value.toNat_lt
  obtain ⟨digits,numeral,text⟩ := intToString_numeral value.toNat (by omega) (by omega)
  have positive : decide ((value.toNat : Int) < 0) = false := by simp
  rw [positive] at text
  have scanned : strtoull (uint64ToString value) = value.toNat := by
    have inside : ¬2^64 ≤ value.toNat := by omega
    rw [uint64ToString,text]
    simp only [strtoull,scanNumber_numeral _ numeral,Int.natAbs_natCast,inside,if_false,Bool.false_eq_true]
  have nonempty : (uint64ToString value).isEmpty = false := by
    rw [uint64ToString,text]
    simpa [signOf] using numeral.nonempty
  simp only [stringToUint64,scanned,nonempty,Bool.false_eq_true,if_false,UInt64.ofNat_toNat]

end WebSearch.StringUtil
