import WebSearch.Base.Bytes

/-! `base/utf.cc`: runes as sequences of bytes. A string is what can be read of it, with
its terminator; to read further is none. -/
namespace WebSearch.Utf

def bitx : Nat := 6
def tx : Nat := 0x80
def t2 : Nat := 0xC0
def t3 : Nat := 0xE0
def t4 : Nat := 0xF0
def t5 : Nat := 0xF8
def rune1 : Nat := 0x7F
def rune2 : Nat := 0x7FF
def rune3 : Nat := 0xFFFF
def rune4 : Nat := 0x1FFFFF
def maskx : Nat := 0x3F
def testx : Nat := 0xC0
def runeself : Nat := 0x80
def runesync : Int := 0x80
def runeerror : Nat := 0xFFFD
def runemax : Nat := 0x10FFFF

/-- The rune, and how many bytes it takes. -/
def chartorune (str : Bytes) : Option (Nat × Nat) := do
  let c := (← str[0]?).toNat
  if c < tx then return (c,1)
  let c1 := (← str[1]?).toNat ^^^ tx
  if c1 &&& testx ≠ 0 then return (runeerror,1)
  if c < t3 then
    if c < t2 then return (runeerror,1)
    let l := ((c <<< bitx) ||| c1) &&& rune2
    if l ≤ rune1 then return (runeerror,1)
    return (l,2)
  let c2 := (← str[2]?).toNat ^^^ tx
  if c2 &&& testx ≠ 0 then return (runeerror,1)
  if c < t4 then
    let l := ((((c <<< bitx) ||| c1) <<< bitx) ||| c2) &&& rune3
    if l ≤ rune2 then return (runeerror,1)
    return (l,3)
  let c3 := (← str[3]?).toNat ^^^ tx
  if c3 &&& testx ≠ 0 then return (runeerror,1)
  if c < t5 then
    let l := ((((((c <<< bitx) ||| c1) <<< bitx) ||| c2) <<< bitx) ||| c3) &&& rune4
    if l ≤ rune3 then return (runeerror,1)
    return (l,4)
  return (runeerror,1)

def char (c : Nat) : UInt8 := UInt8.ofNat c

/-- The bytes written; a negative rune is a large number. -/
def runetochar (rune : Int) : Bytes :=
  let c := (rune % 2 ^ 64).toNat
  if c ≤ rune1 then [char c]
  else if c ≤ rune2 then [char (t2 ||| (c >>> bitx)),char (tx ||| (c &&& maskx))]
  else
    let c := if runemax < c then runeerror else c
    if c ≤ rune3 then
      [char (t3 ||| (c >>> (2 * bitx))),char (tx ||| ((c >>> bitx) &&& maskx)),char (tx ||| (c &&& maskx))]
    else
      [char (t4 ||| (c >>> (3 * bitx))),char (tx ||| ((c >>> (2 * bitx)) &&& maskx)),
        char (tx ||| ((c >>> bitx) &&& maskx)),char (tx ||| (c &&& maskx))]

def fullrune (str : Bytes) (n : Int) : Option Nat := do
  if 0 < n then
    let c := (← str[0]?).toNat
    if c < tx then return 1
    if 1 < n then
      if c < t3 then return 1
      if 2 < n then
        if c < t4 ∨ 3 < n then return 1
  return 0

/-- The number is a `long`, and an `int` in the end. -/
def utflenLoop : Nat → Bytes → Nat → Option Int
  | 0, _, _ => none
  | fuel + 1, s, n => do
    let c := (← s[0]?).toNat
    if c < runeself then
      if c = 0 then return toInt32 n
      utflenLoop fuel (s.drop 1) (n + 1)
    else
      let decoded ← chartorune s
      utflenLoop fuel (s.drop decoded.2) (n + 1)

def utflen (s : Bytes) : Option Int := utflenLoop s.length s 0

/-- Where the character is, the terminator included, or nowhere. -/
def strchr (c : UInt8) : Bytes → Nat → Option (Option Nat)
  | [], _ => none
  | b :: s, i => if b = c then some (some i) else if b = 0 then some none else strchr c s (i + 1)

def utfruneLoop (c : Int) : Nat → Bytes → Nat → Option (Option Nat)
  | 0, _, _ => none
  | fuel + 1, s, i => do
    let c1 := (← s[0]?).toNat
    if c1 < runeself then
      if c1 = 0 then return none
      if c1 = c then return some i
      utfruneLoop c fuel (s.drop 1) (i + 1)
    else
      let decoded ← chartorune s
      if decoded.1 = c then return some i
      utfruneLoop c fuel (s.drop decoded.2) (i + decoded.2)

/-- A rune as the `char` that `strchr` looks for. -/
def lowByte (c : Int) : UInt8 := UInt8.ofNat (c % 256).toNat

def utfrune (s : Bytes) (c : Int) : Option (Option Nat) :=
  if c < runesync then strchr (lowByte c) s 0 else utfruneLoop c s.length s 0

/-! Bits. -/

theorem shift_or {a b : Nat} (small : b < 64) : (a <<< bitx) ||| b = a * 64 + b := by
  rw [bitx,← Nat.shiftLeft_add_eq_or_of_lt small,Nat.shiftLeft_eq]

/-- What follows in a sequence: two bits that say so, and six of the rune. -/
def Follows (b : UInt8) : Prop := 128 ≤ b.toNat ∧ b.toNat < 192

instance followsDecidable (b : UInt8) : Decidable (Follows b) := inferInstanceAs (Decidable (_ ∧ _))

theorem test_iff (b : UInt8) : (b.toNat ^^^ tx) &&& testx ≠ 0 ↔ ¬Follows b := by
  have all : ∀ n < 256, (n ^^^ 0x80) &&& 0xC0 ≠ 0 ↔ ¬(128 ≤ n ∧ n < 192) := by decide +kernel
  exact all b.toNat b.toNat_lt

def bits (b : UInt8) : Nat := b.toNat - 128

theorem xor_tx {b : UInt8} (follows : Follows b) : b.toNat ^^^ tx = bits b := by
  have all : ∀ n < 192, 128 ≤ n → n ^^^ 0x80 = n - 128 := by decide +kernel
  exact all b.toNat follows.2 follows.1

theorem bits_lt {b : UInt8} (follows : Follows b) : bits b < 64 := by
  obtain ⟨lower,upper⟩ := follows
  unfold bits
  omega

section Reading
variable {b b1 b2 b3 : UInt8} {s : Bytes}

theorem chartorune_one (small : b.toNat < 128) : chartorune (b :: s) = some (b.toNat,1) := by
  have here : b.toNat < tx := small
  simp only [chartorune,List.getElem?_cons_zero,Option.bind_eq_bind,Option.bind_some,here,if_true]
  rfl

variable (large : 128 ≤ b.toNat)
include large

theorem chartorune_bad (other : ¬Follows b1) : chartorune (b :: b1 :: s) = some (runeerror,1) := by
  have here : ¬b.toNat < tx := not_lt.mpr large
  simp only [chartorune,List.getElem?_cons_zero,List.getElem?_cons_succ,Option.bind_eq_bind,Option.bind_some,here,if_false,
    test_iff,other,not_false_eq_true,if_true]
  rfl

variable (first : Follows b1)
include first

theorem chartorune_two (two : b.toNat < 224) : chartorune (b :: b1 :: s) =
    some (if b.toNat < t2 ∨ (b.toNat * 64 + bits b1) % 2 ^ 11 ≤ rune1 then (runeerror,1)
      else ((b.toNat * 64 + bits b1) % 2 ^ 11,2)) := by
  have here : ¬b.toNat < tx := not_lt.mpr large
  have upper : b.toNat < t3 := two
  have value : (b.toNat <<< bitx ||| (b1.toNat ^^^ tx)) &&& rune2 = (b.toNat * 64 + bits b1) % 2 ^ 11 := by
    rw [xor_tx first,shift_or (bits_lt first)]
    exact Nat.and_two_pow_sub_one_eq_mod _ 11
  simp only [chartorune,List.getElem?_cons_zero,List.getElem?_cons_succ,Option.bind_eq_bind,Option.bind_some,here,if_false,
    test_iff,first,not_true_eq_false,upper,if_true,value]
  by_cases lower : b.toNat < t2
  · rw [if_pos lower,if_pos (Or.inl lower)]
    rfl
  · by_cases short : (b.toNat * 64 + bits b1) % 2 ^ 11 ≤ rune1
    · rw [if_neg lower,if_pos short,if_pos (Or.inr short)]
      rfl
    · rw [if_neg lower,if_neg short,if_neg (not_or.mpr ⟨lower,short⟩)]
      rfl

theorem chartorune_bad_third (three : 224 ≤ b.toNat) (other : ¬Follows b2) :
    chartorune (b :: b1 :: b2 :: s) = some (runeerror,1) := by
  have here : ¬b.toNat < tx := not_lt.mpr large
  have upper : ¬b.toNat < t3 := not_lt.mpr three
  simp only [chartorune,List.getElem?_cons_zero,List.getElem?_cons_succ,Option.bind_eq_bind,Option.bind_some,here,if_false,
    test_iff,first,not_true_eq_false,upper,other,not_false_eq_true,if_true]
  rfl

variable (second : Follows b2)
include second

theorem chartorune_three (three : 224 ≤ b.toNat) (upper : b.toNat < 240) : chartorune (b :: b1 :: b2 :: s) =
    some (if ((b.toNat * 64 + bits b1) * 64 + bits b2) % 2 ^ 16 ≤ rune2 then (runeerror,1)
      else (((b.toNat * 64 + bits b1) * 64 + bits b2) % 2 ^ 16,3)) := by
  have here : ¬b.toNat < tx := not_lt.mpr large
  have not_two : ¬b.toNat < t3 := not_lt.mpr three
  have before : b.toNat < t4 := upper
  have value : ((b.toNat <<< bitx ||| (b1.toNat ^^^ tx)) <<< bitx ||| (b2.toNat ^^^ tx)) &&& rune3 =
      ((b.toNat * 64 + bits b1) * 64 + bits b2) % 2 ^ 16 := by
    rw [xor_tx first,xor_tx second,shift_or (bits_lt first),shift_or (bits_lt second)]
    exact Nat.and_two_pow_sub_one_eq_mod _ 16
  simp only [chartorune,List.getElem?_cons_zero,List.getElem?_cons_succ,Option.bind_eq_bind,Option.bind_some,here,if_false,
    test_iff,first,second,not_true_eq_false,not_two,before,if_true,value]
  by_cases short : ((b.toNat * 64 + bits b1) * 64 + bits b2) % 2 ^ 16 ≤ rune2
  · rw [if_pos short,if_pos short]
    rfl
  · rw [if_neg short,if_neg short]
    rfl

theorem chartorune_bad_fourth (four : 240 ≤ b.toNat) (other : ¬Follows b3) :
    chartorune (b :: b1 :: b2 :: b3 :: s) = some (runeerror,1) := by
  have here : ¬b.toNat < tx := not_lt.mpr large
  have not_two : ¬b.toNat < t3 := by
    unfold t3
    omega
  have not_three : ¬b.toNat < t4 := not_lt.mpr four
  simp only [chartorune,List.getElem?_cons_zero,List.getElem?_cons_succ,Option.bind_eq_bind,Option.bind_some,here,if_false,
    test_iff,first,second,not_true_eq_false,not_two,not_three,other,not_false_eq_true,if_true]
  rfl

theorem chartorune_four (four : 240 ≤ b.toNat) (third : Follows b3) : chartorune (b :: b1 :: b2 :: b3 :: s) =
    some (if t5 ≤ b.toNat ∨ (((b.toNat * 64 + bits b1) * 64 + bits b2) * 64 + bits b3) % 2 ^ 21 ≤ rune3 then (runeerror,1)
      else ((((b.toNat * 64 + bits b1) * 64 + bits b2) * 64 + bits b3) % 2 ^ 21,4)) := by
  have here : ¬b.toNat < tx := not_lt.mpr large
  have not_two : ¬b.toNat < t3 := by
    unfold t3
    omega
  have not_three : ¬b.toNat < t4 := not_lt.mpr four
  have value : (((b.toNat <<< bitx ||| (b1.toNat ^^^ tx)) <<< bitx ||| (b2.toNat ^^^ tx)) <<< bitx ||| (b3.toNat ^^^ tx)) &&&
      rune4 = (((b.toNat * 64 + bits b1) * 64 + bits b2) * 64 + bits b3) % 2 ^ 21 := by
    rw [xor_tx first,xor_tx second,xor_tx third,shift_or (bits_lt first),shift_or (bits_lt second),shift_or (bits_lt third)]
    exact Nat.and_two_pow_sub_one_eq_mod _ 21
  simp only [chartorune,List.getElem?_cons_zero,List.getElem?_cons_succ,Option.bind_eq_bind,Option.bind_some,here,if_false,
    test_iff,first,second,third,not_true_eq_false,not_two,not_three,value]
  by_cases upper : b.toNat < t5
  · by_cases short : (((b.toNat * 64 + bits b1) * 64 + bits b2) * 64 + bits b3) % 2 ^ 21 ≤ rune3
    · rw [if_pos upper,if_pos short,if_pos (Or.inr short)]
      rfl
    · rw [if_pos upper,if_neg short,if_neg (not_or.mpr ⟨not_le.mpr upper,short⟩)]
      rfl
  · rw [if_neg upper,if_pos (Or.inl (not_lt.mp upper))]
    rfl

end Reading

/-! Runes written and read. -/

theorem char_toNat {n : Nat} (small : n < 256) : (char n).toNat = n := UInt8.toNat_ofNat_of_lt small

def follower (n : Nat) : UInt8 := char (128 + n % 2 ^ 6)

theorem follower_toNat (n : Nat) : (follower n).toNat = 128 + n % 2 ^ 6 := char_toNat (by omega)

theorem follows_follower (n : Nat) : Follows (follower n) := by
  rw [Follows,follower_toNat]
  omega

theorem bits_follower (n : Nat) : bits (follower n) = n % 2 ^ 6 := by
  have value := follower_toNat n
  unfold bits
  omega

theorem follower_eq (n : Nat) : char (tx ||| (n &&& maskx)) = follower n := by
  have low : n &&& maskx = n % 2 ^ 6 := Nat.and_two_pow_sub_one_eq_mod n 6
  have tagged : tx ||| n % 2 ^ 6 = 128 + n % 2 ^ 6 :=
    (Nat.shiftLeft_add_eq_or_of_lt (by omega : n % 2 ^ 6 < 2 ^ 6) 2).symm
  rw [low,tagged,follower]

theorem shift_six (c : Nat) : c >>> bitx = c / 64 := Nat.shiftRight_eq_div_pow c 6

theorem shift_twelve (c : Nat) : c >>> (2 * bitx) = c / 4096 := Nat.shiftRight_eq_div_pow c 12

theorem shift_eighteen (c : Nat) : c >>> (3 * bitx) = c / 262144 := Nat.shiftRight_eq_div_pow c 18

theorem runetochar_eq {r : Nat} (le : r ≤ 0x10FFFF) : runetochar r =
    if r ≤ 0x7F then [char r]
    else if r ≤ 0x7FF then [char (192 + r / 64),follower r]
    else if r ≤ 0xFFFF then [char (224 + r / 4096),follower (r / 64),follower r]
    else [char (240 + r / 262144),follower (r / 4096),follower (r / 64),follower r] := by
  have long : ((r : Int) % 2 ^ 64).toNat = r := by omega
  have within : ¬runemax < r := not_lt.mpr le
  simp only [runetochar,long,within,if_false,follower_eq,shift_six,shift_twelve,shift_eighteen]
  by_cases one : r ≤ 0x7F
  · rw [if_pos one]
    exact if_pos one
  · by_cases two : r ≤ 0x7FF
    · have tagged : t2 ||| r / 64 = 192 + r / 64 :=
        (Nat.shiftLeft_add_eq_or_of_lt (by omega : r / 64 < 2 ^ 6) 3).symm
      rw [if_neg one,if_pos two,← tagged]
      exact (if_neg one).trans (if_pos two)
    · by_cases three : r ≤ 0xFFFF
      · have tagged : t3 ||| r / 4096 = 224 + r / 4096 :=
          (Nat.shiftLeft_add_eq_or_of_lt (by omega : r / 4096 < 2 ^ 5) 7).symm
        rw [if_neg one,if_neg two,if_pos three,← tagged]
        exact (if_neg one).trans ((if_neg two).trans (if_pos three))
      · have tagged : t4 ||| r / 262144 = 240 + r / 262144 :=
          (Nat.shiftLeft_add_eq_or_of_lt (by omega : r / 262144 < 2 ^ 4) 15).symm
        rw [if_neg one,if_neg two,if_neg three,← tagged]
        exact (if_neg one).trans ((if_neg two).trans (if_neg three))

theorem chartorune_runetochar {r : Nat} (le : r ≤ 0x10FFFF) (rest : Bytes) :
    chartorune (runetochar r ++ rest) = some (r,(runetochar r).length) := by
  rw [runetochar_eq le]
  by_cases one : r ≤ 0x7F
  · have first := char_toNat (by omega : r < 256)
    rw [if_pos one]
    exact (chartorune_one (by omega)).trans (by rw [first]; rfl)
  · by_cases two : r ≤ 0x7FF
    · have first := char_toNat (by omega : 192 + r / 64 < 256)
      have good : ¬(192 + r / 64 < t2 ∨ r ≤ rune1) := by
        unfold t2 rune1
        omega
      have value : ((192 + r / 64) * 64 + r % 2 ^ 6) % 2 ^ 11 = r := by omega
      rw [if_neg one,if_pos two]
      refine (chartorune_two (by omega) (follows_follower _) (by omega)).trans ?_
      rw [first,bits_follower,value,if_neg good]
      rfl
    · by_cases three : r ≤ 0xFFFF
      · have first := char_toNat (by omega : 224 + r / 4096 < 256)
        have good : ¬r ≤ rune2 := two
        have value : (((224 + r / 4096) * 64 + r / 64 % 2 ^ 6) * 64 + r % 2 ^ 6) % 2 ^ 16 = r := by omega
        rw [if_neg one,if_neg two,if_pos three]
        refine (chartorune_three (by omega) (follows_follower _) (follows_follower _) (by omega) (by omega)).trans ?_
        rw [first,bits_follower,bits_follower,value,if_neg good]
        rfl
      · have first := char_toNat (by omega : 240 + r / 262144 < 256)
        have good : ¬(t5 ≤ 240 + r / 262144 ∨ r ≤ rune3) := by
          unfold t5 rune3
          omega
        have value : ((((240 + r / 262144) * 64 + r / 4096 % 2 ^ 6) * 64 + r / 64 % 2 ^ 6) * 64 + r % 2 ^ 6) % 2 ^ 21 = r := by omega
        rw [if_neg one,if_neg two,if_neg three]
        refine (chartorune_four (by omega) (follows_follower _) (follows_follower _) (by omega) (follows_follower _)).trans ?_
        rw [first,bits_follower,bits_follower,bits_follower,value,if_neg good]
        rfl

end WebSearch.Utf
