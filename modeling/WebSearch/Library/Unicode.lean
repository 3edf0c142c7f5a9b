import Mathlib.Data.List.Basic

/-! Characters as bytes and as 16-bit units. The bytes are `String.utf8EncodeChar`; units
from 0xD800 to 0xDFFF are surrogates, which stand for a character in pairs. -/
namespace WebSearch.Library.Unicode

def utf8 (chars : List Char) : List UInt8 := chars.flatMap String.utf8EncodeChar

@[simp] theorem utf8_nil : utf8 [] = [] := rfl
@[simp] theorem utf8_cons (c : Char) (chars : List Char) : utf8 (c :: chars) = String.utf8EncodeChar c ++ utf8 chars := rfl

theorem utf8_concat (chars : List Char) (c : Char) : utf8 (chars ++ [c]) = utf8 chars ++ String.utf8EncodeChar c := by
  rw [utf8,List.flatMap_append,List.flatMap_singleton]
  rfl

theorem char_range (c : Char) : c.toNat < 0xD800 ∨ 0xDFFF < c.toNat ∧ c.toNat < 0x110000 := c.valid

/-- A byte that is not the first of a character: its value is below 64. -/
def trail (n : Nat) : UInt8 := UInt8.ofNat (0x80 + n % 64)

theorem byte_toNat {n : Nat} (small : n < 256) : (UInt8.ofNat n).toNat = n := UInt8.toNat_ofNat_of_lt small

theorem trail_toNat (n : Nat) : (trail n).toNat = 0x80 + n % 64 := byte_toNat (by omega)

/-- The bytes of a character, by its size. -/
inductive Shape (c : Char) : List UInt8 → Prop
  | one (small : c.toNat < 0x80) : Shape c [UInt8.ofNat c.toNat]
  | two (large : 0x80 ≤ c.toNat) (small : c.toNat < 0x800) : Shape c [UInt8.ofNat (0xC0 + c.toNat / 64),trail c.toNat]
  | three (large : 0x800 ≤ c.toNat) (small : c.toNat < 0x10000) :
    Shape c [UInt8.ofNat (0xE0 + c.toNat / 4096),trail (c.toNat / 64),trail c.toNat]
  | four (large : 0x10000 ≤ c.toNat) (small : c.toNat < 0x110000) :
    Shape c [UInt8.ofNat (0xF0 + c.toNat / 262144),trail (c.toNat / 4096),trail (c.toNat / 64),trail c.toNat]

theorem shape (c : Char) : Shape c (String.utf8EncodeChar c) := by
  have range := char_range c
  change Shape c (if c.toNat ≤ 0x7f then _ else if c.toNat ≤ 0x7ff then _ else if c.toNat ≤ 0xffff then _ else _)
  have low (n : Nat) : n % 64 + 128 = 0x80 + n % 64 := Nat.add_comm ..
  split
  · exact .one (by omega)
  · split
    · have lead : c.toNat / 64 % 32 + 192 = 0xC0 + c.toNat / 64 := by omega
      have bytes := Shape.two (c := c) (by omega) (by omega)
      rw [← lead,trail,← low] at bytes
      exact bytes
    · split
      · have lead : c.toNat / 4096 % 16 + 224 = 0xE0 + c.toNat / 4096 := by omega
        have bytes := Shape.three (c := c) (by omega) (by omega)
        rw [← lead,trail,trail,← low,← low] at bytes
        exact bytes
      · have lead : c.toNat / 262144 % 8 + 240 = 0xF0 + c.toNat / 262144 := by omega
        have bytes := Shape.four (c := c) (by omega) (by omega)
        rw [← lead,trail,trail,trail,← low,← low,← low] at bytes
        exact bytes

/-- A character is read back from its bytes, whatever follows. -/
theorem utf8EncodeChar_inj {c d : Char} {rest : List UInt8}
    (same : String.utf8EncodeChar c ++ rest = String.utf8EncodeChar d) : c = d ∧ rest = [] := by
  have bytes := congrArg List.toByteArray same
  have read := @ByteArray.utf8DecodeChar?_utf8EncodeChar_append rest.toByteArray c
  have other := @ByteArray.utf8DecodeChar?_utf8EncodeChar_append ByteArray.empty d
  rw [List.toByteArray_append] at bytes
  rw [bytes] at read
  rw [ByteArray.append_empty,read] at other
  obtain rfl := Option.some.inj other
  exact ⟨rfl,List.append_right_eq_self.mp same⟩

theorem exists_char {n : Nat} (range : n < 0xD800 ∨ 0xDFFF < n ∧ n < 0x110000) : ∃ c : Char, c.toNat = n := by
  have small : n < UInt32.size := by
    unfold UInt32.size
    omega
  have value : (UInt32.ofNat n).toNat = n := UInt32.toNat_ofNat_of_lt small
  refine ⟨⟨UInt32.ofNat n,?_⟩,value⟩
  change Nat.isValidChar (UInt32.ofNat n).toNat
  rw [value]
  exact range

theorem byte_eq {n : Nat} {b : UInt8} (same : n = b.toNat) : UInt8.ofNat n = b := by rw [same,UInt8.ofNat_toNat]

theorem trail_eq {n : Nat} {b : UInt8} (same : 0x80 + n % 64 = b.toNat) : trail n = b := byte_eq same

/-! The bytes that are a character. -/

section Encoded
variable {b t₁ t₂ t₃ : UInt8} {v : Nat}

theorem encoded_two (lead : 0xC0 ≤ b.toNat ∧ b.toNat < 0xE0) (first : 0x80 ≤ t₁.toNat ∧ t₁.toNat < 0xC0)
    (value : v = b.toNat % 32 * 64 + t₁.toNat % 64) (large : 0x80 ≤ v) : ∃ c, String.utf8EncodeChar c = [b,t₁] := by
  obtain ⟨c,same⟩ := exists_char (by omega : v < 0xD800 ∨ 0xDFFF < v ∧ v < 0x110000)
  refine ⟨c,?_⟩
  have bytes := shape c
  generalize String.utf8EncodeChar c = encoded at bytes
  cases bytes with
  | two _ _ => rw [byte_eq (b := b) (by omega),trail_eq (b := t₁) (by omega)]
  | one | three | four => omega

theorem encoded_three (lead : 0xE0 ≤ b.toNat ∧ b.toNat < 0xF0) (first : 0x80 ≤ t₁.toNat ∧ t₁.toNat < 0xC0)
    (second : 0x80 ≤ t₂.toNat ∧ t₂.toNat < 0xC0) (value : v = (b.toNat % 16 * 64 + t₁.toNat % 64) * 64 + t₂.toNat % 64)
    (large : 0x800 ≤ v) (whole : ¬(0xD800 ≤ v ∧ v < 0xE000)) : ∃ c, String.utf8EncodeChar c = [b,t₁,t₂] := by
  obtain ⟨c,same⟩ := exists_char (by omega : v < 0xD800 ∨ 0xDFFF < v ∧ v < 0x110000)
  refine ⟨c,?_⟩
  have bytes := shape c
  generalize String.utf8EncodeChar c = encoded at bytes
  cases bytes with
  | three _ _ => rw [byte_eq (b := b) (by omega),trail_eq (b := t₁) (by omega),trail_eq (b := t₂) (by omega)]
  | one | two | four => omega

theorem encoded_four (lead : 0xF0 ≤ b.toNat ∧ b.toNat < 0xF8) (first : 0x80 ≤ t₁.toNat ∧ t₁.toNat < 0xC0)
    (second : 0x80 ≤ t₂.toNat ∧ t₂.toNat < 0xC0) (third : 0x80 ≤ t₃.toNat ∧ t₃.toNat < 0xC0)
    (value : v = ((b.toNat % 8 * 64 + t₁.toNat % 64) * 64 + t₂.toNat % 64) * 64 + t₃.toNat % 64)
    (large : 0x10000 ≤ v) (small : v < 0x110000) : ∃ c, String.utf8EncodeChar c = [b,t₁,t₂,t₃] := by
  obtain ⟨c,same⟩ := exists_char (by omega : v < 0xD800 ∨ 0xDFFF < v ∧ v < 0x110000)
  refine ⟨c,?_⟩
  have bytes := shape c
  generalize String.utf8EncodeChar c = encoded at bytes
  cases bytes with
  | four _ _ =>
    rw [byte_eq (b := b) (by omega),trail_eq (b := t₁) (by omega),trail_eq (b := t₂) (by omega),trail_eq (b := t₃) (by omega)]
  | one | two | three => omega

end Encoded

/-- A character begins with the only byte of it that is not a trail. -/
theorem lead_and_trails (c : Char) : ∃ b trails, String.utf8EncodeChar c = b :: trails ∧
    (trails ≠ [] → 0xC0 ≤ b.toNat ∧ b.toNat < 0xF8) ∧ ∀ t ∈ trails, 0x80 ≤ t.toNat ∧ t.toNat < 0xC0 := by
  have range := char_range c
  have bytes := shape c
  generalize String.utf8EncodeChar c = encoded at bytes
  have low (n : Nat) : 0x80 ≤ (trail n).toNat ∧ (trail n).toNat < 0xC0 := by
    rw [trail_toNat]
    omega
  have lead {n : Nat} (value : 0xC0 ≤ n ∧ n < 0xF8) : 0xC0 ≤ (UInt8.ofNat n).toNat ∧ (UInt8.ofNat n).toNat < 0xF8 := by
    rw [byte_toNat (by omega)]
    exact value
  cases bytes with
  | one _ => exact ⟨_,_,rfl,fun some => absurd rfl some,by simp⟩
  | two _ _ => exact ⟨_,_,rfl,fun _ => lead (by omega),by simp [low]⟩
  | three _ _ => exact ⟨_,_,rfl,fun _ => lead (by omega),by simp [low]⟩
  | four _ _ => exact ⟨_,_,rfl,fun _ => lead (by omega),by simp [low]⟩

theorem length_utf8EncodeChar (c : Char) : (String.utf8EncodeChar c).length =
    if c.toNat < 0x80 then 1 else if c.toNat < 0x800 then 2 else if c.toNat < 0x10000 then 3 else 4 := by
  have bytes := shape c
  generalize String.utf8EncodeChar c = encoded at bytes
  cases bytes <;> simp only [List.length_cons,List.length_nil] <;> repeat' split
  all_goals omega

theorem utf8EncodeChar_ne_nil (c : Char) : String.utf8EncodeChar c ≠ [] := by
  obtain ⟨b,trails,bytes,-⟩ := lead_and_trails c
  rw [bytes]
  exact List.cons_ne_nil b trails

/-! The characters that a number of bytes has room for. -/

section Fitting

def fitting (n : Nat) : List Char → List Char
  | [] => []
  | c :: chars =>
    if (String.utf8EncodeChar c).length ≤ n then c :: fitting (n - (String.utf8EncodeChar c).length) chars else []

/-- The first bytes of a character, and not all of them. -/
def Unfinished (cut : List UInt8) : Prop := ∃ c more, more ≠ [] ∧ cut ++ more = String.utf8EncodeChar c

theorem fitting_front (n : Nat) (chars : List Char) : fitting n chars <+: chars := by
  induction chars generalizing n with
  | nil => exact List.prefix_refl []
  | cons c chars ih =>
    rw [fitting]
    split
    · exact List.cons_prefix_cons.mpr ⟨rfl,ih _⟩
    · exact List.nil_prefix

theorem fitting_longest {n : Nat} {chars front : List Char} (part : front <+: chars) (room : (utf8 front).length ≤ n) :
    front <+: fitting n chars := by
  induction chars generalizing n front with
  | nil => exact part
  | cons c chars ih =>
    cases front with
    | nil => exact List.nil_prefix
    | cons d front =>
      obtain ⟨rfl,behind⟩ := List.cons_prefix_cons.mp part
      rw [utf8_cons,List.length_append] at room
      rw [fitting,if_pos (by omega)]
      exact List.cons_prefix_cons.mpr ⟨rfl,ih behind (by omega)⟩

/-- What a cut leaves behind the last whole character is part of one. -/
theorem take_utf8 (n : Nat) (chars : List Char) : ∃ cut, (utf8 chars).take n = utf8 (fitting n chars) ++ cut ∧ Unfinished cut := by
  induction chars generalizing n with
  | nil => exact ⟨[],List.take_nil,'a',_,List.cons_ne_nil _ _,rfl⟩
  | cons c chars ih =>
    rw [fitting,utf8_cons,List.take_append]
    split
    next whole =>
      obtain ⟨cut,rest,unfinished⟩ := ih (n - (String.utf8EncodeChar c).length)
      exact ⟨cut,by rw [List.take_of_length_le whole,rest,utf8_cons,List.append_assoc],unfinished⟩
    next short =>
      have less : n < (String.utf8EncodeChar c).length := Nat.lt_of_not_le short
      have nothing : n - (String.utf8EncodeChar c).length = 0 := by omega
      refine ⟨(String.utf8EncodeChar c).take n,by rw [nothing,List.take_zero,List.append_nil]; rfl,c,_,?_,List.take_append_drop n _⟩
      exact fun empty => absurd (List.drop_eq_nil_iff.mp empty) (Nat.not_le.mpr less)

theorem fitting_length (n : Nat) (chars : List Char) : (utf8 (fitting n chars)).length ≤ n := by
  obtain ⟨cut,taken,-⟩ := take_utf8 n chars
  have width := congrArg List.length taken
  rw [List.length_take,List.length_append] at width
  omega

end Fitting

/-! Units of 16 bits. -/

def utf16EncodeChar (c : Char) : List UInt16 :=
  if c.toNat < 0x10000 then [UInt16.ofNat c.toNat]
  else [UInt16.ofNat (0xD800 + (c.toNat - 0x10000) / 0x400),UInt16.ofNat (0xDC00 + (c.toNat - 0x10000) % 0x400)]

def utf16 (chars : List Char) : List UInt16 := chars.flatMap utf16EncodeChar

@[simp] theorem utf16_nil : utf16 [] = [] := rfl
@[simp] theorem utf16_cons (c : Char) (chars : List Char) : utf16 (c :: chars) = utf16EncodeChar c ++ utf16 chars := rfl

def IsLead (u : UInt16) : Prop := 0xD800 ≤ u.toNat ∧ u.toNat < 0xDC00
def IsTrail (u : UInt16) : Prop := 0xDC00 ≤ u.toNat ∧ u.toNat < 0xE000

instance (u : UInt16) : Decidable (IsLead u) := inferInstanceAs (Decidable (_ ∧ _))
instance (u : UInt16) : Decidable (IsTrail u) := inferInstanceAs (Decidable (_ ∧ _))

/-- A surrogate between its neighbours is part of a pair: a lead with a trail behind it. -/
def Paired (before : Option UInt16) (u : UInt16) (after : Option UInt16) : Prop :=
  (IsLead u → ∃ v ∈ after, IsTrail v) ∧ (IsTrail u → ∃ v ∈ before, IsLead v)

instance (before : Option UInt16) (u : UInt16) (after : Option UInt16) : Decidable (Paired before u after) :=
  inferInstanceAs (Decidable ((_ → _) ∧ (_ → _)))

/-- Every surrogate is part of a pair. -/
def WellPaired (before : Option UInt16) : List UInt16 → Prop
  | [] => True
  | u :: units => Paired before u units.head? ∧ WellPaired (some u) units

instance decidableWellPaired : (before : Option UInt16) → (units : List UInt16) → Decidable (WellPaired before units)
  | _,[] => inferInstanceAs (Decidable True)
  | before,u :: units =>
    have := decidableWellPaired (some u) units
    inferInstanceAs (Decidable (Paired before u units.head? ∧ WellPaired (some u) units))

/-- The unpaired surrogates are replaced. -/
def repaired (before : Option UInt16) : List UInt16 → List UInt16
  | [] => []
  | u :: units => (if Paired before u units.head? then u else 0xFFFD) :: repaired (some u) units

/-- The bytes of what the units stand for: two for each of a pair. -/
def utf8Size (before : Option UInt16) : List UInt16 → Nat
  | [] => 0
  | u :: units =>
    (if u.toNat < 0x80 then 1 else if u.toNat < 0x800 then 2
      else if (IsLead u ∨ IsTrail u) ∧ Paired before u units.head? then 2 else 3) + utf8Size (some u) units

/-- The characters of the units, one after another: a unit for itself, a pair, or a
replacement for a surrogate that is not in a pair. -/
inductive Reads : Option UInt16 → List UInt16 → List Char → Prop
  | nil (before : Option UInt16) : Reads before [] []
  | plain (before : Option UInt16) {u : UInt16} {c : Char} {units : List UInt16} {chars : List Char}
    (same : c.toNat = u.toNat) (rest : Reads (some u) units chars) : Reads before (u :: units) (c :: chars)
  | pair (before : Option UInt16) {u v : UInt16} {c : Char} {units : List UInt16} {chars : List Char}
    (lead : IsLead u) (trail : IsTrail v) (value : c.toNat = 0x10000 + (u.toNat - 0xD800) * 0x400 + (v.toNat - 0xDC00))
    (rest : Reads (some v) units chars) : Reads before (u :: v :: units) (c :: chars)
  | broken (before : Option UInt16) {u : UInt16} {c : Char} {units : List UInt16} {chars : List Char}
    (surrogate : IsLead u ∨ IsTrail u) (alone : ¬Paired before u units.head?) (replacement : c.toNat = 0xFFFD)
    (rest : Reads (some u) units chars) : Reads before (u :: units) (c :: chars)

section Paired
variable {before : Option UInt16} {u v : UInt16} {units : List UInt16}

theorem not_surrogate {c : Char} (same : c.toNat = u.toNat) : ¬IsLead u ∧ ¬IsTrail u := by
  have range := char_range c
  unfold IsLead IsTrail
  omega

theorem paired_plain (plain : ¬IsLead u ∧ ¬IsTrail u) (after : Option UInt16) : Paired before u after :=
  ⟨fun lead => absurd lead plain.1,fun trail => absurd trail plain.2⟩

theorem not_trail_of_lead (lead : IsLead u) : ¬IsTrail u := fun trail => absurd (Nat.lt_of_lt_of_le lead.2 trail.1) (Nat.lt_irrefl _)

theorem paired_lead (lead : IsLead u) (trail : IsTrail v) : Paired before u (some v) :=
  ⟨fun _ => ⟨v,rfl,trail⟩,fun wrong => absurd wrong (not_trail_of_lead lead)⟩

theorem paired_trail (lead : IsLead u) (trail : IsTrail v) (after : Option UInt16) : Paired (some u) v after :=
  ⟨fun wrong => absurd trail (not_trail_of_lead wrong),fun _ => ⟨u,rfl,lead⟩⟩

end Paired

/-- Every list of units is read, where no pair is cut in front of it. -/
theorem exists_reads {before : Option UInt16} {units : List UInt16}
    (fresh : ∀ v ∈ before, IsLead v → ∀ u ∈ units.head?, ¬IsTrail u) : ∃ chars, Reads before units chars := by
  obtain ⟨n,bound⟩ : ∃ n, units.length ≤ n := ⟨_,Nat.le_refl _⟩
  induction n generalizing before units with
  | zero =>
    obtain rfl := List.length_eq_zero_iff.mp (Nat.le_zero.mp bound)
    exact ⟨[],.nil before⟩
  | succ n ih =>
    cases units with
    | nil => exact ⟨[],.nil before⟩
    | cons u units =>
      have shorter : units.length ≤ n := Nat.le_of_succ_le_succ bound
      -- what follows a unit that is read alone begins no pair with it
      have alone (cut : IsLead u → ∀ v ∈ units.head?, ¬IsTrail v) : ∃ chars, Reads (some u) units chars :=
        ih (fun w same lead => cut (Option.some.inj same ▸ lead)) shorter
      by_cases lead : IsLead u
      · by_cases whole : ∃ v ∈ units.head?, IsTrail v
        · obtain ⟨v,first,trail⟩ := whole
          obtain ⟨units,rfl⟩ := List.head?_eq_some_iff.mp first
          obtain ⟨chars,rest⟩ := @ih (some v) units
            (fun w same wrong => absurd trail (not_trail_of_lead (Option.some.inj same ▸ wrong))) (Nat.le_of_succ_le shorter)
          have bounds := And.intro lead trail
          unfold IsLead IsTrail at bounds
          obtain ⟨c,value⟩ := @exists_char (0x10000 + (u.toNat - 0xD800) * 0x400 + (v.toNat - 0xDC00)) (by omega)
          exact ⟨c :: chars,.pair before lead trail value rest⟩
        · obtain ⟨chars,rest⟩ := alone fun _ v first trail => whole ⟨v,first,trail⟩
          obtain ⟨c,replacement⟩ := @exists_char 0xFFFD (by omega)
          exact ⟨c :: chars,.broken before (.inl lead) (fun paired => whole (paired.1 lead)) replacement rest⟩
      · obtain ⟨chars,rest⟩ := alone fun wrong => absurd wrong lead
        by_cases trail : IsTrail u
        · obtain ⟨c,replacement⟩ := @exists_char 0xFFFD (by omega)
          refine ⟨c :: chars,.broken before (.inr trail) (fun paired => ?_) replacement rest⟩
          obtain ⟨v,last,leads⟩ := paired.2 trail
          exact fresh v last leads u rfl trail
        · have range : u.toNat < 0xD800 ∨ 0xDFFF < u.toNat ∧ u.toNat < 0x110000 := by
            have bound := u.toNat_lt
            unfold IsLead at lead
            unfold IsTrail at trail
            omega
          obtain ⟨c,same⟩ := exists_char range
          exact ⟨c :: chars,.plain before same rest⟩

theorem Reads.repaired {before : Option UInt16} {units : List UInt16} {chars : List Char} (reads : Reads before units chars) :
    utf16 chars = repaired before units := by
  induction reads with
  | nil before => rfl
  | @plain before u c units chars same _ ih =>
    have small : c.toNat < 0x10000 := same ▸ u.toNat_lt
    rw [Unicode.repaired,if_pos (paired_plain (not_surrogate same) _),utf16_cons,utf16EncodeChar,if_pos small,same,
      UInt16.ofNat_toNat]
    exact congrArg (u :: ·) ih
  | @pair before u v c units chars lead trail value _ ih =>
    have bounds := And.intro lead trail
    unfold IsLead IsTrail at bounds
    have high : 0xD800 + (c.toNat - 0x10000) / 0x400 = u.toNat := by omega
    have low : 0xDC00 + (c.toNat - 0x10000) % 0x400 = v.toNat := by omega
    rw [Unicode.repaired,List.head?_cons,if_pos (paired_lead lead trail),Unicode.repaired,if_pos (paired_trail lead trail _),
      utf16_cons,utf16EncodeChar,if_neg (by omega),high,low,UInt16.ofNat_toNat,UInt16.ofNat_toNat]
    exact congrArg (u :: v :: ·) ih
  | @broken before u c units chars _ alone replacement _ ih =>
    rw [Unicode.repaired,if_neg alone,utf16_cons,utf16EncodeChar,if_pos (by omega),replacement]
    exact congrArg (0xFFFD :: ·) ih

theorem Reads.size {before : Option UInt16} {units : List UInt16} {chars : List Char} (reads : Reads before units chars) :
    (utf8 chars).length = utf8Size before units := by
  induction reads with
  | nil before => rfl
  | @plain before u c units chars same _ ih =>
    have plain : ¬((IsLead u ∨ IsTrail u) ∧ Paired before u units.head?) :=
      fun both => both.1.elim (not_surrogate same).1 (not_surrogate same).2
    have small : c.toNat < 0x10000 := same ▸ u.toNat_lt
    rw [utf8_cons,List.length_append,length_utf8EncodeChar,if_pos small,utf8Size,if_neg plain,← ih,same]
  | @pair before u v c units chars lead trail value _ ih =>
    have first : Paired before u (some v) := paired_lead lead trail
    have second := paired_trail lead trail units.head?
    have bounds := And.intro lead trail
    unfold IsLead IsTrail at bounds
    rw [utf8_cons,List.length_append,length_utf8EncodeChar,if_neg (by omega),if_neg (by omega),if_neg (by omega),
      utf8Size,if_neg (by omega),if_neg (by omega),List.head?_cons,if_pos ⟨.inl lead,first⟩,utf8Size,if_neg (by omega),
      if_neg (by omega),if_pos ⟨.inr trail,second⟩,← ih]
    exact Nat.add_assoc 2 2 _
  | @broken before u c units chars surrogate alone replacement _ ih =>
    have large : 0xD800 ≤ u.toNat := surrogate.elim (fun lead => lead.1) (fun trail => Nat.le_trans (by decide) trail.1)
    rw [utf8_cons,List.length_append,length_utf8EncodeChar,if_neg (by omega),if_neg (by omega),if_pos (by omega),
      utf8Size,if_neg (by omega),if_neg (by omega),if_neg fun both => alone both.2,← ih]

end WebSearch.Library.Unicode
