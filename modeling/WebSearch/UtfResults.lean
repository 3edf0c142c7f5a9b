import WebSearch.Utf

/-! `base/utf.cc`: sequences of runes, and strings of any bytes. -/
namespace WebSearch.Utf

/-! Any string of bytes before its terminator. -/

section Terminated
variable {s : Bytes}

theorem chartorune_within {b : UInt8} (noNul : 0 ∉ b :: s) :
    ∃ decoded, chartorune (b :: (s ++ [0])) = some decoded ∧ 1 ≤ decoded.2 ∧ decoded.2 ≤ (b :: s).length := by
  have ended : ¬Follows 0 := by decide
  have wrong {str : Bytes} (bad : chartorune str = some (runeerror,1)) :
      ∃ decoded, chartorune str = some decoded ∧ 1 ≤ decoded.2 ∧ decoded.2 ≤ (b :: s).length :=
    ⟨_,bad,Nat.le_refl 1,Nat.succ_le_succ (Nat.zero_le _)⟩
  by_cases small : b.toNat < 128
  · exact ⟨_,chartorune_one small,Nat.le_refl 1,Nat.succ_le_succ (Nat.zero_le _)⟩
  · have large := not_lt.mp small
    rcases s with _ | ⟨b1,s⟩
    · exact wrong (chartorune_bad large ended)
    · by_cases first : Follows b1
      · by_cases two : b.toNat < 224
        · refine ⟨_,chartorune_two large first two,?_⟩
          split <;> simp
        · have three := not_lt.mp two
          rcases s with _ | ⟨b2,s⟩
          · exact wrong (chartorune_bad_third large first three ended)
          · by_cases second : Follows b2
            · by_cases upper : b.toNat < 240
              · refine ⟨_,chartorune_three large first second three upper,?_⟩
                split <;> simp
              · have four := not_lt.mp upper
                rcases s with _ | ⟨b3,s⟩
                · exact wrong (chartorune_bad_fourth large first second four ended)
                · by_cases third : Follows b3
                  · refine ⟨_,chartorune_four large first second four third,?_⟩
                    split <;> simp
                  · exact wrong (chartorune_bad_fourth large first second four third)
            · exact wrong (chartorune_bad_third large first three second)
      · exact wrong (chartorune_bad large first)

end Terminated

/-! One turn of each loop: what is below `Runeself` is a rune by itself. -/

section Steps
variable {b : UInt8} {s : Bytes} {decoded : Nat × Nat} {fuel : Nat}

theorem decoded_small (small : b.toNat < runeself) (read : chartorune (b :: s) = some decoded) : decoded = (b.toNat,1) :=
  Option.some.inj (read.symm.trans (chartorune_one small))

theorem utflenLoop_end (n : Nat) : utflenLoop (fuel + 1) (0 :: s) n = some (toInt32 n) := rfl

theorem utflenLoop_step (other : b ≠ 0) (read : chartorune (b :: s) = some decoded) (n : Nat) :
    utflenLoop (fuel + 1) (b :: s) n = utflenLoop fuel ((b :: s).drop decoded.2) (n + 1) := by
  have some_char : ¬b.toNat = 0 := fun zero => other (UInt8.toNat_inj.mp zero)
  simp only [utflenLoop,List.getElem?_cons_zero,Option.bind_eq_bind,Option.bind_some,some_char,if_false]
  by_cases small : b.toNat < runeself
  · rw [if_pos small,decoded_small small read]
  · rw [if_neg small,read,Option.bind_some]

theorem utfruneLoop_end (c : Int) (i : Nat) : utfruneLoop c (fuel + 1) (0 :: s) i = some none := rfl

theorem utfruneLoop_step (other : b ≠ 0) (read : chartorune (b :: s) = some decoded) (c : Int) (i : Nat) :
    utfruneLoop c (fuel + 1) (b :: s) i =
      if decoded.1 = c then some (some i) else utfruneLoop c fuel ((b :: s).drop decoded.2) (i + decoded.2) := by
  have some_char : ¬b.toNat = 0 := fun zero => other (UInt8.toNat_inj.mp zero)
  simp only [utfruneLoop,List.getElem?_cons_zero,Option.bind_eq_bind,Option.bind_some,some_char,if_false]
  by_cases small : b.toNat < runeself
  · rw [if_pos small,decoded_small small read]
    rfl
  · rw [if_neg small,read,Option.bind_some]
    rfl

end Steps

/-! Every string of bytes is read to its terminator and no further. -/

theorem drop_terminated {s : Bytes} {n : Nat} (within : n ≤ s.length) : (s ++ [0]).drop n = s.drop n ++ [0] :=
  List.drop_append_of_le_length within

theorem utflenLoop_terminated {s : Bytes} {fuel : Nat} (noNul : 0 ∉ s) (enough : s.length < fuel) (n : Nat) :
    ∃ length, utflenLoop fuel (s ++ [0]) n = some length := by
  induction fuel generalizing s n with
  | zero => exact absurd enough (Nat.not_lt_zero _)
  | succ fuel ih =>
    cases s with
    | nil => exact ⟨_,utflenLoop_end n⟩
    | cons b s =>
      obtain ⟨decoded,read,some_byte,within⟩ := chartorune_within noNul
      have other : b ≠ 0 := fun zero => noNul (List.mem_cons.mpr (Or.inl zero.symm))
      rw [List.cons_append,utflenLoop_step other read,← List.cons_append,drop_terminated within]
      refine ih (fun member => noNul (List.drop_subset _ _ member)) ?_ _
      rw [List.length_drop]
      omega

theorem utfruneLoop_terminated {s : Bytes} {fuel : Nat} (noNul : 0 ∉ s) (enough : s.length < fuel) (c : Int) (i : Nat) :
    ∃ place, utfruneLoop c fuel (s ++ [0]) i = some place := by
  induction fuel generalizing s i with
  | zero => exact absurd enough (Nat.not_lt_zero _)
  | succ fuel ih =>
    cases s with
    | nil => exact ⟨_,utfruneLoop_end c i⟩
    | cons b s =>
      obtain ⟨decoded,read,some_byte,within⟩ := chartorune_within noNul
      have other : b ≠ 0 := fun zero => noNul (List.mem_cons.mpr (Or.inl zero.symm))
      rw [List.cons_append,utfruneLoop_step other read,← List.cons_append,drop_terminated within]
      split
      · exact ⟨_,rfl⟩
      · refine ih (fun member => noNul (List.drop_subset _ _ member)) ?_ _
        rw [List.length_drop]
        omega

theorem strchr_terminated {s : Bytes} (c : UInt8) (i : Nat) : ∃ place, strchr c (s ++ [0]) i = some place := by
  induction s generalizing i with
  | nil =>
    rw [List.nil_append,strchr]
    split <;> exact ⟨_,rfl⟩
  | cons b s ih =>
    rw [List.cons_append,strchr]
    split
    · exact ⟨_,rfl⟩
    · split
      · exact ⟨_,rfl⟩
      · exact ih (i + 1)

theorem utflen_terminated {s : Bytes} (noNul : 0 ∉ s) : ∃ length, utflen (s ++ [0]) = some length :=
  utflenLoop_terminated noNul (by rw [List.length_append]; exact Nat.lt_succ_self _) 0

theorem utfrune_terminated {s : Bytes} (noNul : 0 ∉ s) (c : Int) : ∃ place, utfrune (s ++ [0]) c = some place := by
  unfold utfrune
  split
  · exact strchr_terminated _ 0
  · exact utfruneLoop_terminated noNul (by rw [List.length_append]; exact Nat.lt_succ_self _) c 0

/-! `fullrune` -/

section Full
variable {b b1 b2 : UInt8} {rest : Bytes}

theorem fullrune_none : fullrune rest 0 = some 0 := rfl

theorem fullrune_one (large : 128 ≤ b.toNat) : fullrune (b :: rest) 1 = some 0 := by
  have here : ¬b.toNat < tx := not_lt.mpr large
  have positive : (0 : Int) < 1 := by decide
  have last : ¬(1 : Int) < 1 := by decide
  simp only [fullrune,List.getElem?_cons_zero,Option.bind_eq_bind,Option.bind_some,positive,last,here,if_true,if_false]
  rfl

theorem fullrune_two (three : 224 ≤ b.toNat) : fullrune (b :: b1 :: rest) 2 = some 0 := by
  have here : ¬b.toNat < tx := by
    unfold tx
    omega
  have not_two : ¬b.toNat < t3 := not_lt.mpr three
  have positive : (0 : Int) < 2 := by decide
  have more : (1 : Int) < 2 := by decide
  have last : ¬(2 : Int) < 2 := by decide
  simp only [fullrune,List.getElem?_cons_zero,Option.bind_eq_bind,Option.bind_some,positive,more,last,here,not_two,if_true,if_false]
  rfl

theorem fullrune_three (four : 240 ≤ b.toNat) : fullrune (b :: b1 :: b2 :: rest) 3 = some 0 := by
  have here : ¬b.toNat < tx := by
    unfold tx
    omega
  have not_two : ¬b.toNat < t3 := by
    unfold t3
    omega
  have not_three : ¬b.toNat < t4 := not_lt.mpr four
  have positive : (0 : Int) < 3 := by decide
  have more : (1 : Int) < 3 := by decide
  have still : (2 : Int) < 3 := by decide
  have last : ¬(3 : Int) < 3 := by decide
  simp only [fullrune,List.getElem?_cons_zero,Option.bind_eq_bind,Option.bind_some,positive,more,still,last,here,not_two,
    not_three,or_self,if_true,if_false]
  rfl

/-- Where `fullrune` is content with the bytes at the front, no others are looked at. -/
theorem chartorune_full {front : Bytes} (full : fullrune (front ++ rest) front.length = some 1) :
    ∃ decoded, ∀ more, chartorune (front ++ more) = some decoded := by
  have refused {str : Bytes} {n : Nat} (none_there : fullrune str n = some 0) (there : fullrune str n = some 1) : False :=
    absurd (Option.some.inj (none_there.symm.trans there)) (by decide)
  rcases front with _ | ⟨b,front⟩
  · exact (refused fullrune_none full).elim
  · by_cases small : b.toNat < 128
    · exact ⟨_,fun more => chartorune_one small⟩
    · have large := not_lt.mp small
      rcases front with _ | ⟨b1,front⟩
      · exact (refused (fullrune_one large) full).elim
      · by_cases first : Follows b1
        · by_cases two : b.toNat < 224
          · exact ⟨_,fun more => chartorune_two large first two⟩
          · have three := not_lt.mp two
            rcases front with _ | ⟨b2,front⟩
            · exact (refused (fullrune_two three) full).elim
            · by_cases second : Follows b2
              · by_cases upper : b.toNat < 240
                · exact ⟨_,fun more => chartorune_three large first second three upper⟩
                · have four := not_lt.mp upper
                  rcases front with _ | ⟨b3,front⟩
                  · exact (refused (fullrune_three four) full).elim
                  · by_cases third : Follows b3
                    · exact ⟨_,fun more => chartorune_four large first second four third⟩
                    · exact ⟨_,fun more => chartorune_bad_fourth large first second four third⟩
              · exact ⟨_,fun more => chartorune_bad_third large first three second⟩
        · exact ⟨_,fun more => chartorune_bad large first⟩

end Full

/-! Sequences of runes. -/

/-- What a string is made of. -/
def Valid (r : Int) : Prop := 1 ≤ r ∧ r ≤ 0x10FFFF

instance validDecidable (r : Int) : Decidable (Valid r) := inferInstanceAs (Decidable (_ ∧ _))

def encoded (rs : List Int) : Bytes := rs.flatMap runetochar

/-- `chartorune` again and again, up to the terminator. -/
def runes : Nat → Bytes → Option (List Int)
  | 0, _ => none
  | fuel + 1, s => do
    if (← s[0]?) = 0 then return []
    let decoded ← chartorune s
    return decoded.1 :: (← runes fuel (s.drop decoded.2))

section Sequences
variable {r c : Int} {rs : List Int} {rest : Bytes} {fuel : Nat}

/-- What a rune is written as begins with something else than a NUL and is read as the rune. -/
theorem runetochar_read (valid : Valid r) (rest : Bytes) : ∃ b s decoded, runetochar r ++ rest = b :: s ∧ b ≠ 0 ∧
    chartorune (b :: s) = some decoded ∧ decoded.1 = r ∧ decoded.2 = (runetochar r).length ∧ (b :: s).drop decoded.2 = rest := by
  obtain ⟨lower,upper⟩ := valid
  obtain ⟨k,rfl⟩ := Int.eq_ofNat_of_zero_le (by omega : 0 ≤ r)
  have read := chartorune_runetochar (by omega : k ≤ 0x10FFFF) rest
  cases written : runetochar k ++ rest with
  | nil => exact absurd (written ▸ read) (Option.some_ne_none _).symm
  | cons b s =>
    rw [written] at read
    refine ⟨b,s,_,rfl,?_,read,rfl,rfl,?_⟩
    · rintro rfl
      have zero := congrArg Prod.fst (Option.some.inj (read.symm.trans (chartorune_one (by decide))))
      have none : k = 0 := zero
      omega
    · rw [← written]
      exact List.drop_left

theorem encoded_cons (r : Int) (rs : List Int) (rest : Bytes) : encoded (r :: rs) ++ rest = runetochar r ++ (encoded rs ++ rest) := by
  rw [encoded,List.flatMap_cons,List.append_assoc]
  rfl

theorem runes_encoded (valid : ∀ r ∈ rs, Valid r) (enough : rs.length < fuel) : runes fuel (encoded rs ++ [0]) = some rs := by
  induction rs generalizing fuel with
  | nil =>
    obtain ⟨fuel,rfl⟩ := Nat.exists_eq_succ_of_ne_zero (Nat.ne_zero_of_lt enough)
    rfl
  | cons r rs ih =>
    obtain ⟨fuel,rfl⟩ := Nat.exists_eq_succ_of_ne_zero (Nat.ne_zero_of_lt enough)
    obtain ⟨first,later⟩ := List.forall_mem_cons.mp valid
    obtain ⟨b,s,decoded,written,other,read,same,-,rest⟩ := runetochar_read first (encoded rs ++ [0])
    rw [encoded_cons,written]
    simp only [runes,List.getElem?_cons_zero,Option.bind_eq_bind,Option.bind_some,other,if_false,read,rest,
      ih later (Nat.lt_of_succ_lt_succ enough),same]
    rfl

theorem utflenLoop_encoded (valid : ∀ r ∈ rs, Valid r) (enough : rs.length < fuel) (n : Nat) :
    utflenLoop fuel (encoded rs ++ [0]) n = some (toInt32 (n + rs.length)) := by
  induction rs generalizing fuel n with
  | nil =>
    obtain ⟨fuel,rfl⟩ := Nat.exists_eq_succ_of_ne_zero (Nat.ne_zero_of_lt enough)
    rfl
  | cons r rs ih =>
    obtain ⟨fuel,rfl⟩ := Nat.exists_eq_succ_of_ne_zero (Nat.ne_zero_of_lt enough)
    obtain ⟨first,later⟩ := List.forall_mem_cons.mp valid
    obtain ⟨b,s,decoded,written,other,read,-,-,rest⟩ := runetochar_read first (encoded rs ++ [0])
    rw [encoded_cons,written,utflenLoop_step other read,rest,ih later (Nat.lt_of_succ_lt_succ enough),List.length_cons]
    exact congrArg (fun n => some (toInt32 n)) (by omega)

/-- The rune stands at the place, and nowhere before; or there is no place and no such rune. -/
def FirstPlace (rs : List Int) (c : Int) (place : Option Nat) : Prop :=
  (∃ before after, rs = before ++ c :: after ∧ c ∉ before ∧ place = some (encoded before).length) ∨ (c ∉ rs ∧ place = none)

def placeFrom (c : Int) : List Int → Nat → Option Nat
  | [], _ => none
  | r :: rs, i => if r = c then some i else placeFrom c rs (i + (runetochar r).length)

theorem placeFrom_firstPlace (done : List Int) (absent : c ∉ done) :
    FirstPlace (done ++ rs) c (placeFrom c rs (encoded done).length) := by
  induction rs generalizing done with
  | nil =>
    rw [List.append_nil]
    exact Or.inr ⟨absent,rfl⟩
  | cons r rs ih =>
    rw [placeFrom]
    by_cases here : r = c
    · rw [if_pos here,here]
      exact Or.inl ⟨done,rs,rfl,absent,rfl⟩
    · have later := ih (done ++ [r]) (List.not_mem_append absent (List.not_mem_cons_of_ne_of_not_mem (Ne.symm here) List.not_mem_nil))
      rw [List.append_assoc,List.singleton_append,encoded,List.flatMap_append,List.length_append,List.flatMap_singleton] at later
      rw [if_neg here]
      exact later

theorem utfruneLoop_encoded (valid : ∀ r ∈ rs, Valid r) (enough : rs.length < fuel) (i : Nat) :
    utfruneLoop c fuel (encoded rs ++ [0]) i = some (placeFrom c rs i) := by
  induction rs generalizing fuel i with
  | nil =>
    obtain ⟨fuel,rfl⟩ := Nat.exists_eq_succ_of_ne_zero (Nat.ne_zero_of_lt enough)
    rfl
  | cons r rs ih =>
    obtain ⟨fuel,rfl⟩ := Nat.exists_eq_succ_of_ne_zero (Nat.ne_zero_of_lt enough)
    obtain ⟨first,later⟩ := List.forall_mem_cons.mp valid
    obtain ⟨b,s,decoded,written,other,read,same,length,rest⟩ := runetochar_read first (encoded rs ++ [0])
    rw [encoded_cons,written,utfruneLoop_step other read,same,rest,length,ih later (Nat.lt_of_succ_lt_succ enough),placeFrom]
    split <;> rfl

/-! `strchr`, for runes that one byte stands for and what is not a rune. -/

theorem runetochar_small (lower : 0 ≤ c) (upper : c < 128) : runetochar c = [lowByte c] := by
  obtain ⟨k,rfl⟩ := Int.eq_ofNat_of_zero_le lower
  have same : (k : Int) % 256 = k := by omega
  rw [runetochar_eq (by omega),if_pos (by omega),lowByte,same]
  rfl

theorem runetochar_large {r : Nat} (lower : 128 ≤ r) (upper : r ≤ 0x10FFFF) : ∀ b ∈ runetochar r, 128 ≤ b.toNat := by
  have follower_large (n : Nat) : 128 ≤ (follower n).toNat := (follows_follower n).1
  have first {n : Nat} (large : 128 ≤ n) (small : n < 256) : 128 ≤ (char n).toNat := by rwa [char_toNat small]
  rw [runetochar_eq upper,if_neg (by omega)]
  split
  · simp only [List.forall_mem_cons]
    exact ⟨first (by omega) (by omega),follower_large _,by simp⟩
  · split
    · simp only [List.forall_mem_cons]
      exact ⟨first (by omega) (by omega),follower_large _,follower_large _,by simp⟩
    · simp only [List.forall_mem_cons]
      exact ⟨first (by omega) (by omega),follower_large _,follower_large _,follower_large _,by simp⟩

theorem lowByte_toNat (lower : 0 ≤ c) (upper : c < 128) : (lowByte c).toNat = c.toNat := by
  have same : c % 256 = c := by omega
  rw [lowByte,same]
  exact char_toNat (by omega : c.toNat < 256)

/-- No byte of another rune is that of a small one. -/
theorem lowByte_ne {b : UInt8} (valid : Valid r) (lower : 0 ≤ c) (upper : c < 128) (other : r ≠ c) (member : b ∈ runetochar r) :
    b ≠ lowByte c := by
  rintro rfl
  have value := lowByte_toNat lower upper
  obtain ⟨positive,below⟩ := valid
  by_cases small : r < 128
  · rw [runetochar_small (by omega) small,List.mem_singleton] at member
    have own := lowByte_toNat (by omega : 0 ≤ r) small
    rw [member,own] at value
    exact other (by omega)
  · obtain ⟨k,rfl⟩ := Int.eq_ofNat_of_zero_le (by omega : 0 ≤ r)
    have large := runetochar_large (by omega) (by omega) _ member
    omega

theorem zero_not_mem_encoded (valid : ∀ r ∈ rs, Valid r) : 0 ∉ encoded rs := by
  intro member
  obtain ⟨r,inside,byte⟩ := List.mem_flatMap.mp member
  have own := valid r inside
  exact lowByte_ne own (Int.le_refl 0) (by decide) (by have := own.1; omega) byte rfl

theorem strchr_skip {b : UInt8} {front : Bytes} (others : ∀ d ∈ front, d ≠ b ∧ d ≠ 0) (rest : Bytes) (i : Nat) :
    strchr b (front ++ rest) i = strchr b rest (i + front.length) := by
  induction front generalizing i with
  | nil => rfl
  | cons d front ih =>
    obtain ⟨⟨other,some_char⟩,later⟩ := List.forall_mem_cons.mp others
    rw [List.cons_append,strchr,if_neg other,if_neg some_char,ih later,List.length_cons,Nat.add_assoc,
      Nat.add_comm 1]

theorem strchr_encoded (valid : ∀ r ∈ rs, Valid r) (lower : 0 < c) (upper : c < 128) (i : Nat) :
    strchr (lowByte c) (encoded rs ++ [0]) i = some (placeFrom c rs i) := by
  induction rs generalizing i with
  | nil =>
    have value := lowByte_toNat (Int.le_of_lt lower) upper
    have other : (0 : UInt8) ≠ lowByte c := by
      intro same
      rw [← same] at value
      have zero : (0 : UInt8).toNat = 0 := rfl
      omega
    rw [encoded,List.flatMap_nil,List.nil_append,strchr,if_neg other]
    rfl
  | cons r rs ih =>
    obtain ⟨first,later⟩ := List.forall_mem_cons.mp valid
    rw [encoded_cons,placeFrom]
    by_cases here : r = c
    · rw [if_pos here,here,runetochar_small (Int.le_of_lt lower) upper]
      exact if_pos rfl
    · have others : ∀ b ∈ runetochar r, b ≠ lowByte c ∧ b ≠ 0 := fun b member =>
        ⟨lowByte_ne first (Int.le_of_lt lower) upper here member,
          lowByte_ne first (Int.le_refl 0) (by decide) (by have := first.1; omega) member⟩
      rw [if_neg here,strchr_skip others,ih later]

theorem strchr_none_iff {b : UInt8} {s : Bytes} (noNul : 0 ∉ s) (i : Nat) :
    strchr b (s ++ [0]) i = some none ↔ b ≠ 0 ∧ b ∉ s := by
  induction s generalizing i with
  | nil =>
    rw [List.nil_append,strchr]
    by_cases zero : (0 : UInt8) = b
    · rw [if_pos zero]
      exact iff_of_false (by simp) fun both => both.1 zero.symm
    · rw [if_neg zero]
      exact iff_of_true rfl ⟨Ne.symm zero,List.not_mem_nil⟩
  | cons d s ih =>
    obtain ⟨some_char,later⟩ := not_or.mp (List.mem_cons.not.mp noNul)
    rw [List.cons_append,strchr,List.mem_cons,not_or]
    by_cases here : d = b
    · rw [if_pos here]
      exact iff_of_false (by simp) fun both => both.2.1 here.symm
    · rw [if_neg here,if_neg (Ne.symm some_char),ih later,and_iff_right (Ne.symm here)]

/-- What is asked of a sequence and a rune to look for. -/
structure Right (rs : List Int) (c : Int) : Prop where
  decoded : runes (encoded rs ++ [0]).length (encoded rs ++ [0]) = some rs
  length : utflen (encoded rs ++ [0]) = some (rs.length : Int)
  place : ∃ place, utfrune (encoded rs ++ [0]) c = some place ∧ FirstPlace rs c place

theorem length_encoded (valid : ∀ r ∈ rs, Valid r) : rs.length < (encoded rs ++ [0]).length := by
  have each : rs.length ≤ (encoded rs).length := by
    induction rs with
    | nil => exact Nat.zero_le _
    | cons r rs ih =>
      obtain ⟨first,later⟩ := List.forall_mem_cons.mp valid
      have rest := ih later
      have nonempty : runetochar r ≠ [] := by
        intro empty
        obtain ⟨b,s,decoded,written,-⟩ := runetochar_read first []
        rw [empty] at written
        exact List.cons_ne_nil b s written.symm
      have some_byte := List.length_pos_of_ne_nil nonempty
      rw [encoded,List.flatMap_cons,List.length_append,List.length_cons]
      change rs.length ≤ (rs.flatMap runetochar).length at rest
      omega
  rw [List.length_append]
  exact Nat.lt_succ_of_le each

theorem utflen_encoded (valid : ∀ r ∈ rs, Valid r) : utflen (encoded rs ++ [0]) = some (toInt32 rs.length) := by
  rw [utflen,utflenLoop_encoded valid (length_encoded valid),Nat.zero_add]

theorem utfrune_positive (valid : ∀ r ∈ rs, Valid r) (positive : 0 < c) :
    utfrune (encoded rs ++ [0]) c = some (placeFrom c rs 0) := by
  unfold utfrune
  split
  · rename_i small
    exact strchr_encoded valid positive small 0
  · exact utfruneLoop_encoded valid (length_encoded valid) 0

theorem place_iff (valid : ∀ r ∈ rs, Valid r) : (∃ place, utfrune (encoded rs ++ [0]) c = some place ∧ FirstPlace rs c place) ↔
    0 < c ∨ lowByte c ≠ 0 ∧ lowByte c ∉ encoded rs := by
  by_cases positive : 0 < c
  · refine iff_of_true ⟨_,utfrune_positive valid positive,?_⟩ (Or.inl positive)
    exact placeFrom_firstPlace [] List.not_mem_nil
  · have absent : c ∉ rs := fun member => positive (valid c member).1
    have small : c < runesync := by
      unfold runesync
      omega
    rw [or_iff_right positive,← strchr_none_iff (zero_not_mem_encoded valid) 0,utfrune,if_pos small]
    constructor
    · rintro ⟨place,found,⟨before,after,rfl,-⟩ | ⟨-,rfl⟩⟩
      · exact absurd (List.mem_append_right before List.mem_cons_self) absent
      · exact found
    · exact fun nowhere => ⟨none,nowhere,Or.inr ⟨absent,rfl⟩⟩

theorem length_iff (valid : ∀ r ∈ rs, Valid r) : utflen (encoded rs ++ [0]) = some (rs.length : Int) ↔ rs.length < 2 ^ 31 := by
  rw [utflen_encoded valid,Option.some.injEq]
  constructor
  · intro same
    have bound := toInt32_lt rs.length
    omega
  · exact toInt32_small

end Sequences

/-- Sequences are read back, counted and searched as they should be exactly when their
number fits an `int` and the rune looked for is one, or its lowest byte is not there;
no string is read behind its terminator; and `fullrune` knows how many bytes it takes. -/
theorem utf_right (rs : List Int) (c : Int) (valid : ∀ r ∈ rs, Valid r) :
    (Right rs c ↔ rs.length < 2 ^ 31 ∧ (0 < c ∨ lowByte c ≠ 0 ∧ lowByte c ∉ encoded rs)) ∧
    (∀ (s : Bytes) (c : Int), 0 ∉ s →
      (∃ length, utflen (s ++ [0]) = some length) ∧ ∃ place, utfrune (s ++ [0]) c = some place) ∧
    ∀ front rest : Bytes, fullrune (front ++ rest) front.length = some 1 →
      ∃ decoded, ∀ more, chartorune (front ++ more) = some decoded := by
  refine ⟨?_,fun s c noNul => ⟨utflen_terminated noNul,utfrune_terminated noNul c⟩,fun front rest => chartorune_full⟩
  rw [← length_iff valid,← place_iff valid]
  constructor
  · exact fun right => ⟨right.length,right.place⟩
  · exact fun both => ⟨runes_encoded valid (length_encoded valid),both.1,both.2⟩

theorem utf_right_letters : Right [97,0x20AC] 0x20AC :=
  (utf_right [97,0x20AC] 0x20AC (by decide)).1.mpr (by decide)

/-- 2^31 times the same letter, which `utflen` counts as a negative number. -/
theorem not_right_letters : ¬Right (List.replicate (2 ^ 31) 97) 97 := by
  intro right
  have valid : ∀ r ∈ List.replicate (2 ^ 31) (97 : Int), Valid r := by
    intro r member
    rw [List.eq_of_mem_replicate member]
    decide
  have short := (length_iff valid).mp right.length
  rw [List.length_replicate] at short
  exact Nat.lt_irrefl _ short

end WebSearch.Utf
