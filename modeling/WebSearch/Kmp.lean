import WebSearch.Library.StringMatching
import WebSearch.Base.Bytes

/-! `base/kmp.cc`. Sizes and indices are `int`s. An access outside a string or the table
is none, and so is a loop that does not end. -/
namespace WebSearch
open Library

structure KMPPattern where
  pattern : Bytes
  table : List Int

namespace KMPPattern

def read {α : Type} (list : List α) (i : Int) : Option α := if i < 0 then none else list[i.toNat]?

/-- The inner loop of the constructor, with the value of `table_[i]`. -/
def lower (pattern : Bytes) (table : List Int) (i : Nat) : Nat → Int → Option Int
  | 0, _ => none
  | fuel + 1, entry =>
    if 0 < entry then do
      let last ← read pattern (i - 1)
      let next ← read pattern (entry - 1)
      if last ≠ next then lower pattern table i fuel ((← read table (entry - 1)) + 1) else some entry
    else some entry

def fillEntry (pattern : Bytes) (table : List Int) (i : Nat) : Option (List Int) := do
  return table.set i (← lower pattern table i (i + 1) ((← read table (i - 1)) + 1))

def construct (pattern : Bytes) : Option KMPPattern := do
  let size := toInt32 pattern.length
  let table := List.replicate pattern.length 0
  let table := if 0 < size then table.set 0 (-1) else table
  return ⟨pattern,← (List.range' 1 (size.toNat - 1)).foldlM (fillEntry pattern) table⟩

/-- The loop of `Match`, where `++i` follows each round. -/
def matchLoop (kmp : KMPPattern) (text : Bytes) (len : Int) : Nat → Int → Int → Option Int
  | 0, _, _ => none
  | fuel + 1, i, j =>
    if i < len then do
      let c ← read text i
      let d ← read kmp.pattern j
      if c = d then
        if j + 1 = toInt32 kmp.pattern.length then some (i - toInt32 kmp.pattern.length + 1)
        else matchLoop kmp text len fuel (i + 1) (j + 1)
      else if j ≠ 0 then matchLoop kmp text len fuel (i - 1 + 1) (← read kmp.table j)
      else matchLoop kmp text len fuel (i + 1) j
    else some (-1)

def matchText (kmp : KMPPattern) (text : Bytes) (len : Nat) : Option Int :=
  if kmp.pattern.length = 0 then some 0 else matchLoop kmp text len (2 * len + 1) 0 0

theorem toInt32_le (n : Nat) : toInt32 n ≤ n := by
  unfold toInt32
  split <;> omega

theorem read_natCast {α : Type} (list : List α) (i : Nat) : read list i = list[i]? := by
  rw [read,if_neg (by omega),Int.toNat_natCast]

/-! The table. -/

/-- The first entry is -1, and the others before `n` are longest borders. -/
structure Filled (pattern : Bytes) (n : Nat) (table : List Int) : Prop where
  length_eq : table.length = pattern.length
  first : table[0]? = some (-1)
  borders : ∀ i, 1 ≤ i → i < n → ∃ k : Nat, table[i]? = some (k : Int) ∧ LongestBorder pattern i k

theorem read_pred {α : Type} (list : List α) (i : Nat) : read list ((i + 1 : Nat) - 1) = list[i]? := by
  have same : ((i + 1 : Nat) : Int) - 1 = i := by omega
  rw [same,read_natCast]

/-- The entry ends as the longest border, which the fallbacks do not pass. -/
theorem lower_longest {pattern : Bytes} {table : List Int} {i : Nat} (inside : i < pattern.length)
    (filled : Filled pattern (i + 1) table) {fuel t : Nat} (enough : t < fuel) (below : t ≤ i)
    (candidate : Candidate pattern i t) :
    ∃ k : Nat, lower pattern table (i + 1) fuel t = some (k : Int) ∧ LongestBorder pattern (i + 1) k := by
  induction fuel generalizing t with
  | zero => exact absurd enough (Nat.not_lt_zero _)
  | succ fuel ih =>
    cases t with
    | zero => exact ⟨0,rfl,candidate.done inside fun k zero => absurd zero (Nat.succ_ne_zero k).symm⟩
    | succ t =>
      have last := read_pred pattern i
      have next := read_pred pattern t
      have entry := read_pred table t
      rw [List.getElem?_eq_getElem inside] at last
      rw [List.getElem?_eq_getElem (by omega)] at next
      have positive : (0 : Int) < (t + 1 : Nat) := by omega
      simp only [lower,positive,if_true,last,next,Option.bind_eq_bind,Option.bind_some]
      by_cases same : pattern[i] = pattern[t]
      · rw [if_neg (not_not.mpr same)]
        refine ⟨t + 1,rfl,candidate.done inside fun k here => ?_⟩
        rw [← Nat.succ.inj here,List.getElem?_eq_getElem inside,List.getElem?_eq_getElem (by omega),same]
      · have other : pattern[t]? ≠ pattern[i]? := by
          rw [List.getElem?_eq_getElem inside,List.getElem?_eq_getElem (by omega)]
          exact fun equal => same (Option.some.inj equal).symm
        rw [if_pos same,entry]
        cases t with
        | zero =>
          rw [filled.first]
          exact ih (t := 0) (by omega) (Nat.zero_le _) (candidate.last inside other)
        | succ t =>
          obtain ⟨k,at_t,longest⟩ := filled.borders (t + 1) (by omega) (by omega)
          have less := longest.border.1
          rw [at_t]
          exact ih (t := k + 1) (by omega) (by omega) (candidate.next inside other longest)

theorem fillEntry_filled {pattern : Bytes} {table : List Int} {i : Nat} (within : i + 1 < pattern.length)
    (filled : Filled pattern (i + 1) table) :
    ∃ after, fillEntry pattern table (i + 1) = some after ∧ Filled pattern (i + 2) after := by
  have inside : i < pattern.length := Nat.lt_of_succ_lt within
  obtain ⟨t,at_i,below,candidate⟩ : ∃ t : Nat, (read table ((i + 1 : Nat) - 1)).map (· + 1) = some (t : Int) ∧ t ≤ i ∧
      Candidate pattern i t := by
    rw [read_pred]
    cases i with
    | zero =>
      rw [filled.first]
      exact ⟨0,rfl,Nat.le_refl 0,⟨fun k zero => absurd zero (Nat.succ_ne_zero k).symm,fun m border => Nat.le_of_lt_succ border.1⟩⟩
    | succ i =>
      obtain ⟨k,at_i,longest⟩ := filled.borders (i + 1) (by omega) (Nat.lt_succ_self _)
      have less := longest.border.1
      rw [at_i]
      exact ⟨k + 1,rfl,less,Candidate.start inside longest⟩
  obtain ⟨k,lowered,longest⟩ := lower_longest inside filled (by omega : t < i + 1 + 1) below candidate
  obtain ⟨entry,before,same⟩ := Option.map_eq_some_iff.mp at_i
  refine ⟨table.set (i + 1) k,?_,?_⟩
  · simp only [fillEntry,before,Option.bind_eq_bind,Option.bind_some,same,lowered,Option.pure_def]
  · have long : i + 1 < table.length := by rwa [filled.length_eq]
    refine ⟨by rw [List.length_set,filled.length_eq],?_,fun j lower upper => ?_⟩
    · rw [List.getElem?_set_ne (Nat.succ_ne_zero i),filled.first]
    · by_cases here : j = i + 1
      · rw [here,List.getElem?_set_self long]
        exact ⟨k,rfl,longest⟩
      · rw [List.getElem?_set_ne (Ne.symm here)]
        exact filled.borders j lower (by omega)

theorem fill_filled {pattern : Bytes} {table : List Int} {i n : Nat} (within : i + n < pattern.length)
    (filled : Filled pattern (i + 1) table) :
    ∃ after, (List.range' (i + 1) n).foldlM (fillEntry pattern) table = some after ∧ Filled pattern (i + n + 1) after := by
  induction n generalizing i table with
  | zero => exact ⟨table,rfl,filled⟩
  | succ n ih =>
    obtain ⟨middle,first,filled⟩ := fillEntry_filled (by omega) filled
    obtain ⟨after,rest,filled⟩ := ih (i := i + 1) (by omega) filled
    refine ⟨after,?_,?_⟩
    · rw [List.range'_succ,List.foldlM_cons,first]
      exact rest
    · rwa [show i + (n + 1) + 1 = i + 1 + n + 1 by omega]

/-- The table for a size that is not negative, of which a longer pattern has only the start. -/
theorem construct_positive {pattern : Bytes} {size : Nat} (is_size : toInt32 pattern.length = size) (positive : 0 < size) :
    ∃ table, construct pattern = some ⟨pattern,table⟩ ∧ Filled pattern size table := by
  have within := toInt32_le pattern.length
  have started : Filled pattern 1 ((List.replicate pattern.length (0 : Int)).set 0 (-1)) := by
    refine ⟨by rw [List.length_set,List.length_replicate],?_,fun i lower upper => absurd lower (Nat.not_le.mpr upper)⟩
    rw [List.getElem?_set_self (by rw [List.length_replicate]; omega)]
  obtain ⟨table,filled_all,filled⟩ := fill_filled (i := 0) (n := size - 1) (by omega) started
  rw [show 0 + (size - 1) + 1 = size by omega] at filled
  refine ⟨table,?_,filled⟩
  have some_size : (0 : Int) < size := by omega
  rw [construct,is_size,Int.toNat_natCast]
  simp only [some_size,if_true]
  rw [show 1 = 0 + 1 from rfl,filled_all]
  rfl

/-! The text. `i` goes on, or stands while `j` falls. -/

/-- What `Match` should return. -/
def FirstAt (pattern text : Bytes) (result : Int) : Prop :=
  (∃ s : Nat, result = s ∧ Occurs pattern text s ∧ ∀ t < s, ¬Occurs pattern text t) ∨
    (result = -1 ∧ ∀ s, ¬Occurs pattern text s)

theorem matchLoop_finds {pattern text : Bytes} {table : List Int} {i j fuel : Nat}
    (is_size : toInt32 pattern.length = pattern.length) (filled : Filled pattern pattern.length table)
    (scanned : Scanned pattern text i j) (within : i ≤ text.length) (enough : 2 * (text.length - i) + j < fuel) :
    ∃ result, matchLoop ⟨pattern,table⟩ text text.length fuel i j = some result ∧ FirstAt pattern text result := by
  induction fuel generalizing i j with
  | zero => exact absurd enough (Nat.not_lt_zero _)
  | succ fuel ih =>
    have short := scanned.short
    by_cases inside : i < text.length
    · have before_end : (i : Int) < text.length := by omega
      have at_i := List.getElem?_eq_getElem inside
      have at_j := List.getElem?_eq_getElem short
      simp only [matchLoop,before_end,if_true,read_natCast,at_i,at_j,Option.bind_eq_bind,Option.bind_some,is_size,
        Int.sub_add_cancel]
      by_cases same : text[i] = pattern[j]
      · have fits : text[i]? = pattern[j]? := by rw [at_i,at_j,same]
        rw [if_pos same]
        by_cases whole : j + 1 = pattern.length
        · obtain ⟨below,occurs,first⟩ := scanned.found inside fits whole
          have last : (j : Int) + 1 = pattern.length := by omega
          rw [if_pos last]
          exact ⟨_,rfl,Or.inl ⟨i - j,by omega,occurs,first⟩⟩
        · have more : ¬(j : Int) + 1 = pattern.length := by omega
          rw [if_neg more]
          exact ih (i := i + 1) (j := j + 1) (scanned.advance inside fits (by omega)) inside (by omega)
      · have other : text[i]? ≠ pattern[j]? := by
          rw [at_i,at_j]
          exact fun equal => same (Option.some.inj equal)
        rw [if_neg same]
        cases j with
        | zero => exact ih (i := i + 1) (j := 0) (scanned.skip other) inside (by omega)
        | succ j =>
          obtain ⟨k,entry,longest⟩ := filled.borders (j + 1) (by omega) short
          have less := longest.border.1
          have falls : ((j + 1 : Nat) : Int) ≠ 0 := by omega
          rw [if_pos falls,entry]
          exact ih (scanned.fallback other longest) within (by omega)
    · obtain rfl : i = text.length := by omega
      refine ⟨-1,?_,Or.inr ⟨rfl,scanned.finish⟩⟩
      simp only [matchLoop,Int.lt_irrefl,if_false]

/-- The constructor and `Match` do what they should for every text. -/
def Right (pattern : Bytes) : Prop :=
  ∃ kmp, construct pattern = some kmp ∧
    (∀ i, 1 ≤ i → i < pattern.length → ∃ k : Nat, kmp.table[i]? = some (k : Int) ∧ LongestBorder pattern i k) ∧
    ∀ text : Bytes, text.length < 2 ^ 31 → ∃ result, matchText kmp text text.length = some result ∧ FirstAt pattern text result

theorem firstAt_nil (text : Bytes) : FirstAt [] text 0 :=
  Or.inl ⟨0,rfl,List.nil_prefix,fun _ before => absurd before (Nat.not_lt_zero _)⟩

theorem right_below {pattern : Bytes} (short : pattern.length < 2 ^ 31) : Right pattern := by
  cases pattern with
  | nil => exact ⟨⟨[],[]⟩,rfl,fun _ lower upper => absurd upper (by simp),fun text _ => ⟨0,rfl,firstAt_nil text⟩⟩
  | cons first rest =>
    have is_size := toInt32_small short
    obtain ⟨table,built,filled⟩ := construct_positive is_size (by simp)
    refine ⟨⟨_,table⟩,built,filled.borders,fun text _ => ?_⟩
    rw [matchText,if_neg (by simp)]
    exact matchLoop_finds (i := 0) (j := 0) is_size filled (Scanned.start (by simp)) (Nat.zero_le _) (by omega)

/-! Patterns from 2^31 characters on, whose length is cut. -/

theorem construct_nonpositive {pattern : Bytes} (size : toInt32 pattern.length ≤ 0) :
    construct pattern = some ⟨pattern,List.replicate pattern.length 0⟩ := by
  have none_done : (toInt32 pattern.length).toNat - 1 = 0 := by omega
  have no_size : ¬0 < toInt32 pattern.length := by omega
  simp only [construct,no_size,if_false,none_done]
  rfl

/-- The end of the pattern is not noticed, nor reached. -/
theorem matchLoop_nonpositive {pattern text : Bytes} (size : toInt32 pattern.length ≤ 0) (long : text.length < pattern.length)
    {i j fuel : Nat} (behind : j ≤ i) (within : i ≤ text.length) (enough : 2 * (text.length - i) + j < fuel) :
    matchLoop ⟨pattern,List.replicate pattern.length 0⟩ text text.length fuel i j = some (-1) := by
  induction fuel generalizing i j with
  | zero => exact absurd enough (Nat.not_lt_zero _)
  | succ fuel ih =>
    by_cases inside : i < text.length
    · have before_end : (i : Int) < text.length := by omega
      have short : j < pattern.length := by omega
      have more : ¬(j : Int) + 1 = toInt32 pattern.length := by omega
      simp only [matchLoop,before_end,if_true,read_natCast,List.getElem?_eq_getElem inside,List.getElem?_eq_getElem short,
        Option.bind_eq_bind,Option.bind_some,Int.sub_add_cancel,if_neg more]
      by_cases same : text[i] = pattern[j]
      · rw [if_pos same]
        exact ih (i := i + 1) (j := j + 1) (by omega) inside (by omega)
      · rw [if_neg same]
        by_cases stays : (j : Int) = 0
        · rw [if_neg (not_not.mpr stays)]
          exact ih (i := i + 1) (by omega) inside (by omega)
        · rw [if_pos stays,List.getElem?_replicate_of_lt short]
          exact ih (j := 0) (Nat.zero_le _) within (by omega)
    · have at_end : ¬(i : Int) < text.length := by omega
      simp only [matchLoop,at_end,if_false]

theorem firstAt_of_longer {pattern text : Bytes} (longer : text.length < pattern.length) (result : Int) :
    FirstAt pattern text result ↔ result = -1 := by
  have absent (s : Nat) : ¬Occurs pattern text s := by
    intro occurs
    have fits := occurs.length_le
    rw [List.length_drop] at fits
    omega
  constructor
  · rintro (⟨s,-,occurs,-⟩ | ⟨same,-⟩)
    · exact absurd occurs (absent s)
    · exact same
  · exact fun same => Or.inr ⟨same,absent⟩

/-- A text of the cut length, the beginning of the pattern, is taken for all of it. -/
theorem matchLoop_cut {pattern : Bytes} {table : List Int} {size i fuel : Nat} (is_size : toInt32 pattern.length = size)
    (cut : size ≤ pattern.length) (inside : i < size) (enough : size - i ≤ fuel) :
    matchLoop ⟨pattern,table⟩ (pattern.take size) size fuel i i = some 0 := by
  induction fuel generalizing i with
  | zero => omega
  | succ fuel ih =>
    have before_end : (i : Int) < size := by omega
    simp only [matchLoop,before_end,if_true,read_natCast,List.getElem?_take_of_lt inside,
      List.getElem?_eq_getElem (inside.trans_le cut),Option.bind_eq_bind,Option.bind_some,is_size]
    by_cases whole : (i : Int) + 1 = size
    · rw [if_pos whole]
      exact congrArg some (by omega)
    · rw [if_neg whole]
      exact ih (i := i + 1) (by omega) (by omega)

/-- The first character stands again before the last one. -/
def Recurs (pattern : Bytes) : Prop := ∃ i, 1 ≤ i ∧ i + 1 < pattern.length ∧ pattern[i]? = pattern[0]?

theorem borders_zero_iff {pattern : Bytes} :
    (∀ i, 1 ≤ i → i < pattern.length → LongestBorder pattern i 0) ↔ ¬Recurs pattern := by
  constructor
  · rintro none_longer ⟨i,after,before,same⟩
    have single : Border pattern (i + 1) 1 :=
      (border_succ_iff (by omega)).mpr ⟨border_zero after,same.symm⟩
    exact absurd ((none_longer (i + 1) (by omega) before).longest 1 single) (by omega)
  · intro unique i after before
    refine ⟨border_zero after,fun m border => ?_⟩
    by_contra longer
    obtain ⟨less,front,ends⟩ := border
    have lengths := congrArg List.length ends
    rw [List.length_append,List.length_take,List.length_take] at lengths
    refine unique ⟨front.length,by omega,by omega,?_⟩
    have here := congrArg (·[front.length]?) ends
    simp only [List.getElem?_append_right (Nat.le_refl _),Nat.sub_self] at here
    rw [List.getElem?_take_of_lt (by omega),List.getElem?_take_of_lt (by omega)] at here
    exact here.symm

theorem right_nonpositive_iff {pattern : Bytes} (long : 2 ^ 31 ≤ pattern.length) (size : toInt32 pattern.length ≤ 0) :
    Right pattern ↔ ¬Recurs pattern := by
  rw [← borders_zero_iff,Right]
  constructor
  · rintro ⟨kmp,built,table,-⟩ i after before
    obtain rfl := Option.some.inj ((construct_nonpositive size).symm.trans built)
    obtain ⟨k,entry,longest⟩ := table i after before
    rw [List.getElem?_replicate_of_lt before,Option.some.injEq,eq_comm,Int.natCast_eq_zero] at entry
    rwa [entry] at longest
  · intro borders
    refine ⟨_,construct_nonpositive size,fun i after before =>
      ⟨0,List.getElem?_replicate_of_lt before,borders i after before⟩,fun text short => ?_⟩
    have longer : text.length < pattern.length := by omega
    have nonempty : pattern.length ≠ 0 := by omega
    refine ⟨-1,?_,(firstAt_of_longer longer _).mpr rfl⟩
    rw [matchText,if_neg nonempty]
    exact matchLoop_nonpositive (i := 0) (j := 0) size longer (Nat.le_refl 0) (Nat.zero_le _) (by omega)

theorem not_right_positive {pattern : Bytes} (long : 2 ^ 31 ≤ pattern.length) (size : 0 < toInt32 pattern.length) :
    ¬Right pattern := by
  rintro ⟨kmp,built,-,search⟩
  obtain ⟨cut,is_size⟩ := Int.eq_ofNat_of_zero_le (Int.le_of_lt size)
  have bound := toInt32_lt pattern.length
  have within := toInt32_le pattern.length
  have cut_length : (pattern.take cut).length = cut := by
    rw [List.length_take]
    omega
  have nonempty : pattern.length ≠ 0 := by omega
  obtain ⟨table,fills,-⟩ := construct_positive is_size (by omega)
  obtain rfl := Option.some.inj (fills.symm.trans built)
  obtain ⟨result,found,first⟩ := search (pattern.take cut) (by omega)
  rw [matchText,if_neg nonempty,cut_length] at found
  have wrong : matchLoop ⟨pattern,table⟩ (pattern.take cut) cut (2 * cut + 1) 0 0 = some 0 :=
    matchLoop_cut (i := 0) is_size (by omega) (by omega) (by omega)
  rw [(firstAt_of_longer (by omega) result).mp first] at found
  exact absurd (wrong.symm.trans found) (by decide)

/-- The table and every search are right exactly when the length of the pattern fits an
`int`, or its cut length is not positive and its borders are all empty. -/
theorem right_iff (pattern : Bytes) :
    Right pattern ↔ pattern.length < 2 ^ 31 ∨ toInt32 pattern.length ≤ 0 ∧ ¬Recurs pattern := by
  by_cases fits : pattern.length < 2 ^ 31
  · exact iff_of_true (right_below fits) (Or.inl fits)
  · rw [or_iff_right fits]
    by_cases size : toInt32 pattern.length ≤ 0
    · rw [and_iff_right size]
      exact right_nonpositive_iff (not_lt.mp fits) size
    · exact iff_of_false (not_right_positive (not_lt.mp fits) (by omega)) fun both => size both.1

/-- 2^31 times the same character, whose table is 0 everywhere. -/
theorem right_not_letters : ¬Right (List.replicate (2 ^ 31) 97) := by
  have length : (List.replicate (2 ^ 31) (97 : UInt8)).length = 2 ^ 31 := List.length_replicate
  rw [right_nonpositive_iff (by rw [length]) (by rw [length]; decide),not_not]
  refine ⟨1,Nat.le_refl 1,by rw [length]; decide,?_⟩
  rw [List.getElem?_replicate_of_lt (by decide),List.getElem?_replicate_of_lt (by decide)]

end KMPPattern
end WebSearch
