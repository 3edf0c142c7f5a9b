import Mathlib.Data.List.Infix

/-! Borders of the beginnings of a pattern, and the search for its first occurrence in a
text by falling back along them. -/
namespace WebSearch.Library

variable {α : Type} {p text : List α}

theorem take_succ_suffix_iff {q : List α} {k i : Nat} (short : k < p.length) (inside : i < q.length) :
    p.take (k + 1) <:+ q.take (i + 1) ↔ p.take k <:+ q.take i ∧ p[k]? = q[i]? := by
  rw [List.take_succ_eq_append_getElem short,List.take_succ_eq_append_getElem inside,
    List.getElem?_eq_getElem short,List.getElem?_eq_getElem inside,Option.some.injEq]
  constructor
  · rintro ⟨front,same⟩
    rw [← List.append_assoc] at same
    obtain ⟨before,last⟩ := List.append_inj' same rfl
    exact ⟨⟨front,before⟩,List.singleton_inj.mp last⟩
  · rintro ⟨⟨front,before⟩,last⟩
    refine ⟨front,?_⟩
    rw [← List.append_assoc,before,last]

/-- The first `k` characters end the first `i`, and are fewer. -/
def Border (p : List α) (i k : Nat) : Prop := k < i ∧ p.take k <:+ p.take i

structure LongestBorder (p : List α) (i k : Nat) : Prop where
  border : Border p i k
  longest : ∀ m, Border p i m → m ≤ k

theorem border_zero {i : Nat} (positive : 0 < i) : Border p i 0 :=
  ⟨positive,by rw [List.take_zero]; exact List.nil_suffix⟩

theorem Border.trans {i j k : Nat} (outer : Border p i j) (inner : Border p j k) : Border p i k :=
  ⟨inner.1.trans outer.1,inner.2.trans outer.2⟩

theorem take_suffix_of_le {q : List α} {k j : Nat} (less : k ≤ j) (short : p.take k <:+ q) (long : p.take j <:+ q) :
    p.take k <:+ p.take j := by
  apply List.suffix_of_suffix_length_le short long
  rw [List.length_take,List.length_take]
  omega

theorem border_succ_iff {i k : Nat} (inside : i < p.length) :
    Border p (i + 1) (k + 1) ↔ Border p i k ∧ p[k]? = p[i]? := by
  constructor
  · rintro ⟨less,ends⟩
    obtain ⟨before,same⟩ := (take_succ_suffix_iff (by omega) inside).mp ends
    exact ⟨⟨Nat.lt_of_succ_lt_succ less,before⟩,same⟩
  · rintro ⟨⟨less,before⟩,same⟩
    exact ⟨Nat.succ_lt_succ less,(take_succ_suffix_iff (by omega) inside).mpr ⟨before,same⟩⟩

/-- No border of the first `i + 1` characters is longer than `t`, which is one only if its
last character fits. -/
structure Candidate (p : List α) (i t : Nat) : Prop where
  border : ∀ k, t = k + 1 → Border p i k
  bound : ∀ m, Border p (i + 1) m → m ≤ t

namespace Candidate
variable {i t k : Nat} (inside : i < p.length)
include inside

theorem start (longest : LongestBorder p i k) : Candidate p i (k + 1) where
  border j same := by
    rw [← Nat.succ.inj same]
    exact longest.border
  bound m border := by
    cases m with
    | zero => exact Nat.zero_le _
    | succ m => exact Nat.succ_le_succ (longest.longest m ((border_succ_iff inside).mp border).1)

/-- Falling back to the longest border of what there was. -/
theorem next (candidate : Candidate p i (t + 1)) (other : p[t]? ≠ p[i]?) (longest : LongestBorder p t k) :
    Candidate p i (k + 1) where
  border j same := by
    rw [← Nat.succ.inj same]
    exact (candidate.border t rfl).trans longest.border
  bound m border := by
    cases m with
    | zero => exact Nat.zero_le _
    | succ m =>
      obtain ⟨shorter,same⟩ := (border_succ_iff inside).mp border
      have bound := candidate.bound _ border
      have different : m ≠ t := fun equal => other (equal ▸ same)
      have less : m < t := by omega
      exact Nat.succ_le_succ
        (longest.longest m ⟨less,take_suffix_of_le less.le shorter.2 (candidate.border t rfl).2⟩)

theorem last (candidate : Candidate p i 1) (other : p[0]? ≠ p[i]?) : Candidate p i 0 where
  border k zero := absurd zero (Nat.succ_ne_zero k).symm
  bound m border := by
    cases m with
    | zero => exact Nat.zero_le _
    | succ m =>
      have bound := candidate.bound _ border
      obtain rfl : m = 0 := by omega
      exact absurd ((border_succ_iff inside).mp border).2 other

theorem done (candidate : Candidate p i t) (fits : ∀ k, t = k + 1 → p[k]? = p[i]?) : LongestBorder p (i + 1) t where
  border := by
    cases t with
    | zero => exact border_zero (Nat.succ_pos i)
    | succ t => exact (border_succ_iff inside).mpr ⟨candidate.border t rfl,fits t rfl⟩
  longest := candidate.bound

end Candidate

/-- The pattern stands in the text from there on. -/
def Occurs (p text : List α) (s : Nat) : Prop := p <+: text.drop s

theorem Occurs.matched {s k : Nat} (occurs : Occurs p text s) (within : k ≤ p.length) : p.take k <:+ text.take (s + k) := by
  obtain ⟨rest,split⟩ := occurs
  rw [List.take_add,← split,List.take_append_of_le_length within]
  exact List.suffix_append _ _

theorem Occurs.getElem? {s k : Nat} (occurs : Occurs p text s) (within : k < p.length) : text[s + k]? = p[k]? := by
  obtain ⟨rest,split⟩ := occurs
  rw [← List.getElem?_drop,← split,List.getElem?_append_left within]

/-- Before `i` the first `j` characters stand, and the pattern starts nowhere before these. -/
structure Scanned (p text : List α) (i j : Nat) : Prop where
  short : j < p.length
  matched : p.take j <:+ text.take i
  absent : ∀ s, s + j < i → ¬Occurs p text s

namespace Scanned
variable {i j : Nat}

theorem start (nonempty : p ≠ []) : Scanned p text 0 0 :=
  ⟨List.length_pos_of_ne_nil nonempty,by rw [List.take_zero]; exact List.nil_suffix,fun _ before => absurd before (Nat.not_lt_zero _)⟩

theorem advance (scanned : Scanned p text i j) (inside : i < text.length) (same : text[i]? = p[j]?) (short : j + 1 < p.length) :
    Scanned p text (i + 1) (j + 1) :=
  ⟨short,(take_succ_suffix_iff scanned.short inside).mpr ⟨scanned.matched,same.symm⟩,
    fun s before => scanned.absent s (by omega)⟩

/-- The whole pattern has been matched, and not earlier. -/
theorem found (scanned : Scanned p text i j) (inside : i < text.length) (same : text[i]? = p[j]?) (whole : j + 1 = p.length) :
    j ≤ i ∧ Occurs p text (i - j) ∧ ∀ s < i - j, ¬Occurs p text s := by
  have ends := (take_succ_suffix_iff scanned.short inside).mpr ⟨scanned.matched,same.symm⟩
  rw [whole,List.take_length] at ends
  obtain ⟨front,split⟩ := ends
  have lengths := congrArg List.length split
  rw [List.length_append,List.length_take] at lengths
  have before : front.length = i - j := by omega
  refine ⟨by omega,?_,fun s earlier => scanned.absent s (by omega)⟩
  have text_split : text = front ++ (p ++ text.drop (i + 1)) := by
    rw [← List.append_assoc,split,List.take_append_drop]
  rw [Occurs,← before,text_split,List.drop_left]
  exact List.prefix_append _ _

theorem fallback (scanned : Scanned p text i j) (other : text[i]? ≠ p[j]?) {k : Nat} (longest : LongestBorder p j k) :
    Scanned p text i k := by
  refine ⟨longest.border.1.trans scanned.short,longest.border.2.trans scanned.matched,fun s before occurs => ?_⟩
  by_cases earlier : s + j < i
  · exact scanned.absent s earlier occurs
  · obtain ⟨m,rfl⟩ : ∃ m, i = s + m := ⟨i - s,by omega⟩
    have within : m ≤ j := by omega
    obtain rfl | less := Nat.eq_or_lt_of_le within
    · exact other (occurs.getElem? scanned.short)
    · have stands := occurs.matched (Nat.le_of_lt (less.trans scanned.short))
      have bound := longest.longest m ⟨less,take_suffix_of_le less.le stands scanned.matched⟩
      omega

theorem skip (scanned : Scanned p text i 0) (other : text[i]? ≠ p[0]?) : Scanned p text (i + 1) 0 := by
  refine ⟨scanned.short,by rw [List.take_zero]; exact List.nil_suffix,fun s before occurs => ?_⟩
  obtain rfl | earlier := Nat.eq_or_lt_of_le (Nat.le_of_lt_succ before)
  · exact other (occurs.getElem? scanned.short)
  · exact scanned.absent s earlier occurs

theorem finish (scanned : Scanned p text text.length j) (s : Nat) : ¬Occurs p text s := by
  intro occurs
  have short := scanned.short
  have fits := occurs.length_le
  rw [List.length_drop] at fits
  exact scanned.absent s (by omega) occurs

end Scanned

end WebSearch.Library
