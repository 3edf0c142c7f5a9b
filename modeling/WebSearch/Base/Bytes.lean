import Mathlib.Data.List.Basic
import Mathlib.Order.Basic
import Mathlib.Algebra.Ring.Int.Defs
import Mathlib.Algebra.GroupWithZero.Nat

/-! Byte strings and the machine integers that the modelled C++ code measures
them with. A `std::string` is its bytes; `int` counters wrap at 32 bits. -/
namespace WebSearch

abbrev Bytes := List UInt8

instance (priority := high) lawfulBytes : LawfulBEq Bytes := inferInstance

/-- `static_cast<int>` of a 64-bit count: the low 32 bits in two's complement. -/
def toInt32 (n : Nat) : Int :=
  if n % 2^32 < 2^31 then (n % 2^32 : Nat) else (n % 2^32 : Nat) - 2^32

theorem toInt32_small {n : Nat} (small : n < 2^31) : toInt32 n = n := by
  have low : n % 2^32 = n := Nat.mod_eq_of_lt (by omega)
  simp only [toInt32,low,small,if_true]

theorem toInt32_lt (n : Nat) : toInt32 n < 2^31 := by
  unfold toInt32
  split <;> omega

/-- The bytes a loop `for (int i = 0; i < len; ++i)` with
`len = static_cast<int>(s.length())` runs over. -/
def visited (s : Bytes) : Bytes := s.take (toInt32 s.length).toNat

theorem visited_small {s : Bytes} (small : s.length < 2^31) : visited s = s := by
  simp [visited,toInt32_small small]

theorem visited_length_lt (s : Bytes) : (visited s).length < 2^31 := by
  have bound := toInt32_lt s.length
  simp only [visited,List.length_take]
  omega

/-- What `c_str()` shows of the string: the bytes before the first NUL. -/
def cString (s : Bytes) : Bytes := s.takeWhile (· != 0)

theorem cString_begins (s : Bytes) : cString s <+: s :=
  List.takeWhile_prefix _

theorem cString_cons (c : UInt8) (s : Bytes) : cString (c :: s) = if c = 0 then [] else c :: cString s := by
  unfold cString
  by_cases nul : c = 0 <;> simp [nul]

theorem cString_eq {s : Bytes} (noNul : 0 ∉ s) : cString s = s := by
  induction s with
  | nil => rfl
  | cons c s ih =>
    obtain ⟨first,rest⟩ := not_or.mp (List.mem_cons.not.mp noNul)
    rw [cString_cons,if_neg (Ne.symm first),ih rest]

theorem cString_append {s : Bytes} (noNul : 0 ∉ s) (rest : Bytes) : cString (s ++ rest) = s ++ cString rest := by
  induction s with
  | nil => rfl
  | cons c s ih =>
    obtain ⟨first,more⟩ := not_or.mp (List.mem_cons.not.mp noNul)
    rw [List.cons_append,cString_cons,if_neg (Ne.symm first),ih more,List.cons_append]

theorem cString_cut {s : Bytes} (noNul : 0 ∉ s) (rest : Bytes) : cString (s ++ 0 :: rest) = s := by
  rw [cString_append noNul,cString_cons,if_pos rfl,List.append_nil]

theorem cString_append_nul {s : Bytes} (nul : 0 ∈ s) (rest : Bytes) : cString (s ++ rest) = cString s := by
  obtain ⟨front,back,rfl,noNul⟩ := List.eq_append_cons_of_mem nul
  rw [List.append_assoc,List.cons_append,cString_cut noNul,cString_cut noNul]

theorem zero_not_mem_cString (s : Bytes) : 0 ∉ cString s := by
  induction s with
  | nil => exact List.not_mem_nil
  | cons c s ih =>
    rw [cString_cons]
    split
    · exact List.not_mem_nil
    · next other => exact fun member => (List.mem_cons.mp member).elim (fun zero => other zero.symm) ih

theorem cString_le {a b : Bytes} (order : a ≤ b) : cString a ≤ cString b := by
  induction a generalizing b with
  | nil => exact List.nil_le _
  | cons x a ih =>
    cases b with
    | nil => exact absurd order (by simp)
    | cons y b =>
      rw [cString_cons,cString_cons]
      by_cases nul : x = 0
      · rw [if_pos nul]
        exact List.nil_le _
      · rw [if_neg nul]
        obtain less | ⟨same,order⟩ := List.cons_le_cons_iff.mp order
        · have other : y ≠ 0 := by
            intro zero
            rw [zero,UInt8.lt_iff_toNat_lt] at less
            exact absurd less (Nat.not_lt_zero _)
          rw [if_neg other]
          exact List.cons_le_cons_iff.mpr (.inl less)
        · rw [← same,if_neg nul]
          exact List.cons_le_cons_iff.mpr (.inr ⟨rfl,ih order⟩)

end WebSearch
