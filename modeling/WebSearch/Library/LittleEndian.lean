import Mathlib.Data.List.Basic
import Mathlib.Algebra.Ring.Int.Defs
import Mathlib.Algebra.GroupWithZero.Nat

/-! Numbers as bytes, the least significant first, and lists of equally long pieces. -/
namespace WebSearch.Library

def toBytes : Nat → Nat → List UInt8
  | 0, _ => []
  | width + 1, n => UInt8.ofNat n :: toBytes width (n / 256)

def ofBytes : List UInt8 → Nat
  | [] => 0
  | byte :: bytes => byte.toNat + 256 * ofBytes bytes

@[simp] theorem length_toBytes (width n : Nat) : (toBytes width n).length = width := by
  induction width generalizing n with
  | zero => rfl
  | succ width ih => rw [toBytes,List.length_cons,ih]

theorem ofBytes_toBytes {width n : Nat} (small : n < 256^width) : ofBytes (toBytes width n) = n := by
  induction width generalizing n with
  | zero =>
    rw [Nat.pow_zero] at small
    exact (Nat.lt_one_iff.mp small).symm
  | succ width ih =>
    rw [Nat.pow_succ] at small
    rw [toBytes,ofBytes,ih (Nat.div_lt_of_lt_mul (by rwa [Nat.mul_comm] at small)),UInt8.toNat_ofNat']
    exact Nat.mod_add_div n 256

theorem ofBytes_lt (bytes : List UInt8) : ofBytes bytes < 256^bytes.length := by
  induction bytes with
  | nil => exact Nat.one_pos
  | cons byte bytes ih =>
    have first := byte.toNat_lt
    rw [ofBytes,List.length_cons,Nat.pow_succ]
    omega

/-- The first `count` pieces of a given width. -/
def pieces {α : Type} (width : Nat) : Nat → List α → List (List α)
  | 0, _ => []
  | count + 1, list => list.take width :: pieces width count (list.drop width)

theorem pieces_flatMap {α β : Type} {width : Nat} {encode : β → List α} (same : ∀ b, (encode b).length = width)
    (list : List β) : pieces width list.length (list.flatMap encode) = list.map encode := by
  induction list with
  | nil => rfl
  | cons b list ih =>
    rw [List.length_cons,pieces,List.flatMap_cons,List.take_left' (same b),List.drop_left' (same b),ih,List.map_cons]

theorem length_flatMap_width {α β : Type} {width : Nat} {encode : β → List α} (same : ∀ b, (encode b).length = width)
    (list : List β) : (list.flatMap encode).length = list.length * width := by
  induction list with
  | nil => simp
  | cons b list ih => rw [List.flatMap_cons,List.length_append,same,ih,List.length_cons,Nat.succ_mul,Nat.add_comm]

end WebSearch.Library
