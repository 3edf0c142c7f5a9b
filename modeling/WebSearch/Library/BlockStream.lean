import Mathlib.Data.List.Basic

/-! Feeding a list to a compression function in blocks of `n`, all at once or piece by
piece with a buffer for what does not fill a block yet. -/
namespace WebSearch.Library.BlockStream

variable {σ α : Type} {n : Nat} {compress : σ → List α → σ}

/-- The state after all complete blocks, and the rest. -/
def absorb (n : Nat) (compress : σ → List α → σ) (s : σ) (list : List α) : σ × List α :=
  if n = 0 ∨ list.length < n then (s,list) else absorb n compress (compress s (list.take n)) (list.drop n)
termination_by list.length
decreasing_by
  rename_i enough
  rw [List.length_drop]
  omega

theorem absorb_short (s : σ) {list : List α} (short : list.length < n) : absorb n compress s list = (s,list) := by
  rw [absorb,if_pos (.inr short)]

theorem absorb_block (positive : 0 < n) (s : σ) {list : List α} (enough : n ≤ list.length) :
    absorb n compress s list = absorb n compress (compress s (list.take n)) (list.drop n) := by
  rw [absorb,if_neg (by omega)]

theorem absorb_first (positive : 0 < n) (s : σ) {block : List α} (whole : block.length = n) (rest : List α) :
    absorb n compress s (block ++ rest) = absorb n compress (compress s block) rest := by
  rw [absorb_block positive,List.take_left' whole,List.drop_left' whole]
  rw [List.length_append,whole]
  omega

/-- A part of a block, completed by the first of what comes. -/
theorem absorb_complete {held more : List α} {k : Nat} (full : held.length + k = n) (enough : k ≤ more.length)
    (positive : 0 < n) (s : σ) : absorb n compress s (held ++ more) =
    absorb n compress (compress s (held ++ more.take k)) (more.drop k) := by
  have whole : (held ++ more.take k).length = n := by
    rw [List.length_append,List.length_take,Nat.min_eq_left enough,full]
  have cut : held ++ more = held ++ more.take k ++ more.drop k := by
    rw [List.append_assoc,List.take_append_drop]
  rw [cut,absorb_first positive s whole]

theorem absorb_last (positive : 0 < n) (s : σ) {block : List α} (whole : block.length = n) :
    absorb n compress s block = (compress s block,[]) := by
  have first : absorb n compress s (block ++ []) = _ := absorb_first positive s whole []
  rw [List.append_nil] at first
  rw [first]
  exact absorb_short _ positive

/-- What is left over goes first when more comes. -/
theorem absorb_append (positive : 0 < n) (s : σ) (list more : List α) : absorb n compress s (list ++ more) =
    absorb n compress (absorb n compress s list).1 ((absorb n compress s list).2 ++ more) := by
  induction s, list using absorb.induct n compress with
  | case1 s list short =>
    have short : list.length < n := by omega
    rw [absorb_short s short]
  | case2 s list enough ih =>
    have enough : n ≤ list.length := by omega
    have longer : n ≤ (list ++ more).length := by
      rw [List.length_append]
      omega
    rw [absorb_block positive s longer,absorb_block positive s enough,List.take_append_of_le_length enough,
      List.drop_append_of_le_length enough,ih]

end WebSearch.Library.BlockStream
