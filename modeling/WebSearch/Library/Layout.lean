import Mathlib.Data.List.Basic

/-! Chunks that are laid out one after another, each at a multiple of a unit. The
space between two of them may hold anything. -/
namespace WebSearch.Library

/-- The next multiple of the unit. -/
def alignUp (n unit : Nat) : Nat := n + (unit - n % unit) % unit

section Align
variable {unit : Nat}

theorem alignUp_mod (positive : 0 < unit) (n : Nat) : alignUp n unit % unit = 0 := by
  have small := Nat.mod_lt n positive
  unfold alignUp
  by_cases aligned : n % unit = 0
  · simp [aligned]
  · rw [Nat.mod_eq_of_lt (by omega : unit - n % unit < unit),Nat.add_mod,Nat.mod_eq_of_lt (by omega : unit - n % unit < unit)]
    have whole : n % unit + (unit - n % unit) = unit := by omega
    rw [whole,Nat.mod_self]

theorem le_alignUp (n : Nat) : n ≤ alignUp n unit := Nat.le_add_right _ _

theorem alignUp_lt (positive : 0 < unit) (n : Nat) : alignUp n unit < n + unit :=
  Nat.add_lt_add_left (Nat.mod_lt _ positive) n

theorem alignUp_eq {n : Nat} (aligned : n % unit = 0) : alignUp n unit = n := by simp [alignUp,aligned]

/-- It is the least multiple that is not below. -/
theorem alignUp_le (positive : 0 < unit) {n m : Nat} (below : n ≤ m) (aligned : m % unit = 0) : alignUp n unit ≤ m := by
  have near := alignUp_lt positive n
  have first := Nat.div_add_mod (alignUp n unit) unit
  have second := Nat.div_add_mod m unit
  rw [alignUp_mod positive n,Nat.add_zero] at first
  rw [aligned,Nat.add_zero] at second
  rw [← first,← second]
  apply Nat.mul_le_mul_left
  have less : unit * (alignUp n unit / unit) < unit * (m / unit + 1) := by
    rw [first,Nat.mul_add,second]
    omega
  exact Nat.le_of_lt_succ (Nat.lt_of_mul_lt_mul_left less)

theorem alignUp_mono (positive : 0 < unit) {n m : Nat} (below : n ≤ m) : alignUp n unit ≤ alignUp m unit :=
  alignUp_le positive (Nat.le_trans below (le_alignUp m)) (alignUp_mod positive m)

/-- Padding after an aligned start is the padding of what follows. -/
theorem alignUp_add {start : Nat} (aligned : start % unit = 0) (n : Nat) :
    alignUp (start + n) unit = start + alignUp n unit := by
  have same : (start + n) % unit = n % unit := by rw [Nat.add_mod,aligned,Nat.zero_add,Nat.mod_mod]
  rw [alignUp,alignUp,same,Nat.add_assoc]

end Align

variable {α : Type} (unit : Nat)

/-- Where the chunks end that are laid out behind so much. -/
def layoutFrom (start : Nat) (chunks : List (List α)) : Nat :=
  chunks.foldl (fun size chunk => alignUp size unit + chunk.length) start

def layoutSize (chunks : List (List α)) : Nat := layoutFrom unit 0 chunks

/-- The chunks stand in the content from the first offset on, and end before the second. -/
inductive Laid (content : List α) : Nat → List (List α) → Nat → Prop
  | nil (offset : Nat) : Laid content offset [] offset
  | cons {offset stop : Nat} {chunk : List α} {chunks : List (List α)} (within : offset + chunk.length ≤ content.length)
    (here : (content.drop offset).take chunk.length = chunk)
    (later : Laid content (offset + alignUp chunk.length unit) chunks stop) : Laid content offset (chunk :: chunks) stop

variable {unit} {content : List α} {start middle stop : Nat} {chunks others : List (List α)}

theorem Laid.start_le (laid : Laid unit content start chunks stop) : start ≤ stop := by
  induction laid with
  | nil offset => exact Nat.le_refl offset
  | cons _ _ _ ih => omega

theorem Laid.append (first : Laid unit content start chunks middle) (second : Laid unit content middle others stop) :
    Laid unit content start (chunks ++ others) stop := by
  induction first with
  | nil offset => exact second
  | cons within here _ ih => exact .cons within here (ih second)

/-- What is laid out stays where it is when more is appended. -/
theorem Laid.extend (laid : Laid unit content start chunks stop) (more : List α) :
    Laid unit (content ++ more) start chunks stop := by
  induction laid with
  | nil offset => exact .nil offset
  | @cons offset stop chunk chunks within here _ ih =>
    refine .cons (by rw [List.length_append]; omega) ?_ ih
    rw [List.drop_append_of_le_length (by omega),List.take_append_of_le_length (by rw [List.length_drop]; omega)]
    exact here

theorem Laid.push (laid : Laid unit content 0 chunks (alignUp content.length unit)) (positive : 0 < unit)
    {padding chunk : List α} (aligned : (content ++ padding).length = alignUp content.length unit) :
    Laid unit (content ++ padding ++ chunk) 0 (chunks ++ [chunk]) (alignUp (content ++ padding ++ chunk).length unit) := by
  have stop : alignUp (content ++ padding ++ chunk).length unit = alignUp content.length unit + alignUp chunk.length unit := by
    rw [List.length_append,aligned,alignUp_add (alignUp_mod positive _)]
  rw [stop,List.append_assoc]
  apply (laid.extend _).append
  rw [← List.append_assoc,← aligned]
  refine .cons (by simp only [List.length_append]; omega) ?_ (.nil _)
  rw [List.drop_left,List.take_length]

theorem layoutSize_concat (chunk : List α) :
    layoutSize unit (chunks ++ [chunk]) = alignUp (layoutSize unit chunks) unit + chunk.length := by
  rw [layoutSize,layoutFrom,List.foldl_append]
  rfl

theorem layoutFrom_sublist (positive : 0 < unit) {few many : List (List α)} (sublist : few.Sublist many) {start later : Nat}
    (order : start ≤ later) : layoutFrom unit start few ≤ layoutFrom unit later many := by
  induction sublist generalizing start later with
  | slnil => exact order
  | cons chunk _ ih => exact ih (Nat.le_trans (Nat.le_trans order (le_alignUp later)) (Nat.le_add_right _ _))
  | cons_cons chunk _ ih => exact ih (Nat.add_le_add_right (alignUp_mono positive order) _)

theorem layoutSize_sublist (positive : 0 < unit) {few many : List (List α)} (sublist : few.Sublist many) :
    layoutSize unit few ≤ layoutSize unit many := layoutFrom_sublist positive sublist (Nat.le_refl 0)

end WebSearch.Library
