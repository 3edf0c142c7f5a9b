import WebSearch.Base.Bytes
import WebSearch.Library.Runs
import Mathlib.Data.List.Induction

/-! `base/file_path.cc` where the only separator is the slash and there are no drive
letters: `letter` is `npos`, and `letter + 1` is 0. -/
namespace WebSearch.FilePath
open Library

def kSeparator : UInt8 := 47
def kCurrentDirectory : Bytes := [46]
def kParentDirectory : Bytes := [46,46]
def kExtensionSeparator : UInt8 := 46

def isSeparator (character : UInt8) : Bool := character = kSeparator

/-- The last index, as `rfind` and `find_last_of` give it. -/
def findLast (q : UInt8 → Bool) : Bytes → Option Nat
  | [] => none
  | c :: text =>
    match findLast q text with
    | some i => some (i + 1)
    | none => if q c then some 0 else none

def separatorAt (path : Bytes) (pos : Nat) : Bool := path[pos]?.any isSeparator

/-- The loop, with `pos` bytes to go; `start` is 1. -/
def stripLoop (lastStripped : Option Nat) : Nat → Bytes → Bytes
  | 0,path => path
  | pos + 1,path =>
    if 1 < pos + 1 ∧ separatorAt path pos then
      if pos + 1 ≠ 2 ∨ lastStripped = some 3 ∨ separatorAt path 0 = false then
        stripLoop (some (pos + 1)) pos (path.take pos)
      else stripLoop lastStripped pos path
    else path

def stripTrailingSeparators (path : Bytes) : Bytes := stripLoop none path.length path

/-- The middle part of `DirName`. -/
def trimBase (newPath : Bytes) : Bytes :=
  match findLast isSeparator newPath with
  | none => newPath.take 0
  | some lastSeparator =>
    if lastSeparator = 0 then newPath.take 1
    else if lastSeparator = 1 ∧ separatorAt newPath 0 then newPath.take 2
    else newPath.take lastSeparator

def dirName (path : Bytes) : Bytes :=
  let newPath := stripTrailingSeparators (trimBase (stripTrailingSeparators path))
  if newPath.length = 0 then kCurrentDirectory else newPath

def baseName (path : Bytes) : Bytes :=
  let newPath := stripTrailingSeparators path
  match findLast isSeparator newPath with
  | some lastSeparator => if lastSeparator < newPath.length - 1 then newPath.drop (lastSeparator + 1) else newPath
  | none => newPath

def isAbsolute (path : Bytes) : Bool := separatorAt path 0

/-- A component is not absolute. -/
def append (path component : Bytes) : Bytes :=
  if path = kCurrentDirectory then component
  else
    let newPath := stripTrailingSeparators path
    let newPath :=
      if 0 < component.length ∧ 0 < newPath.length ∧ separatorAt newPath (newPath.length - 1) = false then
        newPath ++ [kSeparator]
      else newPath
    newPath ++ component

/-! Paths by what they consist of. -/

section Shape

theorem findLast_none {q : UInt8 → Bool} {text : Bytes} (no : ∀ c ∈ text, q c = false) : findLast q text = none := by
  induction text with
  | nil => rfl
  | cons c text ih =>
    rw [findLast,ih fun d member => no d (List.mem_cons_of_mem _ member),no c List.mem_cons_self]
    rfl

theorem findLast_append {q : UInt8 → Bool} {c : UInt8} (found : q c = true) (front : Bytes) {back : Bytes}
    (no : ∀ d ∈ back, q d = false) : findLast q (front ++ c :: back) = some front.length := by
  induction front with
  | nil =>
    rw [List.nil_append,findLast,findLast_none no,found]
    rfl
  | cons d front ih =>
    rw [List.cons_append,findLast,ih]
    rfl

/-- The part of a path between separators. -/
structure Name (name : Bytes) : Prop where
  filled : name ≠ []
  letters : ∀ c ∈ name, isSeparator c = false

theorem name_iff (name : Bytes) : (!name.isEmpty && name.all fun c => !isSeparator c) = true ↔ Name name := by
  simp only [Bool.and_eq_true,Bool.not_eq_true',List.isEmpty_eq_false_iff,List.all_eq_true]
  exact ⟨fun ⟨filled,letters⟩ => ⟨filled,letters⟩,fun ⟨filled,letters⟩ => ⟨filled,letters⟩⟩

instance (name : Bytes) : Decidable (Name name) := decidable_of_iff _ (name_iff name)

/-- Nothing in the end to be stripped. -/
def Ends (front : Bytes) : Prop := ∃ body c, front = body ++ [c] ∧ isSeparator c = false

abbrev seps (n : Nat) : Bytes := List.replicate n kSeparator

theorem Name.ends {name : Bytes} (is_name : Name name) (front : Bytes) : Ends (front ++ name) := by
  obtain rfl | ⟨body,c,rfl⟩ := List.eq_nil_or_concat name
  · exact absurd rfl is_name.filled
  · refine ⟨front ++ body,c,?_,is_name.letters c (by simp)⟩
    simp

theorem Ends.ne_nil {front : Bytes} (ends : Ends front) : front ≠ [] := by
  obtain ⟨body,c,rfl,-⟩ := ends
  simp

theorem separatorAt_last (front : Bytes) (c : UInt8) (back : Bytes) :
    separatorAt (front ++ c :: back) front.length = isSeparator c := by
  simp [separatorAt]

theorem stripLoop_ends {front : Bytes} (ends : Ends front) (k : Nat) (last : Option Nat) :
    stripLoop last (front.length + k) (front ++ seps k) = front := by
  obtain ⟨body,c,rfl,letter⟩ := ends
  induction k generalizing last with
  | zero =>
    have here := separatorAt_last body c []
    rw [letter] at here
    have size : (body ++ [c]).length = body.length + 1 := by simp
    rw [seps,List.replicate_zero,List.append_nil,Nat.add_zero,size,stripLoop,here,if_neg (by simp)]
  | succ k ih =>
    have size : (body ++ [c]).length + (k + 1) = (body ++ [c] ++ seps k).length + 1 := by simp; omega
    have more : body ++ [c] ++ seps (k + 1) = body ++ [c] ++ seps k ++ [kSeparator] := by
      rw [seps,List.replicate_succ',List.append_assoc _ _ [kSeparator]]
    have at_end := separatorAt_last (body ++ [c] ++ seps k) kSeparator []
    rw [size,more,stripLoop,at_end]
    have goes_on : 1 < (body ++ [c] ++ seps k).length + 1 ∧ isSeparator kSeparator = true := by
      refine ⟨?_,rfl⟩
      rw [List.length_append,List.length_append,List.length_singleton]
      omega
    rw [if_pos goes_on,if_pos,List.take_left]
    · have shorter : (body ++ [c] ++ seps k).length = (body ++ [c]).length + k := by simp; omega
      rw [shorter]
      exact ih _
    · rcases body with - | ⟨d,body⟩
      · right; right
        simpa [separatorAt] using letter
      · left
        simp

theorem strip_ends {front : Bytes} (ends : Ends front) (k : Nat) : stripTrailingSeparators (front ++ seps k) = front := by
  have stripped := stripLoop_ends ends k none
  rwa [stripTrailingSeparators,List.length_append,List.length_replicate]

/-- More than two separators are one, two stay. -/
def stripped (n : Nat) : Bytes := if n = 2 then seps 2 else seps (min n 1)

theorem stripLoop_seps (n : Nat) (last : Option Nat) : stripLoop last (n + 3) (seps (n + 3)) = seps 1 := by
  induction n generalizing last with
  | zero => rfl
  | succ n ih =>
    have here : separatorAt (seps (n + 1 + 3)) (n + 3) = true := by simp [separatorAt,seps,isSeparator]
    rw [show n + 1 + 3 = n + 3 + 1 by omega] at here ⊢
    rw [stripLoop,here,if_pos ⟨by omega,rfl⟩,if_pos (.inl (by omega)),seps,List.take_replicate,Nat.min_eq_left (by omega)]
    exact ih _

theorem strip_seps (n : Nat) : stripTrailingSeparators (seps n) = stripped n := by
  rw [stripTrailingSeparators,List.length_replicate]
  match n with
  | 0 | 1 | 2 => rfl
  | n + 3 => exact stripLoop_seps n none

/-- A path is nothing but separators, or a name after separators, or a name below another. -/
inductive Shape : Bytes → Prop where
  | root (n : Nat) : Shape (seps n)
  | top (n : Nat) {name : Bytes} (is_name : Name name) (k : Nat) : Shape (seps n ++ name ++ seps k)
  | below {front : Bytes} (ends : Ends front) (n : Nat) {name : Bytes} (is_name : Name name) (k : Nat) :
    Shape (front ++ seps (n + 1) ++ name ++ seps k)

/-- The letters at the end that satisfy `q`, and what is before them. -/
theorem exists_tail (q : UInt8 → Bool) (path : Bytes) : ∃ front back, path = front ++ back ∧
    (∀ c ∈ back, q c = true) ∧ (front = [] ∨ ∃ body c, front = body ++ [c] ∧ q c = false) := by
  induction path using List.reverseRecOn with
  | nil => exact ⟨[],[],rfl,by simp,.inl rfl⟩
  | append_singleton path c ih =>
    cases here : q c with
    | true =>
      obtain ⟨front,back,rfl,inside,outside⟩ := ih
      refine ⟨front,back ++ [c],List.append_assoc _ _ _,?_,outside⟩
      rw [List.forall_mem_append,List.forall_mem_singleton]
      exact ⟨inside,here⟩
    | false => exact ⟨path ++ [c],[],(List.append_nil _).symm,by simp,.inr ⟨path,c,rfl,here⟩⟩

theorem eq_seps {back : Bytes} (blank : ∀ c ∈ back, isSeparator c = true) : back = seps back.length :=
  List.eq_replicate_of_mem fun c member => of_decide_eq_true (blank c member)

theorem shape (path : Bytes) : Shape path := by
  obtain ⟨named,back,rfl,blank,rest⟩ := exists_tail isSeparator path
  rw [eq_seps blank]
  obtain rfl | ⟨body,c,rfl,letter⟩ := rest
  · exact .root _
  · obtain ⟨dir,rest,rfl,letters,above⟩ := exists_tail (fun c => !isSeparator c) body
    have is_name : Name (rest ++ [c]) := by
      refine ⟨by simp,?_⟩
      rw [List.forall_mem_append,List.forall_mem_singleton]
      exact ⟨fun d member => by simpa using letters d member,letter⟩
    rw [List.append_assoc dir]
    obtain ⟨front,gap,rfl,blank,outside⟩ := exists_tail isSeparator dir
    rw [eq_seps blank]
    obtain rfl | ⟨body,d,rfl,letter⟩ := outside
    · exact .top _ is_name _
    · cases gap with
      | nil =>
        -- a letter and a separator at once
        obtain nothing | ⟨_,_,same,separator⟩ := above
        · simp at nothing
        · rw [List.append_nil] at same
          have last := List.singleton_inj.mp (List.append_inj' same rfl).2
          rw [← last,letter] at separator
          simp at separator
      | cons e gap => exact .below ⟨body,d,rfl,letter⟩ gap.length is_name _

end Shape

section Names
variable {front name : Bytes}

theorem findLast_seps (front : Bytes) (n : Nat) (is_name : Name name) :
    findLast isSeparator (front ++ seps (n + 1) ++ name) = some (front.length + n) := by
  have cut : front ++ seps (n + 1) ++ name = front ++ seps n ++ kSeparator :: name := by
    rw [seps,List.replicate_succ',List.append_assoc,List.append_assoc,List.append_assoc,List.singleton_append]
  have found := findLast_append (show isSeparator kSeparator = true from rfl) (front ++ seps n) is_name.letters
  rwa [List.length_append,List.length_replicate,← cut] at found

/-- The directory of a name right below `n` separators. -/
def rootAbove (n : Nat) : Bytes := if n ≤ 2 then seps n else stripped (n - 1)

theorem dirName_root (n : Nat) : dirName (seps n) = if n = 0 then kCurrentDirectory else stripped n := by
  rw [dirName,strip_seps]
  match n with
  | 0 | 1 | 2 => rfl
  | n + 3 =>
    have single : stripped (n + 3) = seps 1 := rfl
    rw [single]
    rfl

theorem trimBase_top (n : Nat) (is_name : Name name) :
    trimBase (seps (n + 1) ++ name) = seps (if n = 0 then 1 else if n = 1 then 2 else n) := by
  have found := findLast_seps [] n is_name
  rw [List.nil_append,List.length_nil,Nat.zero_add] at found
  have taken (m : Nat) (few : m ≤ n + 1) : (seps (n + 1) ++ name).take m = seps m := by
    rw [List.take_append_of_le_length (by rwa [List.length_replicate]),seps,List.take_replicate,Nat.min_eq_left few]
  have first : separatorAt (seps (n + 1) ++ name) 0 = true := rfl
  rw [trimBase,found]
  dsimp only
  by_cases zero : n = 0
  · rw [if_pos zero,if_pos zero,taken 1 (by omega)]
  · rw [if_neg zero,if_neg zero,first]
    by_cases one : n = 1
    · rw [if_pos ⟨one,rfl⟩,if_pos one,taken 2 (by omega)]
    · rw [if_neg fun both => one both.1,if_neg one,taken n (by omega)]

theorem dirName_top (n : Nat) (is_name : Name name) (k : Nat) :
    dirName (seps n ++ name ++ seps k) = if n = 0 then kCurrentDirectory else rootAbove n := by
  rw [dirName,strip_ends (is_name.ends _)]
  cases n with
  | zero =>
    have none := findLast_none is_name.letters
    simp only [seps,List.replicate_zero,List.nil_append,trimBase,none]
    rfl
  | succ n =>
    rw [trimBase_top n is_name,strip_seps]
    match n with
    | 0 | 1 | 2 => rfl
    | n + 3 => rfl

theorem trimBase_below (ends : Ends front) (n : Nat) (is_name : Name name) :
    trimBase (front ++ seps (n + 1) ++ name) = front ++ seps n := by
  have filled : front.length ≠ 0 := fun none => ends.ne_nil (List.eq_nil_of_length_eq_zero none)
  have letter : ¬(front.length + n = 1 ∧ separatorAt (front ++ seps (n + 1) ++ name) 0 = true) := by
    rintro ⟨short,separator⟩
    obtain ⟨body,c,rfl,letter⟩ := ends
    rw [List.length_append,List.length_singleton] at short
    obtain rfl := List.eq_nil_of_length_eq_zero (show body.length = 0 by omega)
    simp [separatorAt,letter] at separator
  rw [trimBase,findLast_seps front n is_name]
  dsimp only
  rw [if_neg (by omega),if_neg letter,List.append_assoc,List.take_length_add_append,seps,
    List.take_append_of_le_length (by simp),List.take_replicate,Nat.min_eq_left (by omega)]

theorem dirName_below (ends : Ends front) (n : Nat) (is_name : Name name) (k : Nat) :
    dirName (front ++ seps (n + 1) ++ name ++ seps k) = front := by
  have filled : front.length ≠ 0 := fun none => ends.ne_nil (List.eq_nil_of_length_eq_zero none)
  rw [dirName,strip_ends (is_name.ends _),trimBase_below ends n is_name,strip_ends ends]
  exact if_neg filled

theorem baseName_root (n : Nat) : baseName (seps n) = stripped n := by
  rw [baseName,strip_seps]
  match n with
  | 0 | 1 | 2 => rfl
  | n + 3 =>
    have single : stripped (n + 3) = seps 1 := rfl
    rw [single]
    rfl

theorem baseName_after (front : Bytes) (n : Nat) (is_name : Name name) (k : Nat) :
    baseName (front ++ seps (n + 1) ++ name ++ seps k) = name := by
  have filled : 0 < name.length := List.length_pos_of_ne_nil is_name.filled
  have size : (front ++ seps (n + 1) ++ name).length = front.length + n + 1 + name.length := by simp; omega
  rw [baseName,strip_ends (is_name.ends _)]
  rw [findLast_seps front n is_name]
  dsimp only
  rw [if_pos (by omega)]
  apply List.drop_left'
  simp
  omega

theorem baseName_top (n : Nat) (is_name : Name name) (k : Nat) : baseName (seps n ++ name ++ seps k) = name := by
  cases n with
  | zero =>
    rw [baseName,strip_ends (is_name.ends _)]
    simp only [seps,List.replicate_zero,List.nil_append,findLast_none is_name.letters]
  | succ n => simpa using baseName_after [] n is_name k

end Names

end WebSearch.FilePath
