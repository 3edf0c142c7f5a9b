import WebSearch.SplitString
import Mathlib.Logic.Function.Basic

/-! `file/file.cc`: lines written to a file, appended to it and read back. A file
system maps names to contents; every file can be opened for writing, and every write
is complete. -/
namespace WebSearch.File
open StringUtil

def newline : UInt8 := 10

abbrev FileSystem := Bytes → Option Bytes

/-- `fopen` gets the name as a C string. -/
def writeStringToFile (content filename : Bytes) (files : FileSystem) : Bool × FileSystem :=
  (true,Function.update files (cString filename) (some content))

def appendStringToFile (content filename : Bytes) (files : FileSystem) : Bool × FileSystem :=
  (true,Function.update files (cString filename) (some ((files (cString filename)).getD [] ++ content)))

/-- The loop over `fread` into a buffer of the given size, from what is left of the file. -/
def readLoop (size : Nat) : Nat → Bytes → Bytes → Bytes
  | 0, _, out => out
  | fuel + 1, rest, out =>
    let buf := rest.take size
    if 0 < buf.length then readLoop size fuel (rest.drop buf.length) (out ++ buf) else out

def readFileToString (filename : Bytes) (files : FileSystem) (out : Bytes) : Bool × Bytes :=
  match files (cString filename) with
  | none => (false,out)
  | some content => (true,readLoop 65536 (content.length + 1) content out)

def writeLinesToFile (lines : List Bytes) (filename : Bytes) (files : FileSystem) : Bool × FileSystem :=
  writeStringToFile (joinString lines newline) filename files

def appendLinesToFile (lines : List Bytes) (filename : Bytes) (files : FileSystem) : Bool × FileSystem :=
  appendStringToFile (joinString lines newline) filename files

def readFileToLines (filename : Bytes) (files : FileSystem) (lines : List Bytes) : Bool × List Bytes :=
  match readFileToString filename files [] with
  | (true,content) => (true,splitString content newline lines)
  | (false,_) => (false,lines)

theorem readLoop_eq {size : Nat} (positive : 0 < size) {fuel : Nat} {rest : Bytes} (enough : rest.length < fuel)
    (out : Bytes) : readLoop size fuel rest out = out ++ rest := by
  induction fuel generalizing rest out with
  | zero => exact absurd enough (Nat.not_lt_zero _)
  | succ fuel ih =>
    have taken := List.length_take (i := size) (l := rest)
    simp only [readLoop]
    by_cases some : 0 < (rest.take size).length
    · have shorter : (rest.drop (rest.take size).length).length < fuel := by
        rw [List.length_drop]
        omega
      have whole : rest.take size ++ rest.drop (rest.take size).length = rest := by
        rw [taken]
        obtain within | beyond := Nat.le_total size rest.length
        · rw [Nat.min_eq_left within,List.take_append_drop]
        · rw [Nat.min_eq_right beyond,List.take_of_length_le beyond,List.drop_length,List.append_nil]
      rw [if_pos some,ih shorter,List.append_assoc,whole]
    · have nothing : rest = [] := List.eq_nil_of_length_eq_zero (by omega)
      rw [if_neg some,nothing,List.append_nil]

/-- A file is read as the trimmed pieces between its newlines. -/
theorem readFileToLines_eq {filename content : Bytes} {files : FileSystem}
    (file : files (cString filename) = some content) (lines : List Bytes) :
    readFileToLines filename files lines = (true,lines ++ (content.splitOn newline).map trimWhitespace) := by
  have read : readFileToString filename files [] = (true,content) := by
    simp only [readFileToString,file,readLoop_eq (by decide : 0 < 65536) (Nat.lt_succ_self content.length),List.nil_append]
  simp only [readFileToLines,read,splitString_eq]

section Lines
variable {files : FileSystem} {filename : Bytes} {a b : List Bytes}

theorem written_content : (writeLinesToFile a filename files).2 (cString filename) = some ([newline].intercalate a) := by
  simp only [writeLinesToFile,writeStringToFile,Function.update_self,joinString_eq]

theorem read_written (nonempty : a ≠ []) (plain : ∀ line ∈ a, newline ∉ line) :
    readFileToLines filename (writeLinesToFile a filename files).2 [] = (true,a.map trimWhitespace) := by
  rw [readFileToLines_eq written_content,List.nil_append,List.splitOn_intercalate newline plain nonempty]

/-- The last line that was written and the first one appended become one line. -/
theorem intercalate_append (a b : List Bytes) (x y : Bytes) :
    [newline].intercalate (a ++ [x]) ++ [newline].intercalate (y :: b) =
      [newline].intercalate (a ++ (x ++ y) :: b) := by
  induction a with
  | nil =>
    cases b with
    | nil => simp
    | cons z b => simp [List.intercalate_cons_cons]
  | cons first a ih =>
    have more : a ++ [x] ≠ [] := by simp
    have joined : a ++ (x ++ y) :: b ≠ [] := by simp
    rw [List.cons_append,List.cons_append,List.intercalate_cons_of_ne_nil more,
      List.intercalate_cons_of_ne_nil joined,← ih]
    simp only [List.append_assoc]

theorem read_appended (x y : Bytes) (plain : ∀ line ∈ (a ++ [x]) ++ y :: b, newline ∉ line) :
    readFileToLines filename
        (appendLinesToFile (y :: b) filename (writeLinesToFile (a ++ [x]) filename files).2).2 [] =
      (true,(a ++ (x ++ y) :: b).map trimWhitespace) := by
  have file : (appendLinesToFile (y :: b) filename (writeLinesToFile (a ++ [x]) filename files).2).2
      (cString filename) = some ([newline].intercalate (a ++ (x ++ y) :: b)) := by
    simp only [appendLinesToFile,appendStringToFile,Function.update_self,written_content,Option.getD_some,joinString_eq,
      intercalate_append]
  have merged : ∀ line ∈ a ++ (x ++ y) :: b, newline ∉ line := by
    intro line member
    simp only [List.mem_append,List.mem_cons,List.not_mem_nil,or_false] at member plain
    obtain before | rfl | after := member
    · exact plain line (.inl (.inl before))
    · rw [List.mem_append,not_or]
      exact ⟨plain x (.inl (.inr rfl)),plain y (.inr (.inl rfl))⟩
    · exact plain line (.inr (.inr after))
  rw [readFileToLines_eq file,List.nil_append,List.splitOn_intercalate newline merged (by simp)]

theorem map_eq_self_iff : a.map trimWhitespace = a ↔ ∀ line ∈ a, Trimmed line := by
  have pointwise : a.map trimWhitespace = a ↔ ∀ line ∈ a, trimWhitespace line = line := by
    constructor
    · intro same line member
      exact List.map_inj_left.mp (same.trans (List.map_id a).symm) line member
    · intro same
      exact (List.map_inj_left.mpr same).trans (List.map_id a)
  rw [pointwise]
  exact forall₂_congr fun line _ => trimWhitespace_eq_self_iff line

/-- After an append the lines never come back as written: the file has one line too
few. Before it they do when none begins or ends with whitespace. -/
theorem lines_never_read_back (nonempty : a ≠ [] ∧ b ≠ []) (plain : ∀ line ∈ a ++ b, newline ∉ line) :
    ¬(readFileToLines filename (writeLinesToFile a filename files).2 [] = (true,a) ∧
      readFileToLines filename (appendLinesToFile b filename (writeLinesToFile a filename files).2).2 [] =
        (true,a ++ b)) ∧
    (readFileToLines filename (writeLinesToFile a filename files).2 [] = (true,a) ↔ ∀ line ∈ a, Trimmed line) := by
  constructor
  · intro both
    obtain ⟨y,rest,rfl⟩ := List.exists_cons_of_ne_nil nonempty.2
    obtain ⟨before,x,rfl⟩ := (List.eq_nil_or_concat' a).resolve_left nonempty.1
    have read := both.2
    rw [read_appended x y plain] at read
    have lengths := congrArg (fun reply => reply.2.length) read
    simp only [List.length_map,List.length_append,List.length_cons,List.length_nil] at lengths
    omega
  · rw [read_written nonempty.1 fun line member => plain line (List.mem_append_left b member),← map_eq_self_iff]
    simp

/-- The line `a` in a file `f`. -/
theorem lines_never_read_back_single :
    readFileToLines [102] (writeLinesToFile [[97]] [102] fun _ => none).2 [] = (true,[[97]]) := by
  have plain : ∀ line ∈ [[97]] ++ [[98]], newline ∉ line := by simp [newline]
  have trimmed : ∀ line ∈ [[97]], Trimmed line := by simp [Trimmed,kWhitespaceASCII]
  exact (lines_never_read_back ⟨by simp,by simp⟩ plain).2.mpr trimmed

theorem appended_line_joined : ¬∀ (files : FileSystem) (filename : Bytes) (a b : List Bytes), a ≠ [] ∧ b ≠ [] →
    (∀ line ∈ a ++ b, newline ∉ line) →
    readFileToLines filename (writeLinesToFile a filename files).2 [] = (true,a) ∧
      readFileToLines filename (appendLinesToFile b filename (writeLinesToFile a filename files).2).2 [] =
        (true,a ++ b) := by
  intro all
  have wrong := (all (fun _ => none) [102] [[97]] [[98]] ⟨by simp,by simp⟩ (by simp [newline])).2
  have read : readFileToLines [102] (appendLinesToFile [[98]] [102] (writeLinesToFile [[97]] [102] fun _ => none).2).2 [] =
      (true,[[97,98]]) := by decide
  rw [read] at wrong
  exact absurd wrong (by decide)

end Lines

end WebSearch.File
