import WebSearch.File
import WebSearch.RegistryControlledDomain

/-! `file/simple_line_reader.cc`. An open file is what is left to read of it. -/
namespace WebSearch.File
open RegistryControlledDomain (strncasecmp)

/-- The line with its newline, and what is left; `-1` is none. -/
def getline : Bytes → Option (Bytes × Bytes)
  | [] => none
  | c :: fp => if c = newline then some ([c],fp) else match getline fp with
    | none => some ([c],[])
    | some (line,fp) => some (c :: line,fp)

def startsWithASCII (str search : Bytes) (caseSensitive : Bool) : Bool :=
  if caseSensitive then str.take search.length == search
  else strncasecmp (cString str) (cString search) search.length == 0

structure SimpleLineReader where
  fp : Bytes
  skipEmptyLine : Bool
  skipCommentPrefix : Bytes
  lines : List Bytes

/-- `ProcessLines` with what is left of the file and the state of the callback. It throws
for a line that begins with a NUL, whose string cannot be made shorter. -/
def processLines {σ : Type} (skipEmptyLine : Bool) (callback : Bytes → σ → Bool × σ) : Nat → Bytes → σ →
    Option (Bytes × σ)
  | 0, _, _ => none
  | fuel + 1, fp, state => match getline fp with
    | none => some (fp,state)
    | some (line,fp) =>
      let turn :=
        if line.length = 0 ∨ line = [newline] then
          some (if skipEmptyLine then (true,state) else callback (cString line) state)
        else if cString line = [] then none
        else some (callback (cString line).dropLast state)
      match turn with
      | none => none
      | some (goOn,state) => if goOn then processLines skipEmptyLine callback fuel fp state else some (fp,state)

namespace SimpleLineReader

/-- The constructor with all arguments; the file must open. -/
def construct (filename : Bytes) (skipEmptyLine : Bool) (skipCommentPrefix : Bytes) (files : FileSystem) :
    Option SimpleLineReader :=
  (files (cString filename)).map fun content => ⟨content,skipEmptyLine,skipCommentPrefix,[]⟩

def pushLine (reader : SimpleLineReader) (line : Bytes) (lines : List Bytes) : Bool × List Bytes :=
  if line = [] ∧ reader.skipEmptyLine then (true,lines)
  else if reader.skipCommentPrefix ≠ [] ∧ startsWithASCII line reader.skipCommentPrefix false then (true,lines)
  else (true,lines ++ [line])

/-- The reader afterwards, and `out`, which changes place with the lines. -/
def readLines (reader : SimpleLineReader) (out : List Bytes) : Option (SimpleLineReader × List Bytes) := do
  let (fp,lines) ← processLines reader.skipEmptyLine reader.pushLine (reader.fp.length + 1) reader.fp reader.lines
  return ({ reader with fp := fp, lines := out },lines)

/-! What is delivered of a file. -/

theorem getline_line {body : Bytes} (plain : newline ∉ body) (rest : Bytes) :
    getline (body ++ newline :: rest) = some (body ++ [newline],rest) := by
  induction body with
  | nil => rfl
  | cons c body ih =>
    obtain ⟨first,later⟩ := not_or.mp (List.mem_cons.not.mp plain)
    rw [List.cons_append,getline,if_neg (Ne.symm first),ih later]
    rfl

theorem getline_last {body : Bytes} (plain : newline ∉ body) (nonempty : body ≠ []) :
    getline body = some (body,[]) := by
  induction body with
  | nil => exact absurd rfl nonempty
  | cons c body ih =>
    obtain ⟨first,later⟩ := not_or.mp (List.mem_cons.not.mp plain)
    rw [getline,if_neg (Ne.symm first)]
    cases body with
    | nil => rfl
    | cons d body => rw [ih later (List.cons_ne_nil d body)]

/-- The pieces between the newlines; after a last newline there is no further line. -/
def linesOf (content : Bytes) : List Bytes :=
  (content.splitOn newline).dropLast ++ ((content.splitOn newline).getLast?.filter (· ≠ [])).toList

/-- A line as the callback gets it: an empty one keeps its newline. -/
def marked (line : Bytes) : Bytes := if line = [] then [newline] else line

/-- What the callback gets: the last line loses a character when no newline ends it. -/
def delivered (content : Bytes) : List Bytes :=
  (content.splitOn newline).dropLast.map marked ++
    (((content.splitOn newline).getLast?.filter (· ≠ [])).map List.dropLast).toList

theorem delivered_line {body : Bytes} (plain : newline ∉ body) (rest : Bytes) :
    delivered (body ++ newline :: rest) = marked body :: delivered rest := by
  have more := List.splitOn_ne_nil newline rest
  rw [delivered,delivered,List.splitOn_append_cons_self_of_not_mem plain,List.dropLast_cons_of_ne_nil more,
    List.getLast?_cons_of_ne_nil more]
  rfl

theorem delivered_last {body : Bytes} (plain : newline ∉ body) (nonempty : body ≠ []) :
    delivered body = [body.dropLast] := by
  rw [delivered,List.splitOn_eq_singleton plain]
  simp [nonempty]

/-- A reader that skips nothing. -/
def plain (fp : Bytes) (lines : List Bytes) : SimpleLineReader := ⟨fp,false,[],lines⟩

theorem pushLine_plain (fp : Bytes) (old : List Bytes) (line : Bytes) (lines : List Bytes) :
    (plain fp old).pushLine line lines = (true,lines ++ [line]) := by
  simp [pushLine,plain]

/-- A turn of the loop, for a line without a NUL. -/
theorem processLines_succ {content line rest : Bytes} (read : getline content = some (line,rest)) (nonempty : line ≠ [])
    (noNul : 0 ∉ line) (fuel : Nat) (fp : Bytes) (old lines : List Bytes) :
    processLines false (plain fp old).pushLine (fuel + 1) content lines =
      processLines false (plain fp old).pushLine fuel rest
        (lines ++ [if line = [newline] then line else line.dropLast]) := by
  have some_char : line.length ≠ 0 := fun none => nonempty (List.eq_nil_of_length_eq_zero none)
  rw [processLines,read]
  simp only [cString_eq noNul,some_char,false_or,nonempty,if_false,pushLine_plain,Bool.false_eq_true]
  by_cases only : line = [newline]
  · simp only [only,if_true]
  · simp only [only,if_false,if_true]

theorem processLines_plain {fuel : Nat} {content : Bytes} (enough : content.length < fuel) (noNul : 0 ∉ content)
    (fp : Bytes) (old lines : List Bytes) :
    processLines false (plain fp old).pushLine fuel content lines = some ([],lines ++ delivered content) := by
  induction fuel generalizing content lines with
  | zero => exact absurd enough (Nat.not_lt_zero _)
  | succ fuel ih =>
    by_cases whole : newline ∈ content
    · obtain ⟨body,rest,rfl,here⟩ := List.eq_append_cons_of_mem whole
      have line_noNul : 0 ∉ body ++ [newline] := fun member => noNul (by simp at member ⊢; tauto)
      have rest_noNul : 0 ∉ rest := fun member => noNul (by simp [member])
      have shorter : rest.length < fuel := by
        rw [List.length_append,List.length_cons] at enough
        omega
      have pushed : (if body ++ [newline] = [newline] then body ++ [newline] else (body ++ [newline]).dropLast) = marked body := by
        by_cases empty : body = [] <;> simp [empty,marked]
      rw [processLines_succ (getline_line here rest) (by simp) line_noNul,ih shorter rest_noNul,pushed,delivered_line here,
        List.append_assoc,List.singleton_append]
    · by_cases empty : content = []
      · rw [empty]
        simp [processLines,getline,delivered]
      · have positive := List.length_pos_of_ne_nil empty
        have other : content ≠ [newline] := fun same => whole (same ▸ List.mem_singleton_self newline)
        rw [processLines_succ (getline_last whole empty) empty noNul,ih (by rw [List.length_nil]; omega) List.not_mem_nil,
          if_neg other,delivered_last whole empty]
        simp [delivered]

/-! When that is the lines of the file. -/

theorem map_marked_iff {lines : List Bytes} : lines.map marked = lines ↔ ∀ line ∈ lines, line ≠ [] := by
  have pointwise (line : Bytes) : marked line = line ↔ line ≠ [] := by
    by_cases empty : line = [] <;> simp [marked,empty]
  induction lines with
  | nil => simp
  | cons line lines ih => simp [pointwise,ih]

/-- The last piece is empty when the file is, or ends with a newline. -/
theorem last_piece_iff (content : Bytes) : (content.splitOn newline).getLast? = some [] ↔
    content = [] ∨ content.getLast? = some newline := by
  by_cases whole : newline ∈ content.reverse
  · obtain ⟨last,before,same,here⟩ := List.eq_append_cons_of_mem whole
    have split : content = before.reverse ++ newline :: last.reverse := by
      rw [← content.reverse_reverse,same]
      simp
    have plain : newline ∉ last.reverse := by rwa [List.mem_reverse]
    rw [split,List.splitOn_append_cons_self,List.splitOn_eq_singleton plain,List.getLast?_concat,Option.some.injEq,
      List.reverse_eq_nil_iff]
    cases last with
    | nil => simp
    | cons c last =>
      have other : c ≠ newline := fun same => here (same ▸ List.mem_cons_self)
      have ends : before.reverse ++ newline :: (c :: last).reverse = (before.reverse ++ newline :: last.reverse) ++ [c] := by
        simp
      rw [ends,List.getLast?_concat]
      simp [other]
  · have plain : newline ∉ content := by rwa [← List.mem_reverse]
    rw [List.splitOn_eq_singleton plain,List.getLast?_singleton,Option.some.injEq,iff_self_or]
    intro last
    exact absurd (List.mem_of_getLast? last) plain

theorem mem_linesOf_ne_nil {content : Bytes} : (∀ line ∈ linesOf content, line ≠ []) ↔
    ∀ line ∈ (content.splitOn newline).dropLast, line ≠ [] := by
  refine ⟨fun all line member => all line (List.mem_append_left _ member),fun all line member => ?_⟩
  obtain before | last := List.mem_append.mp member
  · exact all line before
  · obtain ⟨_,nonempty⟩ := Option.filter_eq_some_iff.mp (Option.mem_toList.mp last)
    exact of_decide_eq_true nonempty

/-- What is delivered are the lines when none is empty and a newline ends the last one. -/
theorem delivered_eq_iff (content : Bytes) : delivered content = linesOf content ↔
    (∀ line ∈ linesOf content, line ≠ []) ∧ (content = [] ∨ content.getLast? = some newline) := by
  rw [mem_linesOf_ne_nil,← last_piece_iff,← map_marked_iff]
  obtain ⟨before,last,pieces⟩ : ∃ before last, content.splitOn newline = before ++ [last] :=
    (List.eq_nil_or_concat' _).resolve_left (List.splitOn_ne_nil newline content)
  simp only [delivered,linesOf,pieces,List.dropLast_concat,List.getLast?_concat,Option.some.injEq]
  by_cases empty : last = []
  · simp [empty,Option.filter_some]
  · have shorter : last.dropLast ≠ last := by
      intro same
      have lengths := congrArg List.length same
      have positive := List.length_pos_of_ne_nil empty
      rw [List.length_dropLast] at lengths
      omega
    simp only [Option.filter_some,empty,ne_eq,not_false_eq_true,decide_true,if_true,Option.map_some,
      Option.toList_some,and_false,iff_false]
    intro same
    exact shorter (List.singleton_inj.mp (List.append_inj_right same (List.length_map _)))

theorem readLines_plain {content : Bytes} (noNul : 0 ∉ content) (out : List Bytes) :
    (plain content []).readLines out = some (plain [] out,delivered content) := by
  have processed := processLines_plain (Nat.lt_succ_self content.length) noNul content [] []
  change (processLines false (plain content []).pushLine (content.length + 1) content [] >>= _) = _
  rw [processed]
  rfl

/-- The first call of `ReadLines`, when the reader is told to skip nothing, gives the lines
of a file without a NUL just when none is empty and a newline ends the last one. -/
theorem lines_delivered_iff {files : FileSystem} {filename content : Bytes} (file : files (cString filename) = some content)
    (noNul : 0 ∉ content) (out : List Bytes) :
    (∃ reader next, construct filename false [] files = some reader ∧
      reader.readLines out = some (next,linesOf content)) ↔
    (∀ line ∈ linesOf content, line ≠ []) ∧ (content = [] ∨ content.getLast? = some newline) := by
  have opened : construct filename false [] files = some (plain content []) := by
    rw [construct,file]
    rfl
  rw [← delivered_eq_iff]
  constructor
  · rintro ⟨reader,next,made,read⟩
    rw [← Option.some.inj (opened.symm.trans made),readLines_plain noNul] at read
    exact (Prod.mk.inj (Option.some.inj read)).2
  · intro same
    refine ⟨_,plain [] out,opened,?_⟩
    rw [readLines_plain noNul,same]

/-- A file with the lines `a` and `b`. -/
theorem lines_delivered_two : ∃ reader next, construct [102] false [] (fun _ => some [97,10,98,10]) = some reader ∧
    reader.readLines [] = some (next,linesOf [97,10,98,10]) := by
  have file : (fun _ => some [97,10,98,10] : FileSystem) (cString [102]) = some [97,10,98,10] := rfl
  exact (lines_delivered_iff file (by decide) []).mpr (by decide)

/-- The empty line comes with its newline, and the last line comes short. -/
theorem empty_line_marked : ¬∀ (files : FileSystem) (filename content : Bytes), files (cString filename) = some content →
    0 ∉ content → ∀ out, ∃ reader next, construct filename false [] files = some reader ∧
      reader.readLines out = some (next,linesOf content) := by
  intro all
  obtain ⟨reader,next,made,read⟩ := all (fun _ => some [10,97]) [102] [10,97] rfl (by decide) []
  have opened : construct [102] false [] (fun _ => some [10,97]) = some (plain [10,97] []) := rfl
  rw [← Option.some.inj (opened.symm.trans made),readLines_plain (by decide)] at read
  exact absurd (Prod.mk.inj (Option.some.inj read)).2 (by decide)

end SimpleLineReader

end WebSearch.File
