import Mathlib.Data.List.Basic
import Mathlib.Data.List.Induction

/-! Paths of files as texts: `os.path.join`, `normpath` and `abspath`. A path is read as
its parts between the slashes. -/
namespace WebSearch.Library.PosixPath

/-- What has been kept of the parts before, and the next part. -/
def normStep (rooted : Bool) (comps : List (List Char)) (comp : List Char) : List (List Char) :=
  if comp = [] ∨ comp = ['.'] then comps
  else if comp ≠ ['.','.'] ∨ (rooted = false ∧ comps = []) ∨ comps.getLast? = some ['.','.'] then comps ++ [comp]
  else comps.dropLast

/-- Two slashes at the beginning are kept, three are one. -/
def initialSlashes (path : List Char) : Nat :=
  let slashes := (path.takeWhile (· = '/')).length
  if slashes = 2 then 2 else min slashes 1

def normComps (rooted : Bool) (path : List Char) : List (List Char) := (path.splitOn '/').foldl (normStep rooted) []

def normpath (path : String) : String :=
  let slashes := initialSlashes path.toList
  let comps := normComps (slashes ≠ 0) path.toList
  let body := List.replicate slashes '/' ++ ['/'].intercalate comps
  if body = [] then "." else String.ofList body

def isabs (path : String) : Bool := ['/'].isPrefixOf path.toList

def join (a b : String) : String :=
  if isabs b then b else if a = "" ∨ a.toList.getLast? = some '/' then a ++ b else a ++ "/" ++ b

def abspath (cwd path : String) : String := normpath (if isabs path then path else join cwd path)

/-- What is in front of the last slash. -/
def dirname (path : String) : String :=
  let head := (path.toList.reverse.dropWhile (· ≠ '/')).reverse
  if head.all (· = '/') then String.ofList head else String.ofList (head.reverse.dropWhile (· = '/')).reverse

/-- What is behind the last slash. -/
def basename (path : String) : String := String.ofList (path.toList.reverse.takeWhile (· ≠ '/')).reverse

/-! Paths without dots are told apart by their parts. -/

/-- The name of a file: no slash in it, and not one of the two directories. -/
def Plain (comp : List Char) : Prop := comp ≠ [] ∧ comp ≠ ['.'] ∧ comp ≠ ['.','.'] ∧ '/' ∉ comp

instance (comp : List Char) : Decidable (Plain comp) := inferInstanceAs (Decidable (_ ∧ _))

def dirParts (path : String) : List (List Char) := if path = "." then [] else path.toList.splitOn '/'

/-- A directory below the root of a tree, as `normpath` leaves it. -/
def Tidy (path : String) : Prop := ∀ comp ∈ dirParts path, Plain comp

instance (path : String) : Decidable (Tidy path) := inferInstanceAs (Decidable (∀ comp ∈ dirParts path, _))

theorem dirParts_injective {path other : String} (same : dirParts path = dirParts other) : path = other := by
  unfold dirParts at same
  split at same
  · rename_i root
    split at same
    · rename_i root'
      exact root.trans root'.symm
    · exact absurd same.symm (List.splitOn_ne_nil _ _)
  · split at same
    · exact absurd same (List.splitOn_ne_nil _ _)
    · have text := congrArg (['/'].intercalate) same
      rw [List.intercalate_splitOn,List.intercalate_splitOn] at text
      exact String.toList_inj.mp text

theorem normStep_plain (rooted : Bool) (comps : List (List Char)) {comp : List Char} (plain : Plain comp) :
    normStep rooted comps comp = comps ++ [comp] := by
  obtain ⟨some,here,up,_⟩ := plain
  simp [normStep,some,here,up]

theorem Plain.named {comp : List Char} (plain : Plain comp) : comp ≠ [] ∧ '/' ∉ comp := ⟨plain.1,plain.2.2.2⟩

theorem normStep_nil (rooted : Bool) (comps : List (List Char)) : normStep rooted comps [] = comps := if_pos (.inl rfl)

theorem foldl_normStep_plain (rooted : Bool) (comps parts : List (List Char)) (plain : ∀ comp ∈ parts, Plain comp) :
    parts.foldl (normStep rooted) comps = comps ++ parts := by
  induction parts generalizing comps with
  | nil => simp
  | cons comp parts ih =>
    rw [List.foldl_cons,normStep_plain rooted comps (plain comp List.mem_cons_self),
      ih _ fun other member => plain other (List.mem_cons_of_mem _ member),List.append_assoc,List.singleton_append]

theorem foldl_normStep_dir (rooted : Bool) (comps : List (List Char)) {path : String} (tidy : Tidy path) :
    (path.toList.splitOn '/').foldl (normStep rooted) comps = comps ++ dirParts path := by
  by_cases root : path = "."
  · subst root
    have parts : ".".toList.splitOn '/' = [['.']] := by decide
    rw [parts]
    simp [dirParts,normStep]
  · have parts : dirParts path = path.toList.splitOn '/' := if_neg root
    rw [parts]
    exact foldl_normStep_plain rooted comps _ (parts ▸ tidy)

theorem normComps_below (rooted : Bool) (base : List Char) {path name : String} (tidy : Tidy path)
    (plain : Plain name.toList) : normComps rooted (base ++ '/' :: (path.toList ++ '/' :: name.toList)) =
      normComps rooted base ++ dirParts path ++ [name.toList] := by
  unfold normComps
  rw [List.splitOn_append_cons_self,List.splitOn_append_cons_self,List.splitOn_eq_singleton plain.2.2.2,
    List.foldl_append,List.foldl_append,foldl_normStep_dir rooted _ tidy,List.foldl_cons,List.foldl_nil,
    normStep_plain rooted _ plain]

/-- The parts of a path between the slashes that are not empty. -/
def names (path : List Char) : List (List Char) := (path.splitOn '/').filter (· ≠ [])

theorem mem_normStep {rooted : Bool} {comps : List (List Char)} {comp other : List Char}
    (member : other ∈ normStep rooted comps comp) : other ∈ comps ∨ other = comp ∧ comp ≠ [] := by
  unfold normStep at member
  split at member
  · exact .inl member
  · rename_i some
    split at member
    · rcases List.mem_append.mp member with old | new
      · exact .inl old
      · exact .inr ⟨List.mem_singleton.mp new,fun none => some (.inl none)⟩
    · exact .inl (List.dropLast_subset _ member)

theorem not_mem_splitOn (path : List Char) : ∀ part ∈ path.splitOn '/', '/' ∉ part := by
  induction path with
  | nil => simp
  | cons c path ih =>
    rw [List.splitOn_cons_eq_if_modifyHead]
    split
    · intro part member
      rcases List.mem_cons.mp member with first | later
      · simp [first]
      · exact ih part later
    · rename_i other
      cases parts : path.splitOn '/' with
      | nil => exact absurd parts (List.splitOn_ne_nil _ _)
      | cons head rest =>
        rw [parts] at ih
        intro part member
        rcases List.mem_cons.mp member with first | later
        · rw [first,List.mem_cons,not_or]
          exact ⟨fun same => other (beq_iff_eq.mpr same.symm),ih head List.mem_cons_self⟩
        · exact ih part (List.mem_cons_of_mem _ later)

theorem mem_normComps {rooted : Bool} {path comp : List Char} (member : comp ∈ normComps rooted path) :
    comp ≠ [] ∧ '/' ∉ comp := by
  have general (parts comps : List (List Char)) (inside : ∀ part ∈ parts, '/' ∉ part)
      (before : ∀ comp ∈ comps, comp ≠ [] ∧ '/' ∉ comp) :
      ∀ comp ∈ parts.foldl (normStep rooted) comps, comp ≠ [] ∧ '/' ∉ comp := by
    induction parts generalizing comps with
    | nil => exact before
    | cons part parts ih =>
      apply ih _ fun other later => inside other (List.mem_cons_of_mem _ later)
      intro other there
      rcases mem_normStep there with old | ⟨new,some⟩
      · exact before other old
      · rw [new]
        exact ⟨some,inside part List.mem_cons_self⟩
  exact general (path.splitOn '/') [] (not_mem_splitOn path) (by simp) comp member

/-- The directory itself is no part. -/
theorem ne_dot_of_mem_normComps {rooted : Bool} {path comp : List Char} (member : comp ∈ normComps rooted path) :
    comp ≠ ['.'] := by
  have general (parts comps : List (List Char)) (before : ∀ comp ∈ comps, comp ≠ ['.']) :
      ∀ comp ∈ parts.foldl (normStep rooted) comps, comp ≠ ['.'] := by
    induction parts generalizing comps with
    | nil => exact before
    | cons part parts ih =>
      apply ih
      intro other there
      unfold normStep at there
      split at there
      next => exact before other there
      next named =>
        split at there
        next =>
          rcases List.mem_append.mp there with old | new
          · exact before other old
          · exact fun here => named (.inr ((List.mem_singleton.mp new).symm.trans here))
        next => exact before other (List.dropLast_subset comps there)
  exact general (path.splitOn '/') [] (by simp) comp member

theorem names_replicate (n : Nat) (path : List Char) : names (List.replicate n '/' ++ path) = names path := by
  induction n with
  | zero => rfl
  | succ n ih =>
    have first := List.splitOn_append_cons_self (a := '/') [] (List.replicate n '/' ++ path)
    rw [List.nil_append] at first
    rw [← ih]
    simp [names,List.replicate_succ,first]

theorem names_intercalate {comps : List (List Char)} (some : comps ≠ [])
    (each : ∀ comp ∈ comps, comp ≠ [] ∧ '/' ∉ comp) : names (['/'].intercalate comps) = comps := by
  rw [names,List.splitOn_intercalate '/' (fun comp member => (each comp member).2) some,List.filter_eq_self]
  intro comp member
  exact decide_eq_true (each comp member).1

/-- A path that is not empty is read back from its normal form. -/
theorem names_normpath {path : String}
    (some : normComps (initialSlashes path.toList ≠ 0) path.toList ≠ []) :
    names (normpath path).toList = normComps (initialSlashes path.toList ≠ 0) path.toList := by
  have each (comp : List Char) (member : comp ∈ normComps (initialSlashes path.toList ≠ 0) path.toList) :=
    mem_normComps member
  have filled : List.replicate (initialSlashes path.toList) '/' ++
      ['/'].intercalate (normComps (initialSlashes path.toList ≠ 0) path.toList) ≠ [] := by
    intro empty
    have none := (List.append_eq_nil_iff.mp empty).2
    have read := names_intercalate some each
    rw [none] at read
    exact some (read.symm.trans rfl)
  unfold normpath
  rw [if_neg filled,String.toList_ofList,names_replicate,names_intercalate some each]

theorem initialSlashes_below (base : List Char) {first : Char} (letter : first ≠ '/') (rest : List Char) :
    initialSlashes (base ++ '/' :: first :: rest) = initialSlashes (base ++ ['/','.']) := by
  have ends : ('/' :: first :: rest).takeWhile (· = '/') = ['/','.'].takeWhile (· = '/') := by
    simp [letter]
  unfold initialSlashes
  rw [List.takeWhile_append,List.takeWhile_append,ends]

theorem Tidy.begins {path : String} (tidy : Tidy path) : ∃ first rest, path.toList = first :: rest ∧ first ≠ '/' := by
  by_cases root : path = "."
  · exact ⟨'.',[],by rw [root]; rfl,by decide⟩
  · rw [Tidy,dirParts,if_neg root] at tidy
    cases text : path.toList with
    | nil =>
      rw [text] at tidy
      exact absurd rfl (tidy [] (by simp)).1
    | cons first rest =>
      refine ⟨first,rest,rfl,?_⟩
      intro slash
      rw [text,slash,List.splitOn_cons_eq_if_modifyHead,if_pos (beq_self_eq_true _)] at tidy
      exact absurd rfl (tidy [] List.mem_cons_self).1

/-- Below one directory, different names in different directories are different files. -/
theorem normpath_below {base path name path' name' : String} (tidy : Tidy path) (plain : Plain name.toList)
    (tidy' : Tidy path') (plain' : Plain name'.toList)
    (same : normpath (base ++ "/" ++ path ++ "/" ++ name) = normpath (base ++ "/" ++ path' ++ "/" ++ name')) :
    path = path' ∧ name = name' := by
  have text (p n : String) : (base ++ "/" ++ p ++ "/" ++ n).toList = base.toList ++ '/' :: (p.toList ++ '/' :: n.toList) := by
    simp only [String.toList_append,List.append_assoc]
    rfl
  have slashes {p n : String} (t : Tidy p) :
      initialSlashes (base ++ "/" ++ p ++ "/" ++ n).toList = initialSlashes (base.toList ++ ['/','.']) := by
    obtain ⟨first,rest,begins,letter⟩ := t.begins
    rw [text,begins,List.cons_append]
    exact initialSlashes_below _ letter _
  have comps {p n : String} (t : Tidy p) (l : Plain n.toList) :=
    @names_normpath (base ++ "/" ++ p ++ "/" ++ n) (by rw [text,normComps_below _ _ t l]; simp)
  have read := congrArg (fun p => names p.toList) same
  rw [comps tidy plain,comps tidy' plain',slashes tidy,slashes tidy',text,text,normComps_below _ _ tidy plain,
    normComps_below _ _ tidy' plain'] at read
  obtain ⟨dirs,file⟩ := List.append_inj' read rfl
  exact ⟨dirParts_injective (List.append_cancel_left dirs),String.toList_inj.mp (List.singleton_inj.mp file)⟩

/-- The absolute path of what is below a directory is below one directory as well. -/
theorem abspath_below (cwd dir : String) : ∃ base, ∀ rest, abspath cwd (dir ++ "/" ++ rest) = normpath (base ++ "/" ++ rest) := by
  have absolute (rest : String) : isabs (dir ++ "/" ++ rest) = isabs (dir ++ "/") := by
    rw [isabs,isabs,String.toList_append,String.toList_append]
    cases dir.toList <;> simp [List.isPrefixOf]
  by_cases rooted : isabs (dir ++ "/") = true
  · exact ⟨dir,fun rest => by rw [abspath,absolute,if_pos rooted]⟩
  · by_cases ends : cwd = "" ∨ cwd.toList.getLast? = some '/'
    · refine ⟨cwd ++ dir,fun rest => ?_⟩
      rw [abspath,join,absolute,if_neg rooted,if_neg rooted,if_pos ends]
      simp only [String.append_assoc]
    · refine ⟨cwd ++ "/" ++ dir,fun rest => ?_⟩
      rw [abspath,join,absolute,if_neg rooted,if_neg rooted,if_neg ends]
      simp only [String.append_assoc]

/-! Absolute paths: the slashes in front, and plain parts. -/

theorem isabs_iff {path : String} : isabs path = true ↔ ∃ rest, path.toList = '/' :: rest := by
  rw [isabs]
  cases path.toList with
  | nil => simp
  | cons c rest =>
    simp only [List.isPrefixOf,Bool.and_true,beq_iff_eq]
    constructor
    · rintro rfl
      exact ⟨rest,rfl⟩
    · rintro ⟨_,text⟩
      exact (List.cons.inj text).1.symm

theorem initialSlashes_absolute {path : String} (absolute : isabs path = true) :
    initialSlashes path.toList = 1 ∨ initialSlashes path.toList = 2 := by
  obtain ⟨rest,text⟩ := isabs_iff.mp absolute
  have some : 0 < (path.toList.takeWhile (· = '/')).length := by
    rw [text]
    exact Nat.zero_lt_succ _
  unfold initialSlashes
  dsimp only
  split
  · exact .inr rfl
  · exact .inl (Nat.min_eq_right some)

/-- What `normpath` makes of an absolute path. -/
def rootedText (slashes : Nat) (comps : List (List Char)) : List Char := List.replicate slashes '/' ++ ['/'].intercalate comps

theorem normpath_rooted {path : String} (some : initialSlashes path.toList ≠ 0) :
    (normpath path).toList = rootedText (initialSlashes path.toList) (normComps true path.toList) := by
  have filled : List.replicate (initialSlashes path.toList) '/' ++ ['/'].intercalate (normComps true path.toList) ≠ [] :=
    fun empty => some ((List.replicate_eq_nil_iff _).mp (List.append_eq_nil_iff.mp empty).1)
  have rooted : decide (initialSlashes path.toList ≠ 0) = true := decide_eq_true some
  simp only [normpath,rooted,if_neg filled,String.toList_ofList,rootedText]

theorem normStep_rooted_plain {comps : List (List Char)} {comp : List Char} (plain : ∀ other ∈ comps, Plain other)
    (inside : '/' ∉ comp) : ∀ other ∈ normStep true comps comp, Plain other := by
  intro other member
  unfold normStep at member
  split at member
  next => exact plain other member
  next some =>
    split at member
    next named =>
      rcases List.mem_append.mp member with old | new
      · exact plain other old
      · obtain rfl := List.mem_singleton.mp new
        refine ⟨fun empty => some (.inl empty),fun here => some (.inr here),fun up => ?_,inside⟩
        rcases named with down | ⟨free,-⟩ | last
        · exact down up
        · exact absurd free (by decide)
        · exact (plain _ (List.mem_of_getLast? last)).2.2.1 rfl
    next => exact plain other (List.dropLast_subset comps member)

theorem foldl_normStep_rooted {parts comps : List (List Char)} (inside : ∀ part ∈ parts, '/' ∉ part)
    (plain : ∀ comp ∈ comps, Plain comp) : ∀ comp ∈ parts.foldl (normStep true) comps, Plain comp := by
  induction parts generalizing comps with
  | nil => exact plain
  | cons part parts ih =>
    exact ih (fun other later => inside other (List.mem_cons_of_mem _ later))
      (normStep_rooted_plain plain (inside part List.mem_cons_self))

theorem normComps_rooted (path : List Char) : ∀ comp ∈ normComps true path, Plain comp :=
  foldl_normStep_rooted (not_mem_splitOn path) (by simp)

/-- Every step up leaves out the last part; the root is its own parent. -/
theorem foldl_normStep_up (k : Nat) {comps : List (List Char)} (plain : ∀ comp ∈ comps, Plain comp) :
    (List.replicate k ['.','.']).foldl (normStep true) comps = comps.take (comps.length - k) := by
  induction k generalizing comps with
  | zero => exact (List.take_length ..).symm
  | succ k ih =>
    have last : comps.getLast? ≠ some ['.','.'] := fun up => (plain _ (List.mem_of_getLast? up)).2.2.1 rfl
    have step : normStep true comps ['.','.'] = comps.dropLast := by simp [normStep,last]
    rw [List.replicate_succ,List.foldl_cons,step,ih fun comp member => plain comp (List.dropLast_subset comps member),
      List.length_dropLast,List.dropLast_eq_take,List.take_take]
    congr 1
    omega

theorem initialSlashes_replicate {slashes : Nat} (few : slashes = 1 ∨ slashes = 2) {rest : List Char}
    (letter : rest.head? ≠ some '/') : initialSlashes (List.replicate slashes '/' ++ rest) = slashes := by
  have ends : rest.takeWhile (· = '/') = [] := by
    cases rest with
    | nil => rfl
    | cons c rest =>
      have other : c ≠ '/' := fun same => letter (congrArg some same)
      simp [other]
  rcases few with rfl | rfl
  · simp [initialSlashes,List.replicate_succ,ends]
  · simp [initialSlashes,List.replicate_succ,ends]

theorem head?_intercalate {comps : List (List Char)} (each : ∀ comp ∈ comps, comp ≠ [] ∧ '/' ∉ comp) :
    (['/'].intercalate comps).head? ≠ some '/' := by
  cases comps with
  | nil => simp [List.intercalate]
  | cons comp comps =>
    obtain ⟨some,inside⟩ := each comp List.mem_cons_self
    obtain ⟨c,comp,rfl⟩ := List.exists_cons_of_ne_nil some
    have letter : c ≠ '/' := fun same => inside (same ▸ List.mem_cons_self)
    cases comps <;> simpa [List.intercalate,List.intersperse] using letter

theorem rootedText_injective {slashes slashes' : Nat} {comps comps' : List (List Char)} (few : slashes = 1 ∨ slashes = 2)
    (few' : slashes' = 1 ∨ slashes' = 2) (plain : ∀ comp ∈ comps, Plain comp) (plain' : ∀ comp ∈ comps', Plain comp)
    (same : rootedText slashes comps = rootedText slashes' comps') : slashes = slashes' ∧ comps = comps' := by
  have each {comps : List (List Char)} (plain : ∀ comp ∈ comps, Plain comp) (comp : List Char) (member : comp ∈ comps) :
      comp ≠ [] ∧ '/' ∉ comp := (plain comp member).named
  have read {comps : List (List Char)} (plain : ∀ comp ∈ comps, Plain comp) : names (['/'].intercalate comps) = comps := by
    cases comps with
    | nil => rfl
    | cons comp comps => exact names_intercalate (List.cons_ne_nil comp comps) (each plain)
  have front := congrArg initialSlashes same
  have parts := congrArg names same
  rw [rootedText,rootedText,initialSlashes_replicate few (head?_intercalate (each plain)),
    initialSlashes_replicate few' (head?_intercalate (each plain'))] at front
  rw [rootedText,rootedText,names_replicate,names_replicate,read plain,read plain'] at parts
  exact ⟨front,parts⟩

/-- The parts of an absolute path; the root has an empty one behind its slash. -/
theorem splitOn_rootedText (slashes : Nat) {comps : List (List Char)} (plain : ∀ comp ∈ comps, Plain comp) :
    (rootedText slashes comps).splitOn '/' = List.replicate slashes [] ++ if comps = [] then [[]] else comps := by
  induction slashes with
  | zero =>
    rw [rootedText,List.replicate_zero,List.replicate_zero,List.nil_append,List.nil_append]
    split
    next root => simp [root,List.intercalate]
    next some => exact List.splitOn_intercalate '/' (fun comp member => (plain comp member).2.2.2) some
  | succ slashes ih =>
    have first := List.splitOn_append_cons_self (a := '/') [] (rootedText slashes comps)
    rw [ih] at first
    exact first

/-! Joined paths, from any directory. -/

theorem isabs_join {a b : String} (relative : isabs a = false) (behind : isabs b = false) : isabs (join a b) = false := by
  rw [← Bool.not_eq_true,isabs_iff] at *
  rw [join,if_neg (by rw [isabs_iff]; exact behind)]
  rintro ⟨rest,text⟩
  split at text
  next =>
    rw [String.toList_append] at text
    cases first : a.toList with
    | nil => exact behind ⟨rest,by rw [← text,first]; rfl⟩
    | cons c more =>
      rw [first] at text
      exact relative ⟨more,by rw [first,(List.cons.inj text).1]⟩
  next ends =>
    rw [String.toList_append,String.toList_append] at text
    cases first : a.toList with
    | nil => exact ends (.inl (String.toList_inj.mp first))
    | cons c more =>
      rw [first] at text
      exact relative ⟨more,by rw [first,(List.cons.inj text).1]⟩

theorem foldl_normStep_join (rooted : Bool) (comps : List (List Char)) (a : String) {b : String} (relative : isabs b = false) :
    ((join a b).toList.splitOn '/').foldl (normStep rooted) comps =
      (b.toList.splitOn '/').foldl (normStep rooted) ((a.toList.splitOn '/').foldl (normStep rooted) comps) := by
  rw [join,if_neg (by rw [relative]; decide)]
  split
  next ends =>
    rw [String.toList_append]
    rcases ends with rfl | slash
    · have first : "".toList.splitOn '/' = [[]] := rfl
      rw [first,List.foldl_cons,normStep_nil]
      rfl
    · obtain ⟨front,text⟩ := List.getLast?_eq_some_iff.mp slash
      rw [text,List.append_assoc,List.singleton_append,List.splitOn_append_cons_self,List.splitOn_append_cons_self,
        List.foldl_append,List.foldl_append]
      exact congrArg _ (normStep_nil rooted _).symm
  next =>
    rw [String.toList_append,String.toList_append,List.append_assoc]
    change ((a.toList ++ '/' :: b.toList).splitOn '/').foldl _ _ = _
    rw [List.splitOn_append_cons_self,List.foldl_append]

/-- Segments that are joined are gone through one after another. -/
theorem foldl_normStep_joins (rooted : Bool) (comps : List (List Char)) (first : String) {rest : List String}
    (inside : ∀ segment ∈ first :: rest, '/' ∉ segment.toList) :
    ((rest.foldl join first).toList.splitOn '/').foldl (normStep rooted) comps =
      ((first :: rest).map String.toList).foldl (normStep rooted) comps ∧ isabs (rest.foldl join first) = false := by
  have relative {segment : String} (inside : '/' ∉ segment.toList) : isabs segment = false := by
    rw [← Bool.not_eq_true,isabs_iff]
    rintro ⟨more,text⟩
    exact inside (text ▸ List.mem_cons_self)
  -- from behind: the last segment is joined to what the others have become
  induction rest using List.reverseRecOn with
  | nil =>
    have plain := inside first List.mem_cons_self
    exact ⟨by rw [List.foldl_nil,List.splitOn_eq_singleton plain]; rfl,relative plain⟩
  | append_singleton rest last ih =>
    have plain : '/' ∉ last.toList := inside last (List.mem_cons_of_mem _ (List.mem_append_right rest List.mem_cons_self))
    obtain ⟨before,begins⟩ := ih fun segment member => inside segment (by
      rcases List.mem_cons.mp member with rfl | later
      · exact List.mem_cons_self
      · exact List.mem_cons_of_mem _ (List.mem_append_left _ later))
    rw [List.foldl_append,List.foldl_cons,List.foldl_nil]
    refine ⟨?_,isabs_join begins (relative plain)⟩
    rw [foldl_normStep_join rooted comps _ (relative plain),before,List.splitOn_eq_singleton plain,← List.cons_append,
      List.map_append,List.foldl_append]
    rfl

theorem normComps_rootedText (slashes : Nat) {comps : List (List Char)} (plain : ∀ comp ∈ comps, Plain comp) :
    normComps true (rootedText slashes comps) = comps := by
  have front (n : Nat) : (List.replicate n ([] : List Char)).foldl (normStep true) [] = [] := by
    induction n with
    | zero => rfl
    | succ n ih => rw [List.replicate_succ,List.foldl_cons,normStep_nil,ih]
  rw [normComps,splitOn_rootedText slashes plain,List.foldl_append,front]
  split
  next root => rw [root,List.foldl_cons,normStep_nil,List.foldl_nil]
  next => rw [foldl_normStep_plain true [] comps plain,List.nil_append]

/-- From a directory, the parts of a relative path are gone through. -/
theorem normpath_join {slashes : Nat} {comps : List (List Char)} {base rel : String} (few : slashes = 1 ∨ slashes = 2)
    (plain : ∀ comp ∈ comps, Plain comp) (text : base.toList = rootedText slashes comps) (relative : isabs rel = false) :
    (normpath (join base rel)).toList = rootedText slashes ((rel.toList.splitOn '/').foldl (normStep true) comps) := by
  have letter : rel.toList.head? ≠ some '/' := by
    rw [← Bool.not_eq_true,isabs_iff] at relative
    intro slash
    obtain ⟨rest,begins⟩ := List.head?_eq_some_iff.mp slash
    exact relative ⟨rest,begins⟩
  have each (comp : List Char) (member : comp ∈ comps) : comp ≠ [] ∧ '/' ∉ comp :=
    (plain comp member).named
  have front : initialSlashes (join base rel).toList = slashes := by
    rw [join,if_neg (by rw [relative]; decide)]
    by_cases root : comps = []
    · -- the root ends in a slash, so that nothing is put behind it
      have ends : base.toList.getLast? = some '/' := by
        rw [text,root,rootedText]
        rcases few with rfl | rfl <;> rfl
      rw [if_pos (.inr ends),String.toList_append,text,root,rootedText,List.append_assoc]
      exact initialSlashes_replicate few letter
    · have filled : ['/'].intercalate comps ≠ [] := by
        intro empty
        have read := names_intercalate root each
        rw [empty] at read
        exact root (read.symm.trans rfl)
      have begins (rest : List Char) : (['/'].intercalate comps ++ rest).head? ≠ some '/' := by
        rw [List.head?_append_of_ne_nil _ filled]
        exact head?_intercalate each
      split
      · rw [String.toList_append,text,rootedText,List.append_assoc]
        exact initialSlashes_replicate few (begins _)
      · rw [String.toList_append,String.toList_append,text,rootedText,List.append_assoc,List.append_assoc]
        exact initialSlashes_replicate few (begins _)
  have parts := foldl_normStep_join true [] base relative
  change normComps true (join base rel).toList = List.foldl _ (normComps true base.toList) _ at parts
  rw [text,normComps_rootedText slashes plain] at parts
  rw [normpath_rooted (by rw [front]; omega),front,parts]

/-! A path in two pieces. -/

theorem isabs_join_absolute {a : String} (absolute : isabs a = true) (b : String) : isabs (join a b) = true := by
  obtain ⟨rest,text⟩ := isabs_iff.mp absolute
  rw [join]
  split
  next behind => exact behind
  next =>
    rw [isabs_iff]
    split
    · exact ⟨rest ++ b.toList,by rw [String.toList_append,text]; rfl⟩
    · exact ⟨rest ++ "/".toList ++ b.toList,by rw [String.toList_append,String.toList_append,text]; rfl⟩

theorem normComps_join (a : String) {b : String} (relative : isabs b = false) : normComps true (join a b).toList =
    (b.toList.splitOn '/').foldl (normStep true) (normComps true a.toList) := foldl_normStep_join true [] a relative

theorem foldl_normStep_intercalate (rooted : Bool) (comps : List (List Char)) {parts : List (List Char)}
    (inside : ∀ part ∈ parts, '/' ∉ part) :
    ((['/'].intercalate parts).splitOn '/').foldl (normStep rooted) comps = parts.foldl (normStep rooted) comps := by
  cases parts with
  | nil => exact normStep_nil rooted comps
  | cons part parts => rw [List.splitOn_intercalate '/' inside (List.cons_ne_nil part parts)]

theorem intercalate_append {comps rest : List (List Char)} (some : comps ≠ []) (more : rest ≠ []) :
    ['/'].intercalate (comps ++ rest) = ['/'].intercalate comps ++ '/' :: ['/'].intercalate rest := by
  induction comps with
  | nil => exact absurd rfl some
  | cons comp comps ih =>
    rw [List.cons_append,List.intercalate_cons_of_ne_nil (by simp [more])]
    by_cases last : comps = []
    · rw [last,List.nil_append,List.intercalate_singleton,List.append_assoc]
      rfl
    · rw [ih last,List.intercalate_cons_of_ne_nil last,List.append_assoc,List.append_assoc,List.append_assoc]

/-- What follows a directory and a slash. -/
theorem rootedText_drop (slashes : Nat) {comps : List (List Char)} (some : comps ≠ []) (rest : List (List Char)) :
    (rootedText slashes (comps ++ rest)).drop ((rootedText slashes comps).length + 1) = ['/'].intercalate rest := by
  by_cases last : rest = []
  · rw [last,List.append_nil,List.drop_eq_nil_of_le (Nat.le_succ _)]
    rfl
  · have whole : rootedText slashes (comps ++ rest) = rootedText slashes comps ++ '/' :: ['/'].intercalate rest := by
      rw [rootedText,intercalate_append some last,← List.append_assoc,← rootedText]
    rw [whole,← List.drop_drop,List.drop_left]
    rfl

/-- Empty parts are passed over. -/
theorem foldl_normStep_filter (rooted : Bool) (comps : List (List Char)) {parts : List (List Char)}
    (each : ∀ part ∈ parts, part = [] ∨ Plain part) :
    parts.foldl (normStep rooted) comps = comps ++ parts.filter fun part => part ≠ [] := by
  induction parts generalizing comps with
  | nil => simp
  | cons part parts ih =>
    have later := fun comps => ih comps fun other member => each other (List.mem_cons_of_mem _ member)
    rw [List.foldl_cons,later]
    rcases each part List.mem_cons_self with rfl | plain
    · rw [normStep_nil]
      rfl
    · rw [normStep_plain rooted comps plain,List.filter_cons_of_pos (by simp [plain.1]),List.append_assoc,List.singleton_append]

end WebSearch.Library.PosixPath
