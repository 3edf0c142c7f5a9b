import WebSearch.Directories

/-! `file/file.cc`: the files in a directory, and those at any depth below. -/
namespace WebSearch.File
open Library Directories

/-- What `readdir` yields: the names in a directory, in any order, and the two that stand
for it and its parent. -/
structure Listing (dirs : Directories) where
  entries : List Bytes → List Bytes
  nodup : ∀ dir, (entries dir).Nodup
  mem_entries : ∀ dir name, name ∈ entries dir ↔ name = [dot] ∨ name = [dot,dot] ∨ dirs.kind (name :: dir) ≠ none

def opendir (dirs : Directories) (dir : Bytes) : Option (List Bytes) :=
  (dirs.resolve dir).filter fun dp => dirs.kind dp = some .dir

def pathIn (dir name : Bytes) : Bytes := if dir.getLast? = some slash then dir ++ name else dir ++ [slash] ++ name

def getFilesInDir (dirs : Directories) (listing : Listing dirs) (dir : Bytes) (out : List Bytes) : Bool × List Bytes :=
  match opendir dirs dir with
  | none => (false,out)
  | some dp =>
    (true,(listing.entries dp).foldl (fun out name =>
      if !isDir dirs (pathIn dir name) then out ++ [pathIn dir name] else out) out)

def getDirsInDir (dirs : Directories) (listing : Listing dirs) (dir : Bytes) (out : List Bytes) : Bool × List Bytes :=
  match opendir dirs dir with
  | none => (false,out)
  | some dp =>
    (true,(listing.entries dp).foldl (fun out name =>
      if isDir dirs (dir ++ [slash] ++ name) then out ++ [name] else out) out)

def subDirsLoop (visit : Bytes → List Bytes → Option (Bool × List Bytes)) : List Bytes → List Bytes → Option (Bool × List Bytes)
  | [], out => some (true,out)
  | dir :: rest, out => do
    let result ← visit dir out
    if !result.1 then some (false,result.2) else subDirsLoop visit rest result.2

def getFilesInDirDeeply (dirs : Directories) (listing : Listing dirs) : Nat → Bytes → List Bytes → Option (Bool × List Bytes)
  | 0, _, _ => none
  | fuel + 1, dir, out =>
    let files := getFilesInDir dirs listing dir out
    if !files.1 then some (false,files.2)
    else
      let subDirs := getDirsInDir dirs listing dir []
      -- the directories have been found
      if subDirs.1 then some (false,files.2)
      else subDirsLoop (getFilesInDirDeeply dirs listing fuel) subDirs.2 files.2

/-- The path of what a list of names leads to, the innermost first. -/
def pathBelow (dir : Bytes) (names : List Bytes) : Bytes := names.foldr (fun name path => pathIn path name) dir

/-- What is asked: all files below the directory, each once. -/
def Gathers (dirs : Directories) (listing : Listing dirs) (dir : Bytes) (out : List Bytes) : Prop :=
  ∃ fuel added, getFilesInDirDeeply dirs listing fuel dir out = some (true,out ++ added) ∧ added.Nodup ∧
    ∀ path, path ∈ added ↔ ∃ dp names, opendir dirs dir = some dp ∧ names ≠ [] ∧ dirs.kind (names ++ dp) = some .file ∧
      path = pathBelow dir names

/-! The files in one directory. -/

section InDir
variable {dirs : Directories} {dir name : Bytes} {dp : List Bytes}

theorem pathIn_eq (dir name : Bytes) : ∃ front, pathIn dir name = front ++ slash :: name ∧ (dir = front ∨ dir = front ++ [slash]) := by
  unfold pathIn
  split
  · rename_i ends
    obtain ⟨front,rfl⟩ := List.getLast?_eq_some_iff.mp ends
    exact ⟨front,by rw [List.append_assoc,List.singleton_append],Or.inr rfl⟩
  · exact ⟨dir,by rw [List.append_assoc,List.singleton_append],Or.inl rfl⟩

theorem resolve_pathIn (noNul : 0 ∉ dir) (opened : opendir dirs dir = some dp) (plain : slash ∉ name) (noNul_name : 0 ∉ name) :
    dirs.resolve (pathIn dir name) = dirs.enter dp (component name) := by
  obtain ⟨resolved,is_dir⟩ := Option.filter_eq_some_iff.mp opened
  have kind : dirs.kind dp = some .dir := of_decide_eq_true is_dir
  obtain ⟨front,path,same⟩ := pathIn_eq dir name
  have noNul_front : 0 ∉ front := by
    obtain rfl | rfl := same
    · exact noNul
    · exact fun member => noNul (List.mem_append_left _ member)
  have shown : cString (front ++ slash :: name) = front ++ slash :: name := cString_eq (by
    simp only [List.mem_append,List.mem_cons,noNul_front,noNul_name,or_false,false_or]
    decide)
  have nonempty : dir ≠ [] := by
    rintro rfl
    exact absurd resolved (Option.some_ne_none _).symm
  -- the directory without a slash at its end
  have walked : dirs.walkParts (front ++ slash :: name) (front.splitOn slash) = some dp := by
    rw [resolve,cString_eq noNul] at resolved
    change ite _ _ _ = _ at resolved
    rw [if_neg nonempty] at resolved
    obtain rfl | rfl := same
    · rw [walkParts,start,List.head?_append_of_ne_nil _ nonempty]
      exact resolved
    · have from_same : dirs.start (front ++ [slash]) = dirs.start (front ++ slash :: name) :=
        start_eq nonempty ⟨name,by rw [List.append_assoc,List.singleton_append]⟩
      rw [List.splitOn_append_cons_self,List.splitOn_nil,walkParts,List.map_append,FileTree.walk_append,from_same] at resolved
      obtain ⟨loc,before,last⟩ := Option.bind_eq_some_iff.mp resolved
      rw [List.map_singleton,FileTree.walk_singleton] at last
      obtain ⟨-,stays⟩ := FileTree.enter_eq_some last
      rw [walkParts,before]
      exact congrArg some stays
  rw [resolve,path,shown]
  change ite _ _ _ = _
  rw [if_neg (by simp),List.splitOn_append_cons_self,List.splitOn_eq_singleton plain,walkParts,List.map_append]
  exact FileTree.walk_snoc walked _

theorem component_of_fileName (plain : FileName name) : component name = .name name := by
  obtain ⟨some,here,up,-⟩ := plain
  rw [component,if_neg (not_or.mpr ⟨some,here⟩),if_neg up]

/-- Neither the directory itself nor its parent is taken for a file. -/
theorem isDir_pathIn (listing : Listing dirs) (noNul : 0 ∉ dir) (opened : opendir dirs dir = some dp)
    (member : name ∈ listing.entries dp) : isDir dirs (pathIn dir name) = false ↔ dirs.kind (name :: dp) = some .file := by
  have kind : dirs.kind dp = some .dir := of_decide_eq_true (Option.filter_eq_some_iff.mp opened).2
  -- the entries that are not names lead to directories
  have special {comp : Component Bytes} (is_comp : component name = comp) (dir_there : dirs.kind (FileTree.move dp comp) = some .dir)
      (plain : slash ∉ name ∧ 0 ∉ name) (odd : ¬FileName name) :
      isDir dirs (pathIn dir name) = false ↔ dirs.kind (name :: dp) = some .file := by
    have entered : dirs.enter dp comp = some (FileTree.move dp comp) :=
      FileTree.enter_of_some kind (by rw [dir_there]; exact Option.some_ne_none _)
    refine iff_of_false ?_ fun file => odd (dirs.named name dp (by rw [file]; exact Option.some_ne_none _))
    rw [isDir,stat,resolve_pathIn noNul opened plain.1 plain.2,is_comp,entered,Option.bind_some,dir_there]
    decide
  obtain rfl | rfl | there := (listing.mem_entries dp name).mp member
  · exact special rfl kind (by decide) (by decide)
  · exact special rfl (FileTree.kind_tail kind) (by decide) (by decide)
  · have plain := dirs.named name dp there
    have entered : dirs.enter dp (.name name) = some (name :: dp) := FileTree.enter_of_some kind there
    rw [isDir,stat,resolve_pathIn noNul opened plain.2.2.2.1 plain.2.2.2.2,component_of_fileName plain,entered,Option.bind_some,
      decide_eq_false_iff_not]
    cases is_kind : dirs.kind (name :: dp) with
    | none => exact absurd is_kind there
    | some kind => cases kind <;> decide

/-- The paths of the files in the directory are added, and no others. -/
theorem getFilesInDir_eq (listing : Listing dirs) (noNul : 0 ∉ dir) (opened : opendir dirs dir = some dp) (out : List Bytes) :
    getFilesInDir dirs listing dir out =
      (true,out ++ ((listing.entries dp).filter fun name => dirs.kind (name :: dp) = some .file).map (pathIn dir)) := by
  have pushed (names : List Bytes) (within : ∀ name ∈ names, name ∈ listing.entries dp) :
      names.foldl (fun out name => if !isDir dirs (pathIn dir name) then out ++ [pathIn dir name] else out) out =
        out ++ (names.filter fun name => dirs.kind (name :: dp) = some .file).map (pathIn dir) := by
    induction names generalizing out with
    | nil => exact (List.append_nil out).symm
    | cons name names ih =>
      obtain ⟨member,rest⟩ := List.forall_mem_cons.mp within
      have file := isDir_pathIn listing noNul opened member
      rw [List.foldl_cons,ih _ rest,List.filter_cons]
      by_cases is_file : dirs.kind (name :: dp) = some .file
      · simp [file.mpr is_file,is_file]
      · have is_dir : isDir dirs (pathIn dir name) = true := eq_true_of_ne_false (mt file.mp is_file)
        simp [is_dir,is_file]
  rw [getFilesInDir,opened]
  exact congrArg (Prod.mk true) (pushed _ fun _ member => member)

end InDir

/-! Below. -/

theorem getDirsInDir_ok (dirs : Directories) (listing : Listing dirs) (dir : Bytes) (out found : List Bytes) :
    (getDirsInDir dirs listing dir found).1 = (getFilesInDir dirs listing dir out).1 := by
  unfold getDirsInDir getFilesInDir
  split <;> rfl

theorem getFilesInDirDeeply_false (dirs : Directories) (listing : Listing dirs) (fuel : Nat) (dir : Bytes) (out : List Bytes) :
    getFilesInDirDeeply dirs listing (fuel + 1) dir out = some (false,(getFilesInDir dirs listing dir out).2) := by
  simp only [getFilesInDirDeeply,getDirsInDir_ok dirs listing dir out]
  cases (getFilesInDir dirs listing dir out).1 <;> rfl

theorem not_gathers (dirs : Directories) (listing : Listing dirs) (dir : Bytes) (out : List Bytes) :
    ¬Gathers dirs listing dir out := by
  rintro ⟨fuel,added,run,-⟩
  cases fuel with
  | zero => exact absurd run (Option.some_ne_none _).symm
  | succ fuel =>
    rw [getFilesInDirDeeply_false] at run
    exact absurd (congrArg Prod.fst (Option.some.inj run)) Bool.false_ne_true

/-- It always ends at once, and reports a failure. -/
theorem getFilesInDirDeeply_fails (dirs : Directories) (listing : Listing dirs) (dir : Bytes) (out : List Bytes) :
    (∀ fuel, getFilesInDirDeeply dirs listing (fuel + 1) dir out = some (false,(getFilesInDir dirs listing dir out).2)) ∧
      ¬Gathers dirs listing dir out :=
  ⟨fun fuel => getFilesInDirDeeply_false dirs listing fuel dir out,not_gathers dirs listing dir out⟩

def oneFileListing : Listing oneFile where
  entries dir := if dir = [] then [[dot],[dot,dot],[102]] else [[dot],[dot,dot]]
  nodup dir := by split <;> decide
  mem_entries dir name := by
    by_cases root : dir = []
    · subst root
      simp [oneFile]
    · simp [oneFile,root]

/-- With the root for its directory the one file is found, but no success reported. -/
theorem oneFile_not_gathers : getFilesInDirDeeply oneFile oneFileListing 1 [slash] [] = some (false,[[slash,102]]) ∧
    ¬Gathers oneFile oneFileListing [slash] [] :=
  ⟨rfl,not_gathers oneFile oneFileListing [slash] []⟩

end WebSearch.File
