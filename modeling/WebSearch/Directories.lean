import WebSearch.Base.Bytes
import WebSearch.Library.FileTree
import Mathlib.Data.List.DropRight

/-! `file/file.cc`: the directories and files a process finds, and what the system calls
make of a path. Permission and space are never missing. -/
namespace WebSearch.File
open Library

def slash : UInt8 := 47
def dot : UInt8 := 46

/-- A name in a directory: no slash and no NUL in it, and none that stands for a directory. -/
def FileName (name : Bytes) : Prop := name ≠ [] ∧ name ≠ [dot] ∧ name ≠ [dot,dot] ∧ slash ∉ name ∧ 0 ∉ name

instance fileNameDecidable (name : Bytes) : Decidable (FileName name) := inferInstanceAs (Decidable (_ ∧ _))

structure Directories extends FileTree Bytes where
  cwd : List Bytes
  cwd_dir : kind cwd = some .dir
  named : ∀ name dir, kind (name :: dir) ≠ none → FileName name

def component (part : Bytes) : Component Bytes :=
  if part = [] ∨ part = [dot] then .here else if part = [dot,dot] then .up else .name part

namespace Directories

def start (dirs : Directories) (path : Bytes) : List Bytes := if path.head? = some slash then [] else dirs.cwd

def walkParts (dirs : Directories) (path : Bytes) (parts : List Bytes) : Option (List Bytes) :=
  dirs.walk (dirs.start path) (parts.map component)

/-- The calls get a C string, and an empty one leads nowhere. -/
def resolve (dirs : Directories) (path : Bytes) : Option (List Bytes) :=
  let path := cString path
  if path = [] then none else dirs.walkParts path (path.splitOn slash)

/-- `stat`, and `lstat` as well: there are no links. -/
def stat (dirs : Directories) (path : Bytes) : Option FileKind := (dirs.resolve path).bind dirs.kind

def access (dirs : Directories) (path : Bytes) : Bool := (dirs.stat path).isSome

def makeDir (dirs : Directories) (dir : List Bytes) (name : Bytes) (there : dirs.kind dir = some .dir) (plain : FileName name) :
    Directories where
  toFileTree := dirs.addDir dir name there
  cwd := dirs.cwd
  cwd_dir := by
    by_cases here : dirs.cwd = name :: dir
    · rw [here]
      exact Function.update_self _ _ _
    · exact (Function.update_of_ne here _ _).trans dirs.cwd_dir
  named other loc some := by
    by_cases same : other :: loc = name :: dir
    · obtain ⟨rfl,-⟩ := List.cons.inj same
      exact plain
    · exact dirs.named other loc fun missing => some ((Function.update_of_ne same _ _).trans missing)

/-- `mkdir` skips slashes at the end, and cannot make what is there. -/
def mkdir (dirs : Directories) (path : Bytes) : Option Directories :=
  let path := cString path
  let parts := (path.splitOn slash).rdropWhile (· = [])
  match dirs.walkParts path parts.dropLast, parts.getLast? with
  | some dir, some name =>
    if ok : dirs.kind dir = some .dir ∧ FileName name ∧ dirs.kind (name :: dir) = none then
      some (dirs.makeDir dir name ok.1 ok.2.1)
    else none
  | _, _ => none

theorem start_eq {dirs : Directories} {path other : Bytes} (nonempty : path ≠ []) (begins : path <+: other) :
    dirs.start path = dirs.start other := by
  obtain ⟨rest,rfl⟩ := begins
  rw [start,start,List.head?_append_of_ne_nil _ nonempty]

end Directories

def isDir (dirs : Directories) (dir : Bytes) : Bool := dirs.stat dir = some .dir

/-- `Exists`. -/
def fileExists (dirs : Directories) (filename : Bytes) : Bool := dirs.access filename

def createDir (dirs : Directories) (dir : Bytes) : Option Directories := dirs.mkdir dir

/-- A file `f` in the root. -/
def oneFile : Directories where
  kind loc := if loc = [] then some .dir else if loc = [[102]] then some .file else none
  root := rfl
  parent name dir there := by
    by_cases below : name :: dir = [[102]]
    · rw [(List.cons.inj below).2]
      rfl
    · simp [below] at there
  cwd := []
  cwd_dir := rfl
  named name dir there := by
    by_cases below : name :: dir = [[102]]
    · rw [(List.cons.inj below).1]
      decide
    · simp [below] at there

end WebSearch.File
