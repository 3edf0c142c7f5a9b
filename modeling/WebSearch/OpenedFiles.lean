import WebSearch.LoadBuildFiles

/-! `_get_opened_files` of `blade/blade_main.py`: which changed files are looked at before a
build. What exists and what version control prints are parameters. An absolute path stands
for its parts: there are no symbolic links, and nothing in it means something to a shell. -/
namespace WebSearch.BladeMain
open Library Library.PosixPath

/-- Where an absolute path leads. -/
abbrev Place := List (List Char)

def placeOf (path : String) : Place := normComps true path.toList

/-- A place as `getcwd` shows it. -/
def textOf (place : Place) : String := String.ofList (rootedText 1 place)

def blank (c : Char) : Bool := c.toNat = 32 || 9 ≤ c.toNat && c.toNat ≤ 13

/-- A line that version control prints, and the changed file that it tells of, from the
root of the client. How a tool marks a change and writes a name is its own affair. -/
structure Line where
  text : List Char
  changed : Option (List Char)
  single : '\n' ∉ text

def output (lines : List Line) : List Char := lines.flatMap fun line => line.text ++ ['\n']

section Model
variable (there : Place → Bool) (report : Place → List Line)

def pathExists (path : String) : Bool := there (placeOf path)

/-- `svn st` or `git status --porcelain`, in a directory and about one. -/
def status (cwd arg : String) : List Char := output (report (placeOf (join cwd arg)))

def chdir (cwd dir : String) : String := textOf (placeOf (join cwd dir))

/-- Without the `...` at the end. -/
def withoutDots (target : String) : String :=
  if ['.','.','.'].isSuffixOf target.toList then String.ofList (target.toList.take (target.toList.length - 3)) else target

def isSvnClient (bladeRootDir : String) : Bool := pathExists there (join bladeRootDir ".svn")

def isGitClient (bladeRootDir target workingDir : String) : Option (String × String) :=
  let target := withoutDots target
  if pathExists there (join bladeRootDir ".git") then some (bladeRootDir,target)
  else
    let rootDirs := (normpath bladeRootDir).toList.splitOn '/'
    let dirs := (normpath (join workingDir target)).toList.splitOn '/'
    (List.range' rootDirs.length (dirs.length + 1 - rootDirs.length)).findSome? fun index =>
      let topDir := String.ofList (['/'].intercalate (dirs.take index))
      if pathExists there (join topDir ".git") then some (topDir,String.ofList (['/'].intercalate (dirs.drop index))) else none

/-- The name is taken to be what follows the first colon. -/
def normalizeTargetPath (target : String) : String :=
  let target := withoutDots target
  let name := target.toList.dropWhile (· ≠ ':')
  let target := if name = [] then target else String.ofList name.tail
  if target ≠ "" ∧ target.toList.getLast? ≠ some '/' then target ++ "/" else target

def strip (text : List Char) : List Char := ((text.dropWhile blank).reverse.dropWhile blank).reverse

def isSource (file : List Char) : Bool :=
  ['.','h'].isSuffixOf file || ['.','h','p','p'].isSuffixOf file || ['.','c','c'].isSuffixOf file ||
    ['.','c','p','p'].isSuffixOf file

/-- The file of a line, if it is modified or added, and is a source file. -/
def openedFile (text : List Char) : Option String :=
  let seg := (strip text).splitOn ' '
  if seg.head? ≠ some ['M'] ∧ seg.head? ≠ some ['A'] then none
  else
    let file := seg.getLast?.getD []
    if isSource file then some (String.ofList file) else none

structure Checking where
  cwd : String
  checkDir : List String
  openedFiles : List String
  warnings : List String

/-- The client that is asked, and what it prints. -/
def askClient (bladeRootDir workingDir target d : String) (state : Checking) : Checking × List Char :=
  if isSvnClient there bladeRootDir then
    let fullTarget := normpath (join workingDir d)
    let topDir := String.ofList (fullTarget.toList.drop (bladeRootDir.toList.length + 1))
    (state,status report state.cwd topDir)
  else match isGitClient there bladeRootDir target workingDir with
    | some (gitRoot,gitSubdir) =>
      let cwd := chdir state.cwd gitRoot
      ({state with cwd},status report cwd gitSubdir)
    | none => ({state with warnings := state.warnings ++ ["unknown source client type, NOT svn OR git"]},[])

/-- One target. In a directory that has been checked before, the function returns nothing. -/
def checkTarget (bladeRootDir workingDir : String) (state : Checking) (target : String) : Option Checking :=
  let target := normalizeTargetPath target
  let d := dirname target
  if d ∈ state.checkDir then none
  else
    let (state,output) := askClient there report bladeRootDir workingDir target d {state with checkDir := d :: state.checkDir}
    let files := (output.splitOn '\n').filterMap openedFile
    some {state with openedFiles := files.foldl (fun files file => files.insert (join state.cwd file)) state.openedFiles}

def getOpenedFiles (cwd : String) (targets : List String) (bladeRootDir workingDir : String) : Option (List String) :=
  (targets.foldlM (checkTarget there report (normpath bladeRootDir) workingDir) ⟨cwd,[],[],[]⟩).map Checking.openedFiles

end Model

end WebSearch.BladeMain
