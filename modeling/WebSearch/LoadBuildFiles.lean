import WebSearch.DependencyAnalyzer
import WebSearch.Library.Worklist
import WebSearch.Library.PosixPath

/-! `blade/load_build_files.py`: which BUILD files are executed for the targets of the
command line, and which targets are related to them. Executing a BUILD file is a
function from its directory to what it declares. Which element `set.pop` takes is a
choice from outside. -/
namespace WebSearch.LoadBuildFiles
open Library Library.PosixPath DependencyAnalyzer

inductive Action
  | ignoreIfFail
  | warnIfFail
  | abortIfFail
  deriving DecidableEq

/-- A call of a build function: the name, and the keys of the dependencies. -/
structure Declared where
  name : String
  expandedDeps : List TargetId
  deriving DecidableEq

/-- The name of the BUILD file of a directory. -/
def buildFile (sourceDir : String) : String := normpath (join sourceDir "BUILD")

/-- The directories and the regular files of the tree by their normal names, what `os.walk`
finds in a directory, and what the BUILD file of a directory declares when it is executed.
No directory has the name that the code takes for the system libraries. -/
structure SourceTree where
  dirs : List String
  files : List String
  listdir : String → List String
  height : String → Nat
  execute : String → List Declared
  normal : ∀ dir ∈ dirs, normpath dir = dir
  magic : "#" ∉ dirs
  apart : ∀ file ∈ files, file ∉ dirs
  below : ∀ file ∈ files, buildFile file ∉ files ∧ buildFile file ∉ dirs
  listed : ∀ path, ∀ d ∈ listdir path, normpath (join path d) ∈ dirs
  descends : ∀ path, ∀ d ∈ listdir path, height (join path d) < height path
  distinct : ∀ dir, ((execute dir).map Declared.name).Nodup

/-- `os.path.exists` of a normal name. -/
def SourceTree.Present (tree : SourceTree) (path : String) : Prop := path ∈ tree.dirs ∨ path ∈ tree.files

instance (tree : SourceTree) (path : String) : Decidable (tree.Present path) := inferInstanceAs (Decidable (_ ∨ _))

def SourceTree.build (tree : SourceTree) (dir : String) : Option (List Declared) :=
  if buildFile dir ∈ tree.files then some (tree.execute dir) else none

/-- Where Blade is run. -/
structure Workspace where
  cwd : String
  workingDir : String
  bladeRootDir : String
  named : workingDir ≠ ""

abbrev TargetDatabase := List (TargetId × List TargetId)

inductive Failure
  | notExist (path : String) (depender : Option TargetId)
  | parseError (path : String)
  | noTarget (depender : Option TargetId) (targetId : TargetId)
  | duplicate (key : TargetId)
  | noPath
  | outOfFuel
  deriving DecidableEq

def label (id : TargetId) : String := "//" ++ id.1 ++ ":" ++ id.2

/-- What `console.error_exit` prints, without a traceback; the other failures are no messages. -/
def Failure.message : Failure → Option String
  | .notExist path none => some ("//" ++ path ++ " not found, exit...")
  | .notExist path (some depender) => some ("//" ++ path ++ " not found, required by " ++ label depender ++ ", exit...")
  | .parseError path => some ("Parse error in " ++ path ++ ", exit...\n")
  | .noTarget depender targetId =>
    some ((depender.map label).getD "None" ++ ": target " ++ label targetId ++ " does not exists")
  | .duplicate key => some ("target name " ++ key.2 ++ " is duplicate in //" ++ key.1 ++ "/BUILD")
  | .noPath => none
  | .outOfFuel => none

/-! `blade_util.relative_path`. -/

/-- The number of segments in front that are the same but for the case. -/
def shared : List String → List String → Nat
  | a :: as, b :: bs => if a.toList.map Char.toLower = b.toList.map Char.toLower then shared as bs + 1 else 0
  | _, _ => 0

def segments (path : String) : List String := (path.toList.splitOn '/').map String.ofList

def relativePath (cwd aPath referencePath : String) : Except Failure String :=
  if aPath = "" then .error .noPath
  else
    let referenceList := segments (abspath cwd referencePath)
    let pathList := segments (abspath cwd aPath)
    let i := shared referenceList pathList
    match List.replicate (referenceList.length - i) ".." ++ pathList.drop i with
    | [] => .ok "."
    | first :: rest => .ok (rest.foldl join first)

/-! Executing BUILD files. -/

def findDirDepender (dir : String) (targetDatabase : TargetDatabase) : Option TargetId :=
  (targetDatabase.find? fun entry => entry.2.any fun dkey => dkey.1 = dir).map Prod.fst

def findDepender (dkey : TargetId) (targetDatabase : TargetDatabase) : Option TargetId :=
  (targetDatabase.find? fun entry => dkey ∈ entry.2).map Prod.fst

def addSystemLibrary (targetDatabase : TargetDatabase) (key : TargetId) : TargetDatabase :=
  if (targetDatabase.lookup key).isSome then targetDatabase else targetDatabase ++ [(key,[])]

def registerTarget (targetDatabase : TargetDatabase) (key : TargetId) (expandedDeps : List TargetId) :
    Except Failure TargetDatabase :=
  if (targetDatabase.lookup key).isSome then .error (.duplicate key) else .ok (targetDatabase ++ [(key,expandedDeps)])

/-- The constructor of a target adds the system libraries it names, then the target is
registered. -/
def declare (sourceDir : String) (targetDatabase : TargetDatabase) (target : Declared) : Except Failure TargetDatabase :=
  registerTarget ((target.expandedDeps.filter fun dkey => dkey.1 = "#").foldl addSystemLibrary targetDatabase)
    (sourceDir,target.name) target.expandedDeps

/-- The target database, `processed_source_dirs`, and a record of the BUILD files that
were executed. -/
structure Loading where
  targetDatabase : TargetDatabase
  processed : List String
  executed : List String

/-- A directory where the BUILD file should be exists too, and cannot be executed. -/
def loadBuildFile (tree : SourceTree) (actionIfFail : Action) (loading : Loading) (dir : String) : Except Failure Loading :=
  let sourceDir := normpath dir
  if sourceDir ∈ loading.processed ∨ sourceDir = "#" then .ok loading
  else
    let processed := loading.processed ++ [sourceDir]
    let depender := findDirDepender sourceDir loading.targetDatabase
    if ¬tree.Present sourceDir then .error (.notExist sourceDir depender)
    else if tree.Present (buildFile sourceDir) then match tree.build sourceDir with
      | some targets => do
        let targetDatabase ← targets.foldlM (declare sourceDir) loading.targetDatabase
        return ⟨targetDatabase,processed,loading.executed ++ [sourceDir]⟩
      | none => .error (.parseError (join sourceDir "BUILD"))
    else if actionIfFail = .abortIfFail then .error (.notExist (join sourceDir "BUILD") depender)
    else .ok {loading with processed := processed}

/-! The command line. -/

/-- `os.walk`, without the directories that begin with a dot. -/
def walk (tree : SourceTree) : Nat → String → List String
  | 0, _ => []
  | fuel + 1, root =>
    let dirs := (tree.listdir root).filter fun d => !(['.'].isPrefixOf d.toList)
    dirs.map (join root) ++ dirs.flatMap fun d => walk tree fuel (join root d)

theorem walk_fuel (tree : SourceTree) {fuel : Nat} {root : String} (enough : tree.height root < fuel) :
    walk tree fuel root = walk tree (tree.height root + 1) root := by
  induction fuel using Nat.strongRecOn generalizing root with
  | ind fuel ih =>
    cases fuel with
    | zero => exact absurd enough (Nat.not_lt_zero _)
    | succ fuel =>
      rw [walk,walk]
      congr 1
      apply List.flatMap_congr
      intro d member
      have lower := tree.descends root d (List.mem_of_mem_filter member)
      rw [ih fuel (Nat.lt_succ_self _) (by omega)]
      by_cases same : tree.height root = fuel
      · rw [same,ih fuel (Nat.lt_succ_self _) (by omega)]
      · rw [ih (tree.height root) (by omega) lower]

/-- With this fuel nothing below a directory is left out. -/
theorem walk_eq (tree : SourceTree) (root : String) : walk tree (tree.height root + 1) root =
    let dirs := (tree.listdir root).filter fun d => !(['.'].isPrefixOf d.toList)
    dirs.map (join root) ++ dirs.flatMap fun d => walk tree (tree.height (join root d) + 1) (join root d) := by
  rw [walk]
  dsimp only
  congr 1
  apply List.flatMap_congr
  intro d member
  exact walk_fuel tree (tree.descends root d (List.mem_of_mem_filter member))

theorem walk_present (tree : SourceTree) {fuel : Nat} {root dir : String} (found : dir ∈ walk tree fuel root) :
    normpath dir ∈ tree.dirs := by
  induction fuel generalizing root with
  | zero => exact absurd found List.not_mem_nil
  | succ fuel ih =>
    rcases List.mem_append.mp found with here | below
    · obtain ⟨d,member,rfl⟩ := List.mem_map.mp here
      exact tree.listed root d (List.mem_of_mem_filter member)
    · obtain ⟨d,_,later⟩ := List.mem_flatMap.mp below
      exact ih later

/-- The targets that are named, and the directories with what to do when they have no
BUILD file. -/
structure Command where
  citedTargets : List TargetId
  sourceDirs : List (String × Action)
  deriving DecidableEq

/-- The name is what follows the last colon. -/
def splitTarget (targetId : String) : String × String :=
  let name := targetId.toList.reverse.takeWhile (· ≠ ':')
  if name.length = targetId.toList.length then (targetId,"*")
  else (String.ofList (targetId.toList.reverse.drop (name.length + 1)).reverse,String.ofList name.reverse)

def parseTarget (tree : SourceTree) (space : Workspace) (command : Command) (targetId : String) : Except Failure Command := do
  let (sourceDir,targetName) := splitTarget targetId
  let sourceDir ← relativePath space.cwd (join space.workingDir sourceDir) space.bladeRootDir
  if targetName ≠ "*" ∧ targetName ≠ "" then
    return {command with citedTargets := command.citedTargets.insert (sourceDir,targetName)}
  else if ['.','.','.'].isSuffixOf sourceDir.toList then
    let sourceDir := String.ofList (sourceDir.toList.take (sourceDir.toList.length - 3))
    let sourceDir := if sourceDir = "" then "./" else sourceDir
    let below := walk tree (tree.height sourceDir + 1) sourceDir
    return {command with sourceDirs := command.sourceDirs ++ (sourceDir,.warnIfFail) :: below.map fun dir => (dir,.ignoreIfFail)}
  else return {command with sourceDirs := command.sourceDirs ++ [(sourceDir,.abortIfFail)]}

def parseCommand (tree : SourceTree) (space : Workspace) (targetIds : List String) : Except Failure Command :=
  targetIds.foldlM (parseTarget tree space) ⟨[],[]⟩

/-! The targets related to those of the command line. -/

structure Search where
  citedTargets : List TargetId
  relatedTargets : TargetDatabase
  loading : Loading

/-- `set.pop`. -/
def pop (choice : Nat) (cited : List TargetId) : Option (TargetId × List TargetId) :=
  let place := choice % cited.length
  cited[place]?.map fun targetId => (targetId,cited.eraseIdx place)

def visit (tree : SourceTree) (search : Search) (targetId : TargetId) (rest : List TargetId) : Except Failure Search :=
  if (search.relatedTargets.lookup targetId).isSome then .ok {search with citedTargets := rest}
  else do
    let loading ← loadBuildFile tree .abortIfFail search.loading targetId.1
    match loading.targetDatabase.lookup targetId with
    | none => .error (.noTarget (findDepender targetId loading.targetDatabase) targetId)
    | some expandedDeps =>
      let relatedTargets := search.relatedTargets ++ [(targetId,expandedDeps)]
      let addKey (cited : List TargetId) (key : TargetId) : List TargetId :=
        if (relatedTargets.lookup key).isSome then cited else cited.insert key
      return ⟨expandedDeps.foldl addKey rest,relatedTargets,loading⟩

def searchLoop (tree : SourceTree) (choice : Nat → List TargetId → Nat) : Nat → Nat → Search → Except Failure Search
  | 0, _, search => if search.citedTargets = [] then .ok search else .error .outOfFuel
  | fuel + 1, turn, search => match pop (choice turn search.citedTargets) search.citedTargets with
    | none => .ok search
    | some (targetId,rest) => do
      let search ← visit tree search targetId rest
      searchLoop tree choice fuel (turn + 1) search

def SourceTree.declared (tree : SourceTree) (dir : String) : List Declared :=
  if dir ∈ tree.dirs then (tree.build dir).getD [] else []

/-- Every target of the tree with the number of its dependencies. -/
def SourceTree.sizes (tree : SourceTree) : List (TargetId × Nat) :=
  tree.dirs.flatMap fun dir => (tree.declared dir).map fun target => ((dir,target.name),target.expandedDeps.length)

structure Loaded where
  directTargets : List TargetId
  allCommandTargets : List TargetId
  relatedTargets : TargetDatabase
  executed : List String

def startSearch (command : Command) (loading : Loading) : Search :=
  ⟨loading.targetDatabase.foldl (fun cited entry => cited.insert entry.1) command.citedTargets,[],loading⟩

def loadSourceDirs (tree : SourceTree) (sourceDirs : List (String × Action)) : Except Failure Loading :=
  sourceDirs.foldlM (fun loading entry => loadBuildFile tree entry.2 loading entry.1) ⟨[],[],[]⟩

def loadTargets (tree : SourceTree) (choice : Nat → List TargetId → Nat) (space : Workspace) (targetIds : List String) :
    Except Failure Loaded := do
  let command ← parseCommand tree space targetIds
  let loading ← loadSourceDirs tree command.sourceDirs
  let start := startSearch command loading
  let search ← searchLoop tree choice (start.citedTargets.length + budget tree.sizes []) 0 start
  return ⟨command.citedTargets,start.citedTargets,search.relatedTargets,search.loading.executed⟩

end WebSearch.LoadBuildFiles
