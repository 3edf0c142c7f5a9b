import WebSearch.LoadBuildFilesSearch

/-! What `load_targets` gives: the least closed set of targets, and when it stops with a
message. The condition is about the tree and the command line. -/
namespace WebSearch.LoadBuildFiles
open Library Library.PosixPath DependencyAnalyzer

section Causes
variable (tree : SourceTree) (command : Command)

def Related (key : TargetId) : Prop := Reached (DependsOn tree) (Start tree command) key

/-- Some BUILD file, of a directory of the command line or of a related target, makes
the target. -/
def Existing (key : TargetId) : Prop :=
  ∃ dir, ((∃ entry ∈ command.sourceDirs, normpath entry.1 = dir) ∨ ∃ other, Related tree command other ∧ other.1 = dir) ∧
    Registers tree dir key

/-- A directory that was given is missing, or the BUILD file of a directory that was
given by its plain name, or a related target. -/
def Cause : Prop :=
  (∃ entry ∈ command.sourceDirs, entry.2 ≠ .ignoreIfFail ∧ normpath entry.1 ∉ tree.dirs) ∨
    (∃ dir, (dir,Action.abortIfFail) ∈ command.sourceDirs ∧ tree.build (normpath dir) = none) ∨
    ∃ key, Related tree command key ∧ ¬Existing tree command key

/-- The same, but for the name of the system libraries, for a file where the directory
should be, and for a BUILD file that is missing where the directory has been passed before. -/
def Noticed : Prop :=
  (∃ entry ∈ command.sourceDirs, entry.2 ≠ .ignoreIfFail ∧ normpath entry.1 ≠ "#" ∧ ¬tree.Present (normpath entry.1)) ∨
    (∃ earlier dir later, command.sourceDirs = earlier ++ (dir,Action.abortIfFail) :: later ∧ normpath dir ≠ "#" ∧
      tree.build (normpath dir) = none ∧ ∀ entry ∈ earlier, normpath entry.1 ≠ normpath dir) ∨
    ∃ key, Related tree command key ∧ ¬Existing tree command key

/-- A directory has a directory in the place of its BUILD file. -/
def Blocked : Prop :=
  ∃ entry ∈ command.sourceDirs, normpath entry.1 ≠ "#" ∧ buildFile (normpath entry.1) ∈ tree.dirs

/-- The system libraries that are named as targets come with the directories of the
command line. -/
def SystemsNamed : Prop :=
  ∀ key ∈ command.citedTargets, key.1 = "#" → ∃ entry ∈ command.sourceDirs, Registers tree (normpath entry.1) key

end Causes

theorem Noticed.cause {tree : SourceTree} {command : Command} (noticed : Noticed tree command) : Cause tree command := by
  rcases noticed with ⟨entry,member,given,_,missing⟩ | ⟨earlier,dir,later,split,_,none,_⟩ | related
  · exact .inl ⟨entry,member,given,fun inside => missing (.inl inside)⟩
  · exact .inr (.inl ⟨dir,by simp [split],none⟩)
  · exact .inr (.inr related)

/-! The command line. -/
section Parse
variable {tree : SourceTree} {space : Workspace}

/-- The directories found below others exist. -/
def Walked (tree : SourceTree) (command : Command) : Prop :=
  ∀ entry ∈ command.sourceDirs, entry.2 = .ignoreIfFail → normpath entry.1 ∈ tree.dirs

theorem relativePath_ok (cwd reference : String) {aPath : String} (some : aPath ≠ "") : ∃ path, relativePath cwd aPath reference = .ok path := by
  rw [relativePath,if_neg some]
  dsimp only
  split
  · exact ⟨_,rfl⟩
  · exact ⟨_,rfl⟩

theorem join_ne {a b : String} (some : a ≠ "") : join a b ≠ "" := by
  unfold join
  split
  · rename_i rooted
    intro empty
    rw [empty] at rooted
    exact absurd rooted (by decide)
  · split
    · simp [some]
    · simp [some]

theorem parseCommand_ok (tree : SourceTree) (space : Workspace) (targetIds : List String) :
    ∃ command, parseCommand tree space targetIds = .ok command ∧ Walked tree command := by
  apply foldlM_ok fun _ command => Walked tree command
  · intro done targetId rest command _ before
    have some : join space.workingDir (splitTarget targetId).1 ≠ "" := join_ne space.named
    obtain ⟨path,relative⟩ := relativePath_ok space.cwd space.bladeRootDir some
    unfold parseTarget
    dsimp only
    rw [relative]
    dsimp only [bind,Except.bind]
    split
    · exact ⟨_,rfl,before⟩
    · split
      · refine ⟨_,rfl,fun entry member ignored => ?_⟩
        rcases List.mem_append.mp member with old | new
        · exact before entry old ignored
        · rcases List.mem_cons.mp new with rfl | below
          · cases ignored
          · obtain ⟨dir,found,rfl⟩ := List.mem_map.mp below
            exact walk_present tree found
      · refine ⟨_,rfl,fun entry member ignored => ?_⟩
        rcases List.mem_append.mp member with old | new
        · exact before entry old ignored
        · rw [List.mem_singleton.mp new] at ignored
          cases ignored
  · intro entry member
    exact absurd member List.not_mem_nil

end Parse

/-! The directories of the command line. -/
section Dirs
variable {tree : SourceTree} {command : Command}

theorem loadSourceDirs_error {earlier later : List (String × Action)} {entry : String × Action}
    (fails : ∀ loading, Loads tree earlier loading → Fails tree loading entry.2 entry.1) :
    ∃ failure, loadSourceDirs tree (earlier ++ entry :: later) = .error failure := by
  have split : loadSourceDirs tree (earlier ++ entry :: later) = loadSourceDirs tree earlier >>= fun loading =>
      (entry :: later).foldlM (fun loading entry => loadBuildFile tree entry.2 loading entry.1) loading := List.foldlM_append
  rw [split]
  rcases loadSourceDirs_cases tree earlier with ⟨loading,ran,loads⟩ | ⟨failure,failed,_⟩
  · obtain ⟨failure,stopped,_⟩ := loadBuildFile_error (fails loading loads)
    rw [ran]
    refine ⟨failure,?_⟩
    change (loadBuildFile tree entry.2 loading entry.1).bind _ = _
    rw [stopped]
    rfl
  · rw [failed]
    exact ⟨failure,rfl⟩

theorem loadSourceDirs_ok {entries : List (String × Action)}
    (passes : ∀ earlier entry later loading, entries = earlier ++ entry :: later → Loads tree earlier loading →
      ¬Fails tree loading entry.2 entry.1) :
    ∃ loading, loadSourceDirs tree entries = .ok loading ∧ Loads tree entries loading := by
  apply foldlM_ok fun done loading => Loads tree done loading
  · intro done entry rest loading split before
    exact before.concat (passes done entry rest loading split before)
  · exact ⟨registered_nothing tree,by simp⟩

theorem loadCommand_ok (walked : Walked tree command) (quiet : ¬Noticed tree command) (clear : ¬Blocked tree command) :
    ∃ loading, loadSourceDirs tree command.sourceDirs = .ok loading ∧ Loads tree command.sourceDirs loading := by
  apply loadSourceDirs_ok
  intro earlier entry later loading split loads ⟨fresh,plain,missing⟩
  have member : entry ∈ command.sourceDirs := by simp [split]
  rcases missing with absent | blocked | ⟨abort,none⟩
  · by_cases ignored : entry.2 = .ignoreIfFail
    · exact absent (.inl (walked entry member ignored))
    · exact quiet (.inl ⟨entry,member,ignored,plain,absent⟩)
  · exact clear ⟨entry,member,plain,blocked⟩
  · have same : entry = (entry.1,Action.abortIfFail) := by rw [← abort]
    refine quiet (.inr (.inl ⟨earlier,entry.1,later,same ▸ split,plain,none,fun other before here => ?_⟩))
    exact fresh ((loads.2 _).mpr ⟨plain,other,before,here⟩)

end Dirs

/-! The search from the command line. -/
section Run
variable {tree : SourceTree} {command : Command} {loading : Loading} {search : Search}

theorem registers_present {dir : String} {key : TargetId} (registers : Registers tree dir key) :
    dir ∈ tree.dirs ∧ (tree.build dir).isSome = true := by
  obtain ⟨target,declared,_⟩ := registers
  obtain ⟨present,targets,build⟩ := declared_present declared
  exact ⟨present,by rw [build]; rfl⟩

theorem Registered.keys_iff (registered : Registered tree loading) {key : TargetId} :
    key ∈ loading.targetDatabase.map Prod.fst ↔ ∃ dir ∈ loading.executed, Registers tree dir key := by
  constructor
  · intro known
    obtain ⟨entry,member,rfl⟩ := List.mem_map.mp known
    obtain ⟨dir,executed,target,declared,same | ⟨magic,listed,_⟩⟩ := (registered.mem_iff entry).mp member
    · exact ⟨dir,executed,target,declared,.inl (by rw [same])⟩
    · exact ⟨dir,executed,target,declared,.inr ⟨magic,listed⟩⟩
  · intro ⟨dir,executed,target,declared,either⟩
    rcases either with rfl | ⟨magic,listed⟩
    · exact List.mem_map_of_mem ((registered.mem_iff ((dir,target.name),target.expandedDeps)).mpr
        ⟨dir,executed,target,declared,.inl rfl⟩)
    · exact List.mem_map_of_mem ((registered.mem_iff (key,[])).mpr ⟨dir,executed,target,declared,.inr ⟨magic,listed,rfl⟩⟩)

theorem Registered.known (registered : Registered tree loading) {dir : String} {key : TargetId} (done : dir ∈ loading.processed)
    (registers : Registers tree dir key) : key ∈ loading.targetDatabase.map Prod.fst := by
  refine registered.keys_iff.mpr ⟨dir,?_,registers⟩
  rw [registered.executed,List.mem_filter]
  exact ⟨done,(registers_present registers).2⟩

theorem Loads.keys_iff (loads : Loads tree command.sourceDirs loading) {key : TargetId} :
    key ∈ loading.targetDatabase.map Prod.fst ↔ ∃ entry ∈ command.sourceDirs, Registers tree (normpath entry.1) key := by
  constructor
  · intro known
    obtain ⟨dir,executed,registers⟩ := loads.1.keys_iff.mp known
    rw [loads.1.executed,List.mem_filter,loads.2] at executed
    obtain ⟨⟨_,entry,member,rfl⟩,_⟩ := executed
    exact ⟨entry,member,registers⟩
  · intro ⟨entry,member,registers⟩
    refine loads.1.known ((loads.2 _).mpr ⟨fun magic => ?_,entry,member,rfl⟩) registers
    exact tree.magic (magic ▸ (registers_present registers).1)

theorem mem_startSearch {key : TargetId} : key ∈ (startSearch command loading).citedTargets ↔
    key ∈ command.citedTargets ∨ key ∈ loading.targetDatabase.map Prod.fst := by
  have general (db : TargetDatabase) (cited : List TargetId) :
      key ∈ db.foldl (fun cited entry => cited.insert entry.1) cited ↔ key ∈ cited ∨ key ∈ db.map Prod.fst := by
    induction db generalizing cited with
    | nil => simp
    | cons entry db ih =>
      rw [List.foldl_cons,ih,List.mem_insert_iff,List.map_cons,List.mem_cons]
      grind
  exact general loading.targetDatabase command.citedTargets

theorem Loads.searching (loads : Loads tree command.sourceDirs loading) : Searching tree command (startSearch command loading) where
  registered := loads.1
  frontier := Frontier.init fun key => by rw [mem_startSearch,loads.keys_iff,Start]
  entries _ member := absurd member List.not_mem_nil
  loaded dir executed := by
    change dir ∈ loading.executed at executed
    rw [loads.1.executed,List.mem_filter,loads.2] at executed
    exact .inl executed.1.2
  processed entry member plain := (loads.2 _).mpr ⟨plain,entry,member,rfl⟩
  systems key member _ := mem_startSearch.mp member

theorem Searching.existing (searching : Searching tree command search) {key : TargetId}
    (known : key ∈ search.loading.targetDatabase.map Prod.fst) : Existing tree command key := by
  obtain ⟨dir,executed,registers⟩ := searching.registered.keys_iff.mp known
  refine ⟨dir,(searching.loaded dir executed).imp_right fun ⟨other,done,here⟩ => ?_,registers⟩
  exact ⟨other,searching.frontier.inside other (.inl done),here⟩

theorem Searching.related_known (searching : Searching tree command search) {key : TargetId}
    (done : key ∈ search.relatedTargets.map Prod.fst) : key ∈ search.loading.targetDatabase.map Prod.fst := by
  obtain ⟨entry,member,rfl⟩ := List.mem_map.mp done
  exact List.mem_map_of_mem (searching.entries entry member)

theorem Existing.declared {key : TargetId} (existing : Existing tree command key) (plain : key.1 ≠ "#") :
    ∃ target ∈ tree.declared key.1, target.name = key.2 := by
  obtain ⟨dir,_,target,declared,rfl | ⟨magic,_⟩⟩ := existing
  · exact ⟨target,declared,rfl⟩
  · exact absurd magic plain

/-- When only system libraries are left, the targets of the directories are related. -/
theorem Searching.related_of_systems (searching : Searching tree command search)
    (left : ∀ key ∈ search.citedTargets, key.1 = "#") {key : TargetId} (related : Related tree command key) (plain : key.1 ≠ "#") :
    key ∈ search.relatedTargets.map Prod.fst := by
  obtain ⟨start,begins,path⟩ := related
  have general : key ∈ search.relatedTargets.map Prod.fst ∨ key ∈ search.citedTargets := by
    clear plain
    induction path with
    | refl => exact searching.frontier.begins start begins
    | tail _ edge ih =>
      rcases ih with done | pending
      · exact searching.frontier.edges _ done _ edge
      · obtain ⟨target,declared,_⟩ := edge
        rw [left _ pending,declared_magic] at declared
        exact absurd declared List.not_mem_nil
  exact general.resolve_right fun pending => plain (left key pending)

/-- Then every system library that exists has been registered. -/
theorem Searching.systems_known (searching : Searching tree command search) (left : ∀ key ∈ search.citedTargets, key.1 = "#")
    {key : TargetId} (existing : Existing tree command key) : key ∈ search.loading.targetDatabase.map Prod.fst := by
  obtain ⟨dir,source,registers⟩ := existing
  have present := (registers_present registers).1
  have plain : dir ≠ "#" := fun magic => tree.magic (magic ▸ present)
  rcases source with ⟨entry,member,rfl⟩ | ⟨other,related,rfl⟩
  · exact searching.registered.known (searching.processed entry member plain) registers
  · have done := searching.related_of_systems left related plain
    rcases searching.registered.key_path (searching.related_known done) with magic | executed
    · exact absurd magic plain
    · exact searching.registered.keys_iff.mpr ⟨other.1,executed,registers⟩

/-- The choice that leaves the system libraries for the end. -/
def systemsLast (_ : Nat) (cited : List TargetId) : Nat := cited.findIdx fun key => key.1 ≠ "#"

theorem systemsLast_pop {turn : Nat} {cited rest : List TargetId} {key : TargetId}
    (popped : pop (systemsLast turn cited) cited = some (key,rest)) (magic : key.1 = "#") : ∀ other ∈ cited, other.1 = "#" := by
  intro other member
  by_contra plain
  have bound : systemsLast turn cited < cited.length := List.findIdx_lt_length_of_exists ⟨other,member,by simpa using plain⟩
  have found : cited[systemsLast turn cited]? = some key := by
    obtain ⟨first,here,same⟩ := Option.map_eq_some_iff.mp popped
    rw [Nat.mod_eq_of_lt bound] at here
    rw [here,(Prod.mk.inj same).1]
  obtain ⟨_,here⟩ := List.getElem?_eq_some_iff.mp found
  have first : cited[systemsLast turn cited].1 ≠ "#" := of_decide_eq_true (List.findIdx_getElem (w := bound))
  rw [here] at first
  exact first magic

end Run

/-! What is said of `load_targets`, and when it holds. -/
section Targets
variable {tree : SourceTree} {space : Workspace} {targetIds : List String} {command : Command}
  {choice : Nat → List TargetId → Nat}

/-- The properties of a call, whatever `set.pop` takes. -/
structure Correct (tree : SourceTree) (space : Workspace) (targetIds : List String) (command : Command)
    (choice : Nat → List TargetId → Nat) : Prop where
  stops : (∃ failure, loadTargets tree choice space targetIds = .error failure) ↔ Cause tree command
  ends : ∀ failure, loadTargets tree choice space targetIds = .error failure → failure.message ≠ none
  least : ∀ loaded, loadTargets tree choice space targetIds = .ok loaded →
    IsLeast {set : Set TargetId | (∀ key, Start tree command key → key ∈ set) ∧
      ∀ key ∈ set, ∀ dkey, DependsOn tree key dkey → dkey ∈ set} {key | key ∈ loaded.relatedTargets.map Prod.fst}
  expanded : ∀ loaded, loadTargets tree choice space targetIds = .ok loaded →
    ∀ entry ∈ loaded.relatedTargets, ∀ dkey, dkey ∈ entry.2 ↔ DependsOn tree entry.1 dkey
  once : ∀ loaded, loadTargets tree choice space targetIds = .ok loaded → loaded.executed.Nodup

theorem loadTargets_eq {loading : Loading} (parsed : parseCommand tree space targetIds = .ok command)
    (ran : loadSourceDirs tree command.sourceDirs = .ok loading) : loadTargets tree choice space targetIds =
      (searchLoop tree choice (rank tree (startSearch command loading)) 0 (startSearch command loading)).map fun search =>
        ⟨command.citedTargets,(startSearch command loading).citedTargets,search.relatedTargets,search.loading.executed⟩ := by
  simp only [loadTargets,parsed,ran,bind,Except.bind]
  rfl

theorem loadTargets_failed {failure : Failure} (parsed : parseCommand tree space targetIds = .ok command)
    (ran : loadSourceDirs tree command.sourceDirs = .error failure) : loadTargets tree choice space targetIds = .error failure := by
  simp only [loadTargets,parsed,ran,bind,Except.bind]

theorem loadTargets_ok {loaded : Loaded} (parsed : parseCommand tree space targetIds = .ok command)
    (ended : loadTargets tree choice space targetIds = .ok loaded) : ∃ search, Searching tree command search ∧
      search.citedTargets = [] ∧ search.relatedTargets = loaded.relatedTargets ∧ search.loading.executed = loaded.executed := by
  rcases loadSourceDirs_cases tree command.sourceDirs with ⟨loading,ran,loads⟩ | ⟨failure,failed,_⟩
  · rw [loadTargets_eq parsed ran] at ended
    cases searched : searchLoop tree choice (rank tree (startSearch command loading)) 0 (startSearch command loading) with
    | error failure =>
      rw [searched] at ended
      cases ended
    | ok search =>
      rw [searched] at ended
      obtain rfl := Except.ok.inj ended
      obtain ⟨searching,empty⟩ := searchLoop_inv loads.searching searched
      exact ⟨search,searching,empty,rfl,rfl⟩
  · rw [loadTargets_failed parsed failed] at ended
    cases ended

theorem loadTargets_message {failure : Failure} (parsed : parseCommand tree space targetIds = .ok command)
    (failed : loadTargets tree choice space targetIds = .error failure) : failure.message ≠ none := by
  rcases loadSourceDirs_cases tree command.sourceDirs with ⟨loading,ran,loads⟩ | ⟨other,stopped,message⟩
  · rw [loadTargets_eq parsed ran] at failed
    cases searched : searchLoop tree choice (rank tree (startSearch command loading)) 0 (startSearch command loading) with
    | error other =>
      rw [searched] at failed
      obtain rfl := Except.error.inj failed
      exact searchLoop_error loads.searching (Nat.le_refl _) searched
    | ok search =>
      rw [searched] at failed
      cases failed
  · rw [loadTargets_failed parsed stopped] at failed
    exact Except.error.inj failed ▸ message

/-- Whatever stops the call, the rest holds of every call. -/
theorem correct_of_stops (parsed : parseCommand tree space targetIds = .ok command)
    (stops : (∃ failure, loadTargets tree choice space targetIds = .error failure) ↔ Cause tree command) :
    Correct tree space targetIds command choice where
  stops := stops
  ends _ failed := loadTargets_message parsed failed
  least loaded ended := by
    obtain ⟨search,searching,empty,related,_⟩ := loadTargets_ok parsed ended
    have frontier := searching.frontier
    rw [empty,related] at frontier
    have same : {key | key ∈ loaded.relatedTargets.map Prod.fst} = {key | Related tree command key} := Set.ext frontier.finished
    rw [same]
    exact reached_isLeast _ _
  expanded loaded ended entry member dkey := by
    obtain ⟨search,searching,_,related,_⟩ := loadTargets_ok parsed ended
    exact searching.registered.deps (searching.entries entry (related ▸ member)) dkey
  once loaded ended := by
    obtain ⟨search,searching,_,_,executed⟩ := loadTargets_ok parsed ended
    rw [← executed,searching.registered.executed]
    exact searching.registered.nodup.filter _

theorem stops_of_entry (parsed : parseCommand tree space targetIds = .ok command) {earlier later : List (String × Action)}
    {entry : String × Action} (split : command.sourceDirs = earlier ++ entry :: later)
    (fails : ∀ loading, Loads tree earlier loading → Fails tree loading entry.2 entry.1) :
    ∃ failure, loadTargets tree choice space targetIds = .error failure := by
  obtain ⟨failure,failed⟩ := @loadSourceDirs_error tree earlier later entry fails
  exact ⟨failure,loadTargets_failed parsed (split ▸ failed)⟩

theorem Noticed.stops (noticed : Noticed tree command) (parsed : parseCommand tree space targetIds = .ok command)
    (choice : Nat → List TargetId → Nat) : ∃ failure, loadTargets tree choice space targetIds = .error failure := by
  rcases noticed with ⟨entry,member,_,plain,missing⟩ | ⟨earlier,dir,later,split,plain,none,first⟩ | ⟨key,related,missing⟩
  · obtain ⟨earlier,later,split⟩ := List.append_of_mem member
    refine stops_of_entry parsed split fun loading loads => ?_
    exact ⟨fun processed => missing (loads.1.present _ processed),plain,.inl missing⟩
  · refine stops_of_entry parsed split fun loading loads => ⟨fun processed => ?_,plain,.inr (.inr ⟨rfl,none⟩)⟩
    obtain ⟨_,entry,member,same⟩ := (loads.2 _).mp processed
    exact first entry member same
  · cases ended : loadTargets tree choice space targetIds with
    | error failure => exact ⟨failure,rfl⟩
    | ok loaded =>
      obtain ⟨search,searching,empty,_,_⟩ := loadTargets_ok parsed ended
      have frontier := searching.frontier
      rw [empty] at frontier
      exact absurd (searching.existing (searching.related_known ((frontier.finished key).mpr related))) missing

theorem Blocked.stops (blocked : Blocked tree command) (parsed : parseCommand tree space targetIds = .ok command)
    (choice : Nat → List TargetId → Nat) : ∃ failure, loadTargets tree choice space targetIds = .error failure := by
  obtain ⟨entry,member,plain,there⟩ := blocked
  obtain ⟨earlier,later,split⟩ := List.append_of_mem member
  refine stops_of_entry parsed split fun loading loads => ?_
  exact ⟨fun processed => loads.1.unblocked _ processed there,plain,.inr (.inl there)⟩

/-- Without a noticed cause the call succeeds when a system library is taken only after
it has been registered. -/
theorem loadTargets_succeeds (parsed : parseCommand tree space targetIds = .ok command) (walked : Walked tree command)
    (quiet : ¬Noticed tree command) (clear : ¬Blocked tree command)
    (system : ∀ turn search targetId rest, Searching tree command search →
      pop (choice turn search.citedTargets) search.citedTargets = some (targetId,rest) → targetId.1 = "#" →
      targetId ∈ search.loading.targetDatabase.map Prod.fst) :
    ∃ loaded, loadTargets tree choice space targetIds = .ok loaded := by
  obtain ⟨loading,ran,loads⟩ := loadCommand_ok walked quiet clear
  obtain ⟨search,searched⟩ : ∃ search,
      searchLoop tree choice (rank tree (startSearch command loading)) 0 (startSearch command loading) = .ok search := by
    apply searchLoop_ok loads.searching (Nat.le_refl _)
    intro turn search targetId rest searching popped
    refine ⟨system turn search targetId rest searching popped,fun plain => ?_⟩
    have related : Related tree command targetId :=
      searching.frontier.inside targetId (.inr (((pop_some popped).1 targetId).mpr (.inl rfl)))
    have existing : Existing tree command targetId := by
      by_contra missing
      exact quiet (.inr (.inr ⟨targetId,related,missing⟩))
    exact existing.declared plain
  rw [loadTargets_eq parsed ran,searched]
  exact ⟨_,rfl⟩

theorem loadTargets_systemsLast (parsed : parseCommand tree space targetIds = .ok command) (walked : Walked tree command)
    (quiet : ¬Noticed tree command) (clear : ¬Blocked tree command) : ∃ loaded, loadTargets tree systemsLast space targetIds = .ok loaded := by
  apply loadTargets_succeeds parsed walked quiet clear
  intro turn search targetId rest searching popped magic
  have related : Related tree command targetId :=
    searching.frontier.inside targetId (.inr (((pop_some popped).1 targetId).mpr (.inl rfl)))
  apply searching.systems_known (systemsLast_pop popped magic)
  by_contra missing
  exact quiet (.inr (.inr ⟨targetId,related,missing⟩))

/-- Where the named system libraries come with the directories, it succeeds in any order. -/
theorem SystemsNamed.succeeds (named : SystemsNamed tree command) (parsed : parseCommand tree space targetIds = .ok command)
    (walked : Walked tree command) (quiet : ¬Noticed tree command) (clear : ¬Blocked tree command) (choice : Nat → List TargetId → Nat) :
    ∃ loaded, loadTargets tree choice space targetIds = .ok loaded := by
  apply loadTargets_succeeds parsed walked quiet clear
  intro turn search targetId rest searching popped magic
  rcases searching.systems targetId (((pop_some popped).1 targetId).mpr (.inl rfl)) magic with cited | known
  · obtain ⟨entry,member,registers⟩ := named targetId cited magic
    refine searching.registered.known (searching.processed entry member fun same => ?_) registers
    exact tree.magic (same ▸ (registers_present registers).1)
  · exact known

/-- Where one does not, some order stops. -/
theorem stops_of_system {key : TargetId} (parsed : parseCommand tree space targetIds = .ok command)
    (cited : key ∈ command.citedTargets) (magic : key.1 = "#")
    (unknown : ¬∃ entry ∈ command.sourceDirs, Registers tree (normpath entry.1) key) :
    ∃ failure, loadTargets tree (fun _ cited => cited.idxOf key) space targetIds = .error failure := by
  rcases loadSourceDirs_cases tree command.sourceDirs with ⟨loading,ran,loads⟩ | ⟨failure,failed,_⟩
  · have member : key ∈ (startSearch command loading).citedTargets := mem_startSearch.mpr (.inl cited)
    have place := List.idxOf_lt_length_of_mem member
    have popped : ∃ rest, pop ((startSearch command loading).citedTargets.idxOf key) (startSearch command loading).citedTargets =
        some (key,rest) := by
      rw [pop,Nat.mod_eq_of_lt place,List.getElem?_eq_getElem place,List.getElem_idxOf]
      exact ⟨_,rfl⟩
    obtain ⟨rest,popped⟩ := popped
    have absent : loading.targetDatabase.lookup key = none := by
      rw [← Option.not_isSome_iff_eq_none,lookup_isSome_iff_key,loads.keys_iff]
      exact unknown
    have skipped : loadBuildFile tree .abortIfFail loading key.1 = .ok loading := by
      rw [magic,loadBuildFile]
      exact if_pos (.inr (by decide))
    have stopped : visit tree (startSearch command loading) key rest = .error (.noTarget (findDepender key loading.targetDatabase) key) := by
      rw [visit_fresh List.not_mem_nil]
      change (loadBuildFile tree .abortIfFail loading key.1).bind _ = _
      rw [skipped]
      dsimp only [Except.bind]
      rw [absent]
    obtain ⟨fuel,enough⟩ : ∃ fuel, rank tree (startSearch command loading) = fuel + 1 := by
      refine Nat.exists_eq_add_one.mpr ?_
      have some : 0 < (startSearch command loading).citedTargets.length := List.length_pos_of_mem member
      unfold rank
      omega
    rw [loadTargets_eq parsed ran,enough,searchLoop,popped]
    dsimp only
    rw [stopped]
    exact ⟨_,rfl⟩
  · exact ⟨_,loadTargets_failed parsed failed⟩

theorem load_targets_correct_iff (tree : SourceTree) (space : Workspace) (targetIds : List String) :
    ∃ command, parseCommand tree space targetIds = .ok command ∧
      ((∀ choice, Correct tree space targetIds command choice) ↔
        Cause tree command ∧ (Noticed tree command ∨ Blocked tree command) ∨
          ¬Cause tree command ∧ ¬Blocked tree command ∧ SystemsNamed tree command) := by
  obtain ⟨command,parsed,walked⟩ := parseCommand_ok tree space targetIds
  refine ⟨command,parsed,fun correct => ?_,fun either choice => ?_⟩
  · by_cases cause : Cause tree command
    · refine .inl ⟨cause,?_⟩
      by_contra neither
      obtain ⟨quiet,clear⟩ := not_or.mp neither
      obtain ⟨loaded,ended⟩ := loadTargets_systemsLast parsed walked quiet clear
      obtain ⟨failure,failed⟩ := (correct systemsLast).stops.mpr cause
      rw [ended] at failed
      cases failed
    · refine .inr ⟨cause,fun blocked => ?_,fun key cited magic => ?_⟩
      · exact cause ((correct systemsLast).stops.mp (blocked.stops parsed systemsLast))
      · by_contra unknown
        exact cause ((correct _).stops.mp (stops_of_system parsed cited magic unknown))
  · apply correct_of_stops parsed
    rcases either with ⟨cause,noticed | blocked⟩ | ⟨none,clear,named⟩
    · exact ⟨fun _ => cause,fun _ => noticed.stops parsed choice⟩
    · exact ⟨fun _ => cause,fun _ => blocked.stops parsed choice⟩
    · refine ⟨fun ⟨failure,failed⟩ => ?_,fun cause => absurd cause none⟩
      obtain ⟨loaded,ended⟩ := named.succeeds parsed walked (fun noticed => none noticed.cause) clear choice
      rw [ended] at failed
      cases failed

end Targets

/-! The directory `foo` without a BUILD file, given with `...` and then by its name; and
the file `foo/x.cc`, given with `...`. -/

def onlyFoo : SourceTree where
  dirs := ["foo"]
  files := ["foo/x.cc"]
  listdir _ := []
  height _ := 0
  execute _ := []
  normal := by decide
  magic := by decide
  apart := by decide
  below := by decide
  listed _ _ member := absurd member List.not_mem_nil
  descends _ _ member := absurd member List.not_mem_nil
  distinct _ := List.nodup_nil

def fooTwice : Command := ⟨[],[("foo/",.warnIfFail),("foo",.abortIfFail)]⟩

def fileAsDirectory : Command := ⟨[],[("foo/x.cc/",.warnIfFail)]⟩

theorem passed_directory_unnoticed :
    let space : Workspace := ⟨"/r","/r","/r",by decide⟩
    (parseCommand onlyFoo space ["foo/...","foo"] = .ok fooTwice ∧ Cause onlyFoo fooTwice ∧
      (∀ choice, loadTargets onlyFoo choice space ["foo/...","foo"] = .ok ⟨[],[],[],[]⟩) ∧
      ¬∀ choice, Correct onlyFoo space ["foo/...","foo"] fooTwice choice) ∧
    parseCommand onlyFoo space ["foo/x.cc/..."] = .ok fileAsDirectory ∧ Cause onlyFoo fileAsDirectory ∧
      (∀ choice, loadTargets onlyFoo choice space ["foo/x.cc/..."] = .ok ⟨[],[],[],[]⟩) ∧
      ¬∀ choice, Correct onlyFoo space ["foo/x.cc/..."] fileAsDirectory choice := by
  intro space
  have silent {targetIds : List String} {command : Command} (cause : Cause onlyFoo command)
      (runs : ∀ choice, loadTargets onlyFoo choice space targetIds = .ok ⟨[],[],[],[]⟩) :
      ¬∀ choice, Correct onlyFoo space targetIds command choice := by
    intro correct
    obtain ⟨failure,failed⟩ := (correct fun _ _ => 0).stops.mpr cause
    rw [runs] at failed
    cases failed
  constructor
  · have parsed : parseCommand onlyFoo space ["foo/...","foo"] = .ok fooTwice := by decide
    have cause : Cause onlyFoo fooTwice := .inr (.inl ⟨"foo",by decide,by decide⟩)
    have ran : loadSourceDirs onlyFoo fooTwice.sourceDirs = .ok ⟨[],["foo"],[]⟩ := by rfl
    have runs (choice : Nat → List TargetId → Nat) : loadTargets onlyFoo choice space ["foo/...","foo"] = .ok ⟨[],[],[],[]⟩ := by
      rw [loadTargets_eq parsed ran]
      rfl
    exact ⟨parsed,cause,runs,silent cause runs⟩
  · have parsed : parseCommand onlyFoo space ["foo/x.cc/..."] = .ok fileAsDirectory := by decide
    have cause : Cause onlyFoo fileAsDirectory := .inl ⟨("foo/x.cc/",.warnIfFail),by decide,by decide,by decide⟩
    have ran : loadSourceDirs onlyFoo fileAsDirectory.sourceDirs = .ok ⟨[],["foo/x.cc"],[]⟩ := by rfl
    have runs (choice : Nat → List TargetId → Nat) : loadTargets onlyFoo choice space ["foo/x.cc/..."] = .ok ⟨[],[],[],[]⟩ := by
      rw [loadTargets_eq parsed ran]
      rfl
    exact ⟨parsed,cause,runs,silent cause runs⟩

end WebSearch.LoadBuildFiles
