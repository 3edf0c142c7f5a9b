import WebSearch.LoadBuildFiles
import WebSearch.Library.Dictionary
import WebSearch.Library.Loop
import Mathlib.Data.List.Induction

/-! Loading BUILD files: what the target database holds after some of them, when a
directory fails, and what the search over the targets keeps. -/
namespace WebSearch.LoadBuildFiles
open Library Library.PosixPath DependencyAnalyzer

/-- The BUILD file of the directory puts this target into the database. -/
def Registers (tree : SourceTree) (dir : String) (key : TargetId) : Prop :=
  ∃ target ∈ tree.declared dir, key = (dir,target.name) ∨ key.1 = "#" ∧ key ∈ target.expandedDeps

def DependsOn (tree : SourceTree) (key dkey : TargetId) : Prop :=
  ∃ target ∈ tree.declared key.1, target.name = key.2 ∧ dkey ∈ target.expandedDeps

/-! The target database. -/
section Database
variable {dir : String} {db : TargetDatabase}

/-- The entry comes from this declaration. -/
def Entry (dir : String) (target : Declared) (entry : TargetId × List TargetId) : Prop :=
  entry = ((dir,target.name),target.expandedDeps) ∨ entry.1.1 = "#" ∧ entry.1 ∈ target.expandedDeps ∧ entry.2 = []

structure Sound (db : TargetDatabase) : Prop where
  keys : (db.map Prod.fst).Nodup
  system : ∀ entry ∈ db, entry.1.1 = "#" → entry.2 = []

theorem Sound.add (sound : Sound db) {key : TargetId} {deps : List TargetId} (fresh : key ∉ db.map Prod.fst)
    (system : key.1 = "#" → deps = []) : Sound (db ++ [(key,deps)]) := by
  constructor
  · rw [List.map_append]
    exact sound.keys.append (List.nodup_singleton key) (List.disjoint_singleton.mpr fresh)
  · intro entry member
    rcases List.mem_append.mp member with old | new
    · exact sound.system entry old
    · obtain rfl := List.mem_singleton.mp new
      exact system

theorem Sound.addSystemLibrary (sound : Sound db) {key : TargetId} (system : key.1 = "#") :
    Sound (addSystemLibrary db key) ∧ ∀ entry, entry ∈ LoadBuildFiles.addSystemLibrary db key ↔ entry ∈ db ∨ entry = (key,[]) := by
  unfold LoadBuildFiles.addSystemLibrary
  split
  · rename_i present
    obtain ⟨deps,found⟩ := Option.isSome_iff_exists.mp present
    have member := mem_of_lookup found
    obtain rfl : deps = [] := sound.system _ member system
    refine ⟨sound,fun entry => ⟨.inl,fun either => ?_⟩⟩
    rcases either with old | rfl
    · exact old
    · exact member
  · rename_i absent
    exact ⟨sound.add (fun known => absent (lookup_isSome_iff_key.mpr known)) fun _ => rfl,fun entry => by simp⟩

theorem Sound.addSystemLibraries (sound : Sound db) {keys : List TargetId} (system : ∀ key ∈ keys, key.1 = "#") :
    Sound (keys.foldl LoadBuildFiles.addSystemLibrary db) ∧
      ∀ entry, entry ∈ keys.foldl LoadBuildFiles.addSystemLibrary db ↔ entry ∈ db ∨ entry.1 ∈ keys ∧ entry.2 = [] := by
  induction keys generalizing db with
  | nil => exact ⟨sound,by simp⟩
  | cons key keys ih =>
    obtain ⟨next,added⟩ := sound.addSystemLibrary (system key List.mem_cons_self)
    obtain ⟨final,all⟩ := ih next fun later member => system later (List.mem_cons_of_mem _ member)
    refine ⟨final,fun entry => ?_⟩
    rw [List.foldl_cons,all,added,List.mem_cons,or_assoc]
    apply or_congr_right
    constructor
    · intro either
      rcases either with rfl | ⟨member,empty⟩
      · exact ⟨.inl rfl,rfl⟩
      · exact ⟨.inr member,empty⟩
    · intro ⟨either,empty⟩
      rcases either with rfl | member
      · exact .inl (Prod.ext rfl empty)
      · exact .inr ⟨member,empty⟩

theorem registerTarget_ok {key : TargetId} (fresh : key ∉ db.map Prod.fst) (deps : List TargetId) :
    registerTarget db key deps = .ok (db ++ [(key,deps)]) := by
  rw [registerTarget,if_neg fun known => fresh (lookup_isSome_iff_key.mp known)]

theorem Sound.declare (sound : Sound db) (plain : dir ≠ "#") {target : Declared} (fresh : (dir,target.name) ∉ db.map Prod.fst) :
    ∃ next, declare dir db target = .ok next ∧ Sound next ∧ ∀ entry, entry ∈ next ↔ entry ∈ db ∨ Entry dir target entry := by
  have system : ∀ key ∈ target.expandedDeps.filter fun dkey => dkey.1 = "#", key.1 = "#" := by
    intro key member
    exact of_decide_eq_true (List.mem_filter.mp member).2
  obtain ⟨middle,added⟩ := sound.addSystemLibraries system
  have still : (dir,target.name) ∉ (List.foldl LoadBuildFiles.addSystemLibrary db
      (target.expandedDeps.filter fun dkey => dkey.1 = "#")).map Prod.fst := by
    intro member
    obtain ⟨entry,inside,same⟩ := List.mem_map.mp member
    rcases (added entry).mp inside with old | ⟨new,_⟩
    · exact fresh (same ▸ List.mem_map_of_mem old)
    · have magic := system entry.1 new
      rw [same] at magic
      exact plain magic
  refine ⟨_,registerTarget_ok still _,middle.add still fun magic => absurd magic plain,fun entry => ?_⟩
  · rw [List.mem_append,added,List.mem_singleton,or_assoc]
    apply or_congr_right
    rw [Entry,List.mem_filter,decide_eq_true_eq,or_comm]
    apply or_congr_right
    constructor
    · intro ⟨⟨member,magic⟩,empty⟩
      exact ⟨magic,member,empty⟩
    · intro ⟨magic,member,empty⟩
      exact ⟨⟨member,magic⟩,empty⟩

theorem declareAll_ok (sound : Sound db) (plain : dir ≠ "#") (fresh : ∀ key ∈ db.map Prod.fst, key.1 ≠ dir)
    {targets : List Declared} (distinct : (targets.map Declared.name).Nodup) :
    ∃ next, targets.foldlM (declare dir) db = .ok next ∧ Sound next ∧
      ∀ entry, entry ∈ next ↔ entry ∈ db ∨ ∃ target ∈ targets, Entry dir target entry := by
  apply foldlM_ok fun done next => Sound next ∧ ∀ entry, entry ∈ next ↔ entry ∈ db ∨ ∃ target ∈ done, Entry dir target entry
  · intro done target rest current split ⟨sound,known⟩
    have new : (dir,target.name) ∉ current.map Prod.fst := by
      intro member
      obtain ⟨entry,inside,same⟩ := List.mem_map.mp member
      rcases (known entry).mp inside with old | ⟨earlier,before,here | ⟨magic,_⟩⟩
      · exact fresh entry.1 (List.mem_map_of_mem old) (by rw [same])
      · rw [split,List.map_append,List.map_cons] at distinct
        have name : earlier.name = target.name := by
          rw [here] at same
          exact congrArg Prod.snd same
        exact (List.nodup_append.mp distinct).2.2 earlier.name (List.mem_map_of_mem before) target.name List.mem_cons_self name
      · rw [same] at magic
        exact plain magic
    obtain ⟨next,ran,later,added⟩ := sound.declare plain new
    refine ⟨next,ran,later,fun entry => ?_⟩
    rw [added,known,or_assoc]
    simp only [List.mem_append,List.mem_singleton,or_and_right,exists_or,exists_eq_left]
  · exact ⟨sound,by simp⟩

end Database

/-! One BUILD file. -/
section Load
variable {tree : SourceTree} {loading : Loading} {action : Action} {dir : String}

/-- The database holds what the executed BUILD files declare. -/
structure Registered (tree : SourceTree) (loading : Loading) : Prop where
  sound : Sound loading.targetDatabase
  mem_iff : ∀ entry, entry ∈ loading.targetDatabase ↔
    ∃ dir ∈ loading.executed, ∃ target ∈ tree.declared dir, Entry dir target entry
  executed : loading.executed = loading.processed.filter fun dir => (tree.build dir).isSome
  present : ∀ dir ∈ loading.processed, tree.Present dir
  unblocked : ∀ dir ∈ loading.processed, buildFile dir ∉ tree.dirs
  nodup : loading.processed.Nodup

theorem registered_nothing (tree : SourceTree) : Registered tree ⟨[],[],[]⟩ :=
  ⟨⟨List.nodup_nil,by simp⟩,by simp,rfl,by simp,by simp,List.nodup_nil⟩

theorem build_isSome : (tree.build dir).isSome = true ↔ buildFile dir ∈ tree.files := by
  unfold SourceTree.build
  split <;> simp_all

/-- A BUILD file stands in a directory. -/
theorem dir_of_build (present : tree.Present dir) (build : (tree.build dir).isSome = true) : dir ∈ tree.dirs := by
  rcases present with inside | file
  · exact inside
  · exact absurd (build_isSome.mp build) (tree.below dir file).1

theorem Registered.executed_dir (registered : Registered tree loading) (executed : dir ∈ loading.executed) : dir ∈ tree.dirs := by
  rw [registered.executed] at executed
  obtain ⟨processed,build⟩ := List.mem_filter.mp executed
  exact dir_of_build (registered.present dir processed) build

theorem declared_of_build {targets : List Declared} (present : dir ∈ tree.dirs) (build : tree.build dir = some targets) :
    tree.declared dir = targets := by
  rw [SourceTree.declared,if_pos present,build,Option.getD_some]

theorem Registered.key_path (registered : Registered tree loading) {key : TargetId}
    (known : key ∈ loading.targetDatabase.map Prod.fst) : key.1 = "#" ∨ key.1 ∈ loading.executed := by
  obtain ⟨entry,member,rfl⟩ := List.mem_map.mp known
  obtain ⟨dir,inside,target,_,here | ⟨magic,_⟩⟩ := (registered.mem_iff entry).mp member
  · rw [here]
    exact .inr inside
  · exact .inl magic

/-- The directory is new, and it or its BUILD file is missing, or another directory
stands in the place of the BUILD file. -/
def Fails (tree : SourceTree) (loading : Loading) (action : Action) (dir : String) : Prop :=
  normpath dir ∉ loading.processed ∧ normpath dir ≠ "#" ∧
    (¬tree.Present (normpath dir) ∨ buildFile (normpath dir) ∈ tree.dirs ∨
      action = .abortIfFail ∧ tree.build (normpath dir) = none)

theorem notExist_message (path : String) (depender : Option TargetId) : (Failure.notExist path depender).message ≠ none := by
  cases depender <;> exact Option.some_ne_none _

theorem loadBuildFile_error (fails : Fails tree loading action dir) :
    ∃ failure, loadBuildFile tree action loading dir = .error failure ∧ failure.message ≠ none := by
  obtain ⟨fresh,plain,missing⟩ := fails
  have go : ¬(normpath dir ∈ loading.processed ∨ normpath dir = "#") := by
    intro either
    exact either.elim fresh plain
  by_cases present : tree.Present (normpath dir)
  · have none : tree.build (normpath dir) = none := by
      rcases missing.resolve_left (not_not_intro present) with blocked | ⟨_,none⟩
      · exact if_neg fun file => tree.apart _ file blocked
      · exact none
    by_cases there : tree.Present (buildFile (normpath dir))
    · refine ⟨.parseError (join (normpath dir) "BUILD"),?_,Option.some_ne_none _⟩
      simp only [loadBuildFile,if_neg go,if_neg (not_not_intro present),if_pos there,none]
    · obtain ⟨abort,_⟩ := (missing.resolve_left (not_not_intro present)).resolve_left fun blocked => there (.inl blocked)
      refine ⟨_,?_,notExist_message (join (normpath dir) "BUILD") (findDirDepender (normpath dir) loading.targetDatabase)⟩
      simp only [loadBuildFile,if_neg go,if_neg (not_not_intro present),if_neg there,if_pos abort]
  · refine ⟨_,?_,notExist_message (normpath dir) (findDirDepender (normpath dir) loading.targetDatabase)⟩
    simp only [loadBuildFile,if_neg go,if_pos present]

theorem loadBuildFile_ok (registered : Registered tree loading) (passes : ¬Fails tree loading action dir) :
    ∃ next, loadBuildFile tree action loading dir = .ok next ∧ Registered tree next ∧
      ∀ other, other ∈ next.processed ↔ other ∈ loading.processed ∨ other = normpath dir ∧ other ≠ "#" := by
  by_cases known : normpath dir ∈ loading.processed ∨ normpath dir = "#"
  · refine ⟨loading,by simp only [loadBuildFile,if_pos known],registered,fun other => ⟨.inl,fun either => ?_⟩⟩
    rcases either with old | ⟨rfl,plain⟩
    · exact old
    · exact known.resolve_right plain
  · obtain ⟨fresh,plain⟩ := not_or.mp known
    have present : tree.Present (normpath dir) := by
      by_contra missing
      exact passes ⟨fresh,plain,.inl missing⟩
    have unblocked : buildFile (normpath dir) ∉ tree.dirs := by
      intro blocked
      exact passes ⟨fresh,plain,.inr (.inl blocked)⟩
    have processed (other : String) : other ∈ loading.processed ++ [normpath dir] ↔
        other ∈ loading.processed ∨ other = normpath dir ∧ other ≠ "#" := by
      rw [List.mem_append,List.mem_singleton]
      apply or_congr_right
      constructor
      · intro same
        exact ⟨same,same ▸ plain⟩
      · exact And.left
    have nodup : (loading.processed ++ [normpath dir]).Nodup :=
      registered.nodup.append (List.nodup_singleton _) (List.disjoint_singleton.mpr fresh)
    have there : ∀ other ∈ loading.processed ++ [normpath dir], tree.Present other ∧ buildFile other ∉ tree.dirs := by
      intro other member
      rcases List.mem_append.mp member with old | new
      · exact ⟨registered.present other old,registered.unblocked other old⟩
      · exact List.mem_singleton.mp new ▸ ⟨present,unblocked⟩
    have stillPresent := fun other member => (there other member).1
    have stillUnblocked := fun other member => (there other member).2
    cases build : tree.build (normpath dir) with
    | none =>
      have lenient : action ≠ .abortIfFail := by
        intro abort
        exact passes ⟨fresh,plain,.inr (.inr ⟨abort,build⟩)⟩
      have absent : ¬tree.Present (buildFile (normpath dir)) := by
        rintro (blocked | file)
        · exact unblocked blocked
        · exact Option.some_ne_none _ ((if_pos file).symm.trans build)
      refine ⟨{loading with processed := loading.processed ++ [normpath dir]},?_,
        ⟨registered.sound,registered.mem_iff,?_,stillPresent,stillUnblocked,nodup⟩,processed⟩
      · simp only [loadBuildFile,if_neg known,if_neg (not_not_intro present),if_neg absent,if_neg lenient]
      · simp [registered.executed,build]
    | some targets =>
      have file : buildFile (normpath dir) ∈ tree.files := build_isSome.mp (by rw [build]; rfl)
      have inside : normpath dir ∈ tree.dirs := dir_of_build present (by rw [build]; rfl)
      have distinct : (targets.map Declared.name).Nodup := by
        rw [SourceTree.build,if_pos file] at build
        exact Option.some.inj build ▸ tree.distinct (normpath dir)
      have new : ∀ key ∈ loading.targetDatabase.map Prod.fst, key.1 ≠ normpath dir := by
        intro key member same
        rcases registered.key_path member with magic | inside
        · exact plain (same.symm.trans magic)
        · rw [registered.executed,same] at inside
          exact fresh (List.mem_of_mem_filter inside)
      obtain ⟨database,ran,sound,entries⟩ := declareAll_ok registered.sound plain new distinct
      refine ⟨⟨database,loading.processed ++ [normpath dir],loading.executed ++ [normpath dir]⟩,?_,
        ⟨sound,fun entry => ?_,?_,stillPresent,stillUnblocked,nodup⟩,processed⟩
      · simp only [loadBuildFile,if_neg known,if_neg (not_not_intro present),if_pos (show tree.Present _ from .inr file),build,ran]
        rfl
      · rw [entries,registered.mem_iff]
        simp only [List.mem_append,List.mem_singleton,or_and_right,exists_or,exists_eq_left,declared_of_build inside build]
      · simp [registered.executed,build]

theorem Registered.grows {next : Loading} (before : Registered tree loading) (after : Registered tree next)
    (more : ∀ other ∈ loading.processed, other ∈ next.processed) : ∀ entry ∈ loading.targetDatabase, entry ∈ next.targetDatabase := by
  intro entry member
  obtain ⟨dir,inside,target,declared,here⟩ := (before.mem_iff entry).mp member
  refine (after.mem_iff entry).mpr ⟨dir,?_,target,declared,here⟩
  rw [before.executed,List.mem_filter] at inside
  rw [after.executed,List.mem_filter]
  exact ⟨more dir inside.1,inside.2⟩

/-! The directories of the command line. -/

/-- The directories have been loaded. -/
def Loads (tree : SourceTree) (entries : List (String × Action)) (loading : Loading) : Prop :=
  Registered tree loading ∧ ∀ dir, dir ∈ loading.processed ↔ dir ≠ "#" ∧ ∃ entry ∈ entries, normpath entry.1 = dir

theorem loadSourceDirs_concat (entries : List (String × Action)) (entry : String × Action) :
    loadSourceDirs tree (entries ++ [entry]) = loadSourceDirs tree entries >>= fun loading => loadBuildFile tree entry.2 loading entry.1 := by
  rw [loadSourceDirs,List.foldlM_append]
  apply bind_congr
  intro loading
  rw [List.foldlM_cons]
  exact bind_pure _

theorem Loads.concat {entries : List (String × Action)} {entry : String × Action} (loads : Loads tree entries loading)
    (passes : ¬Fails tree loading entry.2 entry.1) :
    ∃ next, loadBuildFile tree entry.2 loading entry.1 = .ok next ∧ Loads tree (entries ++ [entry]) next := by
  obtain ⟨next,ran,registered,processed⟩ := loadBuildFile_ok loads.1 passes
  refine ⟨next,ran,registered,fun dir => ?_⟩
  rw [processed,loads.2]
  simp only [List.mem_append,List.mem_singleton,or_and_right,exists_or,exists_eq_left]
  constructor
  · intro either
    rcases either with ⟨plain,old⟩ | ⟨rfl,plain⟩
    · exact ⟨plain,.inl old⟩
    · exact ⟨plain,.inr rfl⟩
  · intro both
    obtain ⟨plain,old | rfl⟩ := both
    · exact .inl ⟨plain,old⟩
    · exact .inr ⟨rfl,plain⟩

theorem loadSourceDirs_cases (tree : SourceTree) (entries : List (String × Action)) :
    (∃ loading, loadSourceDirs tree entries = .ok loading ∧ Loads tree entries loading) ∨
      ∃ failure, loadSourceDirs tree entries = .error failure ∧ failure.message ≠ none := by
  induction entries using List.reverseRecOn with
  | nil => exact .inl ⟨_,rfl,registered_nothing tree,by simp⟩
  | append_singleton entries entry ih =>
    rw [loadSourceDirs_concat]
    rcases ih with ⟨loading,ran,loads⟩ | ⟨failure,failed,message⟩
    · rw [ran]
      by_cases fails : Fails tree loading entry.2 entry.1
      · exact .inr (loadBuildFile_error fails)
      · exact .inl (loads.concat fails)
    · rw [failed]
      exact .inr ⟨failure,rfl,message⟩

end Load

/-! The search. -/

/-- The targets that the search begins with. -/
def Start (tree : SourceTree) (command : Command) (key : TargetId) : Prop :=
  key ∈ command.citedTargets ∨ ∃ entry ∈ command.sourceDirs, Registers tree (normpath entry.1) key

section Search
variable {tree : SourceTree} {command : Command} {search next : Search} {targetId : TargetId} {rest : List TargetId}

theorem declared_magic (tree : SourceTree) : tree.declared "#" = [] :=
  if_neg tree.magic

theorem declared_distinct (tree : SourceTree) (dir : String) : ((tree.declared dir).map Declared.name).Nodup := by
  unfold SourceTree.declared
  split
  · unfold SourceTree.build
    split
    · exact tree.distinct dir
    · exact List.nodup_nil
  · exact List.nodup_nil

theorem Entry.deps {dir : String} {target : Declared} {key : TargetId} {deps : List TargetId} (entry : Entry dir target (key,deps))
    (declared : target ∈ tree.declared dir) (dkey : TargetId) : dkey ∈ deps ↔ DependsOn tree key dkey := by
  rcases entry with same | ⟨magic,_,empty⟩
  · obtain ⟨rfl,rfl⟩ := Prod.mk.inj same
    constructor
    · intro member
      exact ⟨target,declared,rfl,member⟩
    · intro ⟨other,also,name,member⟩
      obtain rfl : other = target := List.inj_on_of_nodup_map (declared_distinct tree dir) also declared name
      exact member
  · constructor
    · intro member
      have none : deps = [] := empty
      rw [none] at member
      exact absurd member List.not_mem_nil
    · intro ⟨other,also,_⟩
      have here : key.1 = "#" := magic
      rw [here,declared_magic] at also
      exact absurd also List.not_mem_nil

theorem Registered.deps {loading : Loading} (registered : Registered tree loading) {key : TargetId} {deps : List TargetId}
    (known : (key,deps) ∈ loading.targetDatabase) (dkey : TargetId) : dkey ∈ deps ↔ DependsOn tree key dkey := by
  obtain ⟨dir,_,target,declared,entry⟩ := (registered.mem_iff _).mp known
  exact entry.deps declared dkey

theorem Registered.system_dep {loading : Loading} (registered : Registered tree loading) {key dkey : TargetId}
    {deps : List TargetId} (known : (key,deps) ∈ loading.targetDatabase) (member : dkey ∈ deps) (magic : dkey.1 = "#") :
    dkey ∈ loading.targetDatabase.map Prod.fst := by
  obtain ⟨dir,executed,target,declared,same | ⟨_,_,empty⟩⟩ := (registered.mem_iff _).mp known
  · obtain ⟨_,rfl⟩ := Prod.mk.inj same
    have entry : (dkey,[]) ∈ loading.targetDatabase :=
      (registered.mem_iff _).mpr ⟨dir,executed,target,declared,.inr ⟨magic,member,rfl⟩⟩
    exact List.mem_map_of_mem entry
  · have none : deps = [] := empty
    rw [none] at member
    exact absurd member List.not_mem_nil

theorem pop_some {choice : Nat} {cited : List TargetId} (popped : pop choice cited = some (targetId,rest)) :
    (∀ y, y ∈ cited ↔ y = targetId ∨ y ∈ rest) ∧ cited.length = rest.length + 1 := by
  obtain ⟨first,found,same⟩ := Option.map_eq_some_iff.mp popped
  obtain ⟨rfl,rfl⟩ := Prod.mk.inj same
  obtain ⟨bound,here⟩ := List.getElem?_eq_some_iff.mp found
  have perm := List.getElem_cons_eraseIdx_perm bound
  rw [here] at perm
  exact ⟨fun y => by rw [← perm.mem_iff,List.mem_cons],perm.length_eq.symm⟩

theorem pop_none {choice : Nat} {cited : List TargetId} (popped : pop choice cited = none) : cited = [] := by
  rw [pop,Option.map_eq_none_iff,List.getElem?_eq_none_iff] at popped
  by_contra some
  exact absurd (Nat.mod_lt choice (List.length_pos_iff.mpr some)) (Nat.not_lt.mpr popped)

/-- What is related is in the database, and only directories of the command line and of
related targets are loaded. -/
structure Searching (tree : SourceTree) (command : Command) (search : Search) : Prop where
  registered : Registered tree search.loading
  frontier : Frontier (DependsOn tree) (Start tree command) (search.relatedTargets.map Prod.fst) search.citedTargets
  entries : ∀ entry ∈ search.relatedTargets, entry ∈ search.loading.targetDatabase
  loaded : ∀ dir ∈ search.loading.executed,
    (∃ entry ∈ command.sourceDirs, normpath entry.1 = dir) ∨ ∃ key ∈ search.relatedTargets.map Prod.fst, key.1 = dir
  processed : ∀ entry ∈ command.sourceDirs, normpath entry.1 ≠ "#" → normpath entry.1 ∈ search.loading.processed
  systems : ∀ key ∈ search.citedTargets, key.1 = "#" →
    key ∈ command.citedTargets ∨ key ∈ search.loading.targetDatabase.map Prod.fst

def rank (tree : SourceTree) (search : Search) : Nat :=
  search.citedTargets.length + budget tree.sizes (search.relatedTargets.map Prod.fst)

theorem foldl_insert (keep : TargetId → Prop) [DecidablePred keep] (deps cited : List TargetId) :
    (∀ y, y ∈ deps.foldl (fun cited key => if keep key then cited else cited.insert key) cited ↔
      y ∈ cited ∨ y ∈ deps ∧ ¬keep y) ∧
    (deps.foldl (fun cited key => if keep key then cited else cited.insert key) cited).length ≤ cited.length + deps.length := by
  induction deps generalizing cited with
  | nil => simp
  | cons key deps ih =>
    rw [List.foldl_cons]
    obtain ⟨mem,length⟩ := ih (if keep key then cited else cited.insert key)
    by_cases kept : keep key
    · simp only [if_pos kept] at mem length ⊢
      refine ⟨fun y => ?_,Nat.le_trans length (by simp)⟩
      rw [mem,List.mem_cons]
      grind
    · simp only [if_neg kept] at mem length ⊢
      refine ⟨fun y => ?_,Nat.le_trans length ?_⟩
      · rw [mem,List.mem_insert_iff,List.mem_cons]
        grind
      · have one : (cited.insert key).length ≤ cited.length + 1 := by
          rw [List.insert]
          split <;> simp
        rw [List.length_cons]
        omega

theorem visit_fresh (fresh : targetId ∉ search.relatedTargets.map Prod.fst) : visit tree search targetId rest =
    (loadBuildFile tree .abortIfFail search.loading targetId.1).bind fun loading =>
      match loading.targetDatabase.lookup targetId with
      | none => .error (.noTarget (findDepender targetId loading.targetDatabase) targetId)
      | some expandedDeps => .ok ⟨expandedDeps.foldl (fun cited key =>
          if ((search.relatedTargets ++ [(targetId,expandedDeps)]).lookup key).isSome then cited else cited.insert key) rest,
        search.relatedTargets ++ [(targetId,expandedDeps)],loading⟩ := by
  rw [visit,if_neg fun known => fresh (lookup_isSome_iff_key.mp known)]
  rfl

theorem listed_size {dir : String} {target : Declared} (declared : target ∈ tree.declared dir) :
    ((dir,target.name),target.expandedDeps.length) ∈ tree.sizes := by
  refine List.mem_flatMap.mpr ⟨dir,?_,List.mem_map_of_mem declared⟩
  by_contra missing
  rw [SourceTree.declared,if_neg missing] at declared
  exact absurd declared List.not_mem_nil

theorem Registered.budget_relate {loading : Loading} (registered : Registered tree loading) {deps done : List TargetId}
    (known : (targetId,deps) ∈ loading.targetDatabase) (fresh : targetId ∉ done) :
    budget tree.sizes (done ++ [targetId]) + deps.length ≤ budget tree.sizes done := by
  obtain ⟨dir,_,target,declared,same | ⟨_,_,empty⟩⟩ := (registered.mem_iff _).mp known
  · obtain ⟨rfl,rfl⟩ := Prod.mk.inj same
    exact budget_visit (listed_size declared) fresh
  · have none : deps = [] := empty
    rw [none]
    exact budget_le _ fun x member => List.mem_append_left _ member

theorem Searching.loaded_relate (before : Searching tree command search) {loading : Loading} (registered : Registered tree loading)
    (processed : ∀ other, other ∈ loading.processed ↔ other ∈ search.loading.processed ∨ other = normpath targetId.1 ∧ other ≠ "#")
    {deps : List TargetId} (known : (targetId,deps) ∈ loading.targetDatabase) :
    ∀ dir ∈ loading.executed, (∃ entry ∈ command.sourceDirs, normpath entry.1 = dir) ∨
      ∃ key ∈ search.relatedTargets.map Prod.fst ++ [targetId], key.1 = dir := by
  intro dir executed
  rw [registered.executed,List.mem_filter,processed] at executed
  rcases executed with ⟨old | ⟨rfl,plain⟩,build⟩
  · have earlier : dir ∈ search.loading.executed := by
      rw [before.registered.executed,List.mem_filter]
      exact ⟨old,build⟩
    rcases before.loaded dir earlier with cited | ⟨key,done,here⟩
    · exact .inl cited
    · exact .inr ⟨key,List.mem_append_left _ done,here⟩
  · refine .inr ⟨targetId,List.mem_append_right _ (List.mem_singleton_self _),?_⟩
    rcases registered.key_path (List.mem_map_of_mem known) with magic | inside
    · have same : targetId.1 = "#" := magic
      rw [same] at plain
      exact absurd (by decide) plain
    · exact (tree.normal _ (registered.executed_dir inside)).symm

theorem Searching.relate (before : Searching tree command search) (split : ∀ y, y ∈ search.citedTargets ↔ y = targetId ∨ y ∈ rest)
    (length : search.citedTargets.length = rest.length + 1) (fresh : targetId ∉ search.relatedTargets.map Prod.fst)
    {loading : Loading} (registered : Registered tree loading)
    (processed : ∀ other, other ∈ loading.processed ↔ other ∈ search.loading.processed ∨ other = normpath targetId.1 ∧ other ≠ "#")
    {deps : List TargetId} (known : (targetId,deps) ∈ loading.targetDatabase) :
    let related := search.relatedTargets ++ [(targetId,deps)]
    let next : Search := ⟨deps.foldl (fun cited key => if (related.lookup key).isSome then cited else cited.insert key) rest,related,loading⟩
    Searching tree command next ∧ rank tree next < rank tree search := by
  intro related next
  have keys : related.map Prod.fst = search.relatedTargets.map Prod.fst ++ [targetId] := by
    rw [List.map_append,List.map_singleton]
  obtain ⟨cited,short⟩ := foldl_insert (fun key => (related.lookup key).isSome = true) deps rest
  have grows := before.registered.grows registered fun other old => (processed other).mpr (.inl old)
  refine ⟨⟨registered,?_,?_,?_,?_,?_⟩,?_⟩
  · change Frontier _ _ (related.map Prod.fst) _
    rw [keys]
    apply before.frontier.visit split
    · intro y member
      exact (cited y).mpr (.inl member)
    · intro y member
      exact ((cited y).mp member).imp_right fun new => (registered.deps known y).mp new.1
    · intro y edge
      by_cases done : y ∈ search.relatedTargets.map Prod.fst ++ [targetId]
      · exact .inl done
      · refine .inr ((cited y).mpr (.inr ⟨(registered.deps known y).mpr edge,?_⟩))
        rw [lookup_isSome_iff_key,keys]
        exact done
  · intro entry member
    rcases List.mem_append.mp member with old | new
    · exact grows entry (before.entries entry old)
    · exact List.mem_singleton.mp new ▸ known
  · intro dir executed
    change _ ∨ ∃ key ∈ related.map Prod.fst, key.1 = dir
    rw [keys]
    exact before.loaded_relate registered processed known dir executed
  · intro entry member plain
    exact (processed _).mpr (.inl (before.processed entry member plain))
  · intro key member magic
    rcases (cited key).mp member with old | ⟨new,_⟩
    · refine (before.systems key ((split key).mpr (.inr old)) magic).imp_right fun there => ?_
      obtain ⟨entry,inside,same⟩ := List.mem_map.mp there
      exact same ▸ List.mem_map_of_mem (grows entry inside)
    · exact .inr (registered.system_dep known new magic)
  · have less := registered.budget_relate known fresh
    change (deps.foldl (fun cited key => if (related.lookup key).isSome then cited else cited.insert key) rest).length +
      budget tree.sizes (related.map Prod.fst) < _
    rw [keys,rank,length]
    omega

theorem Searching.visit (before : Searching tree command search)
    (split : ∀ y, y ∈ search.citedTargets ↔ y = targetId ∨ y ∈ rest) (length : search.citedTargets.length = rest.length + 1)
    (ran : visit tree search targetId rest = .ok next) :
    Searching tree command next ∧ rank tree next < rank tree search := by
  by_cases known : targetId ∈ search.relatedTargets.map Prod.fst
  · rw [LoadBuildFiles.visit,if_pos (lookup_isSome_iff_key.mpr known)] at ran
    obtain rfl := Except.ok.inj ran
    refine ⟨⟨before.registered,before.frontier.skip known split,before.entries,before.loaded,before.processed,?_⟩,?_⟩
    · intro key member
      exact before.systems key ((split key).mpr (.inr member))
    change rest.length + budget tree.sizes (search.relatedTargets.map Prod.fst) < _
    rw [rank,length]
    omega
  · rw [visit_fresh known] at ran
    by_cases fails : Fails tree search.loading .abortIfFail targetId.1
    · obtain ⟨failure,failed,_⟩ := loadBuildFile_error fails
      rw [failed] at ran
      cases ran
    · obtain ⟨loading,loaded,registered,processed⟩ := loadBuildFile_ok before.registered fails
      rw [loaded] at ran
      dsimp only [Except.bind] at ran
      split at ran
      · cases ran
      · rename_i deps found
        obtain rfl := Except.ok.inj ran
        exact before.relate split length known registered processed (mem_of_lookup found)

theorem declared_present {dir : String} {target : Declared} (declared : target ∈ tree.declared dir) :
    dir ∈ tree.dirs ∧ ∃ targets, tree.build dir = some targets := by
  have present : dir ∈ tree.dirs := by
    by_contra missing
    rw [SourceTree.declared,if_neg missing] at declared
    exact absurd declared List.not_mem_nil
  refine ⟨present,?_⟩
  rw [SourceTree.declared,if_pos present] at declared
  cases build : tree.build dir with
  | none =>
    rw [build] at declared
    exact absurd declared List.not_mem_nil
  | some targets => exact ⟨targets,rfl⟩

theorem Searching.visit_ok (before : Searching tree command search) (rest : List TargetId)
    (system : targetId.1 = "#" → targetId ∈ search.loading.targetDatabase.map Prod.fst)
    (declared : targetId.1 ≠ "#" → ∃ target ∈ tree.declared targetId.1, target.name = targetId.2) :
    ∃ next, LoadBuildFiles.visit tree search targetId rest = .ok next := by
  by_cases known : targetId ∈ search.relatedTargets.map Prod.fst
  · exact ⟨_,by rw [LoadBuildFiles.visit,if_pos (lookup_isSome_iff_key.mpr known)]⟩
  · have passes : ¬Fails tree search.loading .abortIfFail targetId.1 := by
      intro ⟨_,plain,missing⟩
      by_cases magic : targetId.1 = "#"
      · rw [magic] at plain
        exact absurd (by decide) plain
      · obtain ⟨target,member,_⟩ := declared magic
        obtain ⟨present,targets,build⟩ := declared_present member
        rw [tree.normal _ present] at missing
        rcases missing with absent | blocked | ⟨_,none⟩
        · exact absent (.inl present)
        · exact tree.apart _ (build_isSome.mp (by rw [build]; rfl)) blocked
        · exact Option.some_ne_none _ (build.symm.trans none)
    obtain ⟨loading,loaded,registered,processed⟩ := loadBuildFile_ok before.registered passes
    have found : (loading.targetDatabase.lookup targetId).isSome = true := by
      rw [lookup_isSome_iff_key]
      by_cases magic : targetId.1 = "#"
      · obtain ⟨entry,old,same⟩ := List.mem_map.mp (system magic)
        have grows := before.registered.grows registered fun other old => (processed other).mpr (.inl old)
        exact same ▸ List.mem_map_of_mem (grows entry old)
      · obtain ⟨target,member,name⟩ := declared magic
        obtain ⟨present,targets,build⟩ := declared_present member
        have executed : targetId.1 ∈ loading.executed := by
          rw [registered.executed,List.mem_filter,processed,tree.normal _ present]
          exact ⟨.inr ⟨rfl,magic⟩,by rw [build]; rfl⟩
        have entry : ((targetId.1,target.name),target.expandedDeps) ∈ loading.targetDatabase :=
          (registered.mem_iff _).mpr ⟨targetId.1,executed,target,member,.inl rfl⟩
        rw [name] at entry
        exact List.mem_map_of_mem entry
    obtain ⟨deps,here⟩ := Option.isSome_iff_exists.mp found
    rw [visit_fresh known,loaded]
    dsimp only [Except.bind]
    rw [here]
    exact ⟨_,rfl⟩

theorem Searching.visit_error (before : Searching tree command search) {failure : Failure}
    (failed : LoadBuildFiles.visit tree search targetId rest = .error failure) : failure.message ≠ none := by
  by_cases known : targetId ∈ search.relatedTargets.map Prod.fst
  · rw [LoadBuildFiles.visit,if_pos (lookup_isSome_iff_key.mpr known)] at failed
    cases failed
  · rw [visit_fresh known] at failed
    by_cases fails : Fails tree search.loading .abortIfFail targetId.1
    · obtain ⟨other,stopped,message⟩ := loadBuildFile_error fails
      rw [stopped] at failed
      exact Except.error.inj failed ▸ message
    · obtain ⟨loading,loaded,_⟩ := loadBuildFile_ok before.registered fails
      rw [loaded] at failed
      dsimp only [Except.bind] at failed
      split at failed
      · obtain rfl := Except.error.inj failed
        simp [Failure.message]
      · cases failed

end Search

/-! The whole loop. -/
section Loop
variable {tree : SourceTree} {command : Command} {choice : Nat → List TargetId → Nat}

theorem searchLoop_inv {fuel turn : Nat} {search final : Search} (before : Searching tree command search)
    (ended : searchLoop tree choice fuel turn search = .ok final) : Searching tree command final ∧ final.citedTargets = [] := by
  induction fuel generalizing turn search with
  | zero =>
    unfold searchLoop at ended
    split at ended
    · rename_i empty
      obtain rfl := Except.ok.inj ended
      exact ⟨before,empty⟩
    · cases ended
  | succ fuel ih =>
    unfold searchLoop at ended
    split at ended
    · rename_i popped
      obtain rfl := Except.ok.inj ended
      exact ⟨before,pop_none popped⟩
    · rename_i targetId rest popped
      obtain ⟨split,length⟩ := pop_some popped
      cases visited : visit tree search targetId rest with
      | error failure =>
        rw [visited] at ended
        cases ended
      | ok next =>
        rw [visited] at ended
        exact ih (before.visit split length visited).1 ended

/-- The loop ends: with this fuel it stops for no other reason than a message. -/
theorem searchLoop_error {fuel turn : Nat} {search : Search} (before : Searching tree command search)
    (enough : rank tree search ≤ fuel) {failure : Failure} (failed : searchLoop tree choice fuel turn search = .error failure) :
    failure.message ≠ none := by
  induction fuel generalizing turn search with
  | zero =>
    unfold searchLoop at failed
    split at failed
    · cases failed
    · rename_i some_left
      have length : search.citedTargets.length = 0 := by
        unfold rank at enough
        omega
      exact absurd (List.length_eq_zero_iff.mp length) some_left
  | succ fuel ih =>
    unfold searchLoop at failed
    split at failed
    · cases failed
    · rename_i targetId rest popped
      obtain ⟨split,length⟩ := pop_some popped
      cases visited : visit tree search targetId rest with
      | error other =>
        rw [visited] at failed
        obtain rfl := Except.error.inj failed
        exact before.visit_error visited
      | ok next =>
        rw [visited] at failed
        obtain ⟨after,lower⟩ := before.visit split length visited
        exact ih after (by omega) failed

theorem searchLoop_ok {fuel turn : Nat} {search : Search} (before : Searching tree command search) (enough : rank tree search ≤ fuel)
    (taken : ∀ turn search targetId rest, Searching tree command search →
      pop (choice turn search.citedTargets) search.citedTargets = some (targetId,rest) →
      (targetId.1 = "#" → targetId ∈ search.loading.targetDatabase.map Prod.fst) ∧
        (targetId.1 ≠ "#" → ∃ target ∈ tree.declared targetId.1, target.name = targetId.2)) :
    ∃ final, searchLoop tree choice fuel turn search = .ok final := by
  induction fuel generalizing turn search with
  | zero =>
    have length : search.citedTargets.length = 0 := by
      unfold rank at enough
      omega
    exact ⟨search,by rw [searchLoop,if_pos (List.length_eq_zero_iff.mp length)]⟩
  | succ fuel ih =>
    unfold searchLoop
    cases popped : pop (choice turn search.citedTargets) search.citedTargets with
    | none => exact ⟨search,rfl⟩
    | some first =>
      obtain ⟨targetId,rest⟩ := first
      obtain ⟨split,length⟩ := pop_some popped
      obtain ⟨system,declared⟩ := taken turn search targetId rest before popped
      obtain ⟨next,visited⟩ := before.visit_ok rest system declared
      obtain ⟨after,lower⟩ := before.visit split length visited
      have later : ∃ final, searchLoop tree choice fuel (turn + 1) next = .ok final := ih after (by omega)
      dsimp only
      rw [visited]
      exact later

end Loop
end WebSearch.LoadBuildFiles
