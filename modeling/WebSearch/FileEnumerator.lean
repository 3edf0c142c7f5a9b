import WebSearch.FilePathComponents
import Mathlib.Data.List.Nodup
import Mathlib.Logic.Relation

/-! `FileEnumerator` of `base/file_util_posix.cc` and `file_util.cc`: the paths below a
directory, one for each call of `Next`. -/
namespace WebSearch.FileUtil
open FilePath

/-- `isDir` is what `S_ISDIR` says of the mode; where `stat` fails the mode is 0. -/
structure DirectoryEntryInfo where
  filename : Bytes
  isDir : Bool
  deriving DecidableEq

/-- `readDirectory` has the entries of a directory that can be opened, as `readdir` and, with
or without following links, `stat` give them; `fnmatch` is true of a path that a pattern fits. -/
structure Disk where
  readDirectory : Bytes → Bool → Option (List DirectoryEntryInfo)
  fnmatch : Bytes → Bytes → Bool
  unnamed : ∀ links, readDirectory [] links = none
  named : ∀ dir links entries, readDirectory dir links = some entries → ∀ i ∈ entries, Name i.filename
  nodup : ∀ dir links entries, readDirectory dir links = some entries → (entries.map (·.filename)).Nodup

structure FileType where
  files : Bool
  directories : Bool
  includeDotDot : Bool
  showSymLinks : Bool

/-- The members that never change. -/
structure Wanted where
  recursive : Bool
  fileType : FileType
  pattern : Bytes

structure FileEnumerator extends Wanted where
  directoryEntries : List DirectoryEntryInfo
  currentDirectoryEntry : Nat
  rootPath : Bytes
  pendingPaths : List Bytes

def isDot (path : Bytes) : Bool := kCurrentDirectory = baseName path
def isDotDot (path : Bytes) : Bool := kParentDirectory = baseName path

def shouldSkip (fileType : FileType) (path : Bytes) : Bool := isDot path || (isDotDot path && !fileType.includeDotDot)

/-- Both constructors: the one without a pattern has the empty one. -/
def make (rootPath : Bytes) (recursive : Bool) (fileType : FileType) (pattern : Bytes) : FileEnumerator :=
  ⟨⟨recursive,fileType,if pattern = [] then [] else append rootPath pattern⟩,[],0,rootPath,[rootPath]⟩

/-- The body of the loop over the entries of a directory. -/
def scanEntry (disk : Disk) (e : FileEnumerator) (i : DirectoryEntryInfo) : FileEnumerator :=
  let fullPath := append e.rootPath i.filename
  if shouldSkip e.fileType fullPath then e
  else if e.pattern ≠ [] ∧ disk.fnmatch e.pattern fullPath = false then e
  else
    let e := if e.recursive && i.isDir then {e with pendingPaths := fullPath :: e.pendingPaths} else e
    if (i.isDir && e.fileType.directories) || (!i.isDir && e.fileType.files) then
      {e with directoryEntries := e.directoryEntries ++ [i]}
    else e

/-- The body of the loop of `Next`. -/
def enter (disk : Disk) (e : FileEnumerator) (top : Bytes) (pendingPaths : List Bytes) : FileEnumerator :=
  let e := {e with rootPath := stripTrailingSeparators top,pendingPaths}
  match disk.readDirectory e.rootPath e.fileType.showSymLinks with
  | none => e
  | some entries => entries.foldl (scanEntry disk) {e with directoryEntries := [],currentDirectoryEntry := 0}

/-- The loop of `Next`: whether there is an entry, and the state at the end. -/
def advance (disk : Disk) : Nat → FileEnumerator → Option (Bool × FileEnumerator)
  | 0,_ => none
  | fuel + 1,e =>
    if e.currentDirectoryEntry < e.directoryEntries.length then some (true,e)
    else
      match e.pendingPaths with
      | [] => some (false,e)
      | top :: pendingPaths => advance disk fuel (enter disk e top pendingPaths)

def FileEnumerator.path (e : FileEnumerator) (entry : DirectoryEntryInfo) : Bytes := append e.rootPath entry.filename

def FileEnumerator.bump (e : FileEnumerator) : FileEnumerator :=
  {e with currentDirectoryEntry := e.currentDirectoryEntry + 1}

def next (disk : Disk) (fuel : Nat) (e : FileEnumerator) : Option (Bytes × FileEnumerator) := do
  let (found,e) ← advance disk fuel e.bump
  if found then
    let entry ← e.directoryEntries[e.currentDirectoryEntry]?
    return (e.path entry,e)
  else return ([],e)

/-- So many calls of `Next`. -/
def calls (disk : Disk) (fuel : Nat) : Nat → FileEnumerator → Option (List Bytes)
  | 0,_ => some []
  | n + 1,e => do
    let (path,e) ← next disk fuel e
    let paths ← calls disk fuel n e
    return path :: paths

/-! What is below a directory. -/

section Below
variable (disk : Disk) (w : Wanted)

/-- Neither skipped nor kept out by the pattern. -/
def kept (dir : Bytes) (i : DirectoryEntryInfo) : Bool :=
  !shouldSkip w.fileType (append dir i.filename) && (w.pattern = [] || disk.fnmatch w.pattern (append dir i.filename))

def shown (dir : Bytes) (i : DirectoryEntryInfo) : Bool :=
  kept disk w dir i && ((i.isDir && w.fileType.directories) || (!i.isDir && w.fileType.files))

def entered (dir : Bytes) (i : DirectoryEntryInfo) : Bool := kept disk w dir i && (w.recursive && i.isDir)

def subdirectories (dir : Bytes) (entries : List DirectoryEntryInfo) : List Bytes :=
  (entries.filter (entered disk w dir)).map fun i => append dir i.filename

def own (dir : Bytes) (entries : List DirectoryEntryInfo) : List Bytes :=
  (entries.filter (shown disk w dir)).map fun i => append dir i.filename

/-- A directory's own entries, then those below its subdirectories from the last one on. -/
def listed : Nat → Bytes → List Bytes
  | 0,_ => []
  | n + 1,top =>
    match disk.readDirectory (stripTrailingSeparators top) w.fileType.showSymLinks with
    | none => []
    | some entries => own disk w (stripTrailingSeparators top) entries ++
        (subdirectories disk w (stripTrailingSeparators top) entries).reverse.flatMap (listed n)

/-- How many of them are opened, or could not be. -/
def directories : Nat → Bytes → Nat
  | 0,_ => 0
  | n + 1,top =>
    match disk.readDirectory (stripTrailingSeparators top) w.fileType.showSymLinks with
    | none => 1
    | some entries => 1 + ((subdirectories disk w (stripTrailingSeparators top) entries).map (directories n)).sum

/-- Fewer than `n` directories lie within one another, as without a cycle of links. -/
def Shallow : Nat → Bytes → Prop
  | 0,_ => False
  | n + 1,top => ∀ entries, disk.readDirectory (stripTrailingSeparators top) w.fileType.showSymLinks = some entries →
      ∀ sub ∈ subdirectories disk w (stripTrailingSeparators top) entries, Shallow n sub

instance Shallow.decidable : ∀ n top, Decidable (Shallow disk w n top)
  | 0,_ => isFalse not_false
  | n + 1,top =>
    match read : disk.readDirectory (stripTrailingSeparators top) w.fileType.showSymLinks with
    | none => isTrue fun entries other => by simp [read] at other
    | some entries =>
      have := Shallow.decidable n
      decidable_of_iff (∀ sub ∈ subdirectories disk w (stripTrailingSeparators top) entries, Shallow disk w n sub)
        ⟨fun inside _ other => Option.some.inj (read.symm.trans other) ▸ inside,fun inside => inside entries read⟩

end Below

section Runs
variable {disk : Disk} {w : Wanted}

theorem Shallow.succ {n : Nat} {top : Bytes} (shallow : Shallow disk w n top) : Shallow disk w (n + 1) top ∧
    listed disk w (n + 1) top = listed disk w n top ∧ directories disk w (n + 1) top = directories disk w n top := by
  induction n generalizing top with
  | zero => exact shallow.elim
  | succ n ih =>
    refine ⟨fun entries read sub member => (ih (shallow entries read sub member)).1,?_,?_⟩
    · rw [listed,listed]
      cases read : disk.readDirectory (stripTrailingSeparators top) w.fileType.showSymLinks with
      | none => rfl
      | some entries =>
        dsimp only
        congr 1
        apply List.flatMap_congr
        intro sub member
        exact (ih (shallow entries read sub (List.mem_reverse.mp member))).2.1
    · rw [directories,directories]
      cases read : disk.readDirectory (stripTrailingSeparators top) w.fileType.showSymLinks with
      | none => rfl
      | some entries =>
        dsimp only
        congr 2
        apply List.map_congr_left
        intro sub member
        exact (ih (shallow entries read sub member)).2.2

/-- One entry, in the terms of what is below a directory. -/
theorem scanEntry_eq (e : FileEnumerator) (i : DirectoryEntryInfo) : scanEntry disk e i =
    {e with
      directoryEntries := e.directoryEntries ++ [i].filter (shown disk e.toWanted e.rootPath)
      pendingPaths := (subdirectories disk e.toWanted e.rootPath [i]).reverse ++ e.pendingPaths} := by
  obtain ⟨⟨recursive,⟨files,directories,includeDotDot,showSymLinks⟩,pattern⟩,directoryEntries,current,rootPath,pending⟩ := e
  obtain ⟨filename,isDir⟩ := i
  rw [scanEntry,subdirectories,List.filter_singleton,List.filter_singleton,shown,entered,kept]
  dsimp only
  generalize here : append rootPath filename = fullPath
  cases shouldSkip ⟨files,directories,includeDotDot,showSymLinks⟩ fullPath with
  | true => simp
  | false =>
    by_cases fits : pattern ≠ [] ∧ disk.fnmatch pattern fullPath = false
    · simp [fits]
    · have fits' : (decide (pattern = []) || disk.fnmatch pattern fullPath) = true := by
        rw [Bool.or_eq_true,decide_eq_true_eq]
        by_contra no
        rw [not_or,Bool.not_eq_true] at no
        exact fits no
      rw [if_neg fits,fits']
      cases recursive <;> cases isDir <;> cases directories <;> cases files <;> simp [here]

/-- The loop over the entries, at once. -/
theorem scan_eq (entries : List DirectoryEntryInfo) (e : FileEnumerator) : entries.foldl (scanEntry disk) e =
    {e with
      directoryEntries := e.directoryEntries ++ entries.filter (shown disk e.toWanted e.rootPath)
      pendingPaths := (subdirectories disk e.toWanted e.rootPath entries).reverse ++ e.pendingPaths} := by
  induction entries generalizing e with
  | nil => simp [subdirectories]
  | cons i entries ih =>
    rw [List.foldl_cons,ih,scanEntry_eq]
    have split (q : DirectoryEntryInfo → Bool) : (i :: entries).filter q = [i].filter q ++ entries.filter q :=
      List.filter_append [i] entries
    simp only [subdirectories,split,List.map_append,List.reverse_append,List.append_assoc]

/-- What is still to come, the current entry first. -/
def FileEnumerator.rest (disk : Disk) (n : Nat) (e : FileEnumerator) : List Bytes :=
  (e.directoryEntries.drop e.currentDirectoryEntry).map e.path ++ e.pendingPaths.flatMap (listed disk e.toWanted n)

/-- What every state of a run keeps, with so much fuel. -/
structure Searching (disk : Disk) (w : Wanted) (n fuel : Nat) (e : FileEnumerator) : Prop where
  wanted : e.toWanted = w
  shallow : ∀ top ∈ e.pendingPaths, Shallow disk w n top
  enough : (e.pendingPaths.map (directories disk w n)).sum < fuel

theorem enter_none {e : FileEnumerator} {top : Bytes} (pendingPaths : List Bytes)
    (read : disk.readDirectory (stripTrailingSeparators top) e.fileType.showSymLinks = none) :
    enter disk e top pendingPaths = {e with rootPath := stripTrailingSeparators top,pendingPaths} := by
  rw [enter,read]

theorem enter_some {e : FileEnumerator} {top : Bytes} (pendingPaths : List Bytes) {entries : List DirectoryEntryInfo}
    (read : disk.readDirectory (stripTrailingSeparators top) e.fileType.showSymLinks = some entries) :
    enter disk e top pendingPaths = {e with
      directoryEntries := entries.filter (shown disk e.toWanted (stripTrailingSeparators top))
      currentDirectoryEntry := 0
      rootPath := stripTrailingSeparators top
      pendingPaths := (subdirectories disk e.toWanted (stripTrailingSeparators top) entries).reverse ++ pendingPaths} := by
  rw [enter,read]
  exact scan_eq _ _

theorem enter_searching {n fuel : Nat} {e : FileEnumerator} {top : Bytes} {pendingPaths : List Bytes}
    (searching : Searching disk w n (fuel + 1) e) (pending : e.pendingPaths = top :: pendingPaths)
    (exhausted : e.directoryEntries.length ≤ e.currentDirectoryEntry) :
    Searching disk w n fuel (enter disk e top pendingPaths) ∧ (enter disk e top pendingPaths).rest disk n = e.rest disk n := by
  obtain ⟨rfl,shallow,enough⟩ := searching
  rw [pending] at shallow enough
  obtain ⟨first,others⟩ := List.forall_mem_cons.mp shallow
  rw [List.map_cons,List.sum_cons] at enough
  rw [FileEnumerator.rest,FileEnumerator.rest,List.drop_eq_nil_of_le exhausted,pending,List.flatMap_cons,List.map_nil,
    List.nil_append]
  cases n with
  | zero => exact first.elim
  | succ n =>
    rw [listed]
    rw [directories] at enough
    cases read : disk.readDirectory (stripTrailingSeparators top) e.fileType.showSymLinks with
    | none =>
      rw [read] at enough
      rw [enter_none pendingPaths read,List.drop_eq_nil_of_le exhausted]
      refine ⟨⟨rfl,others,?_⟩,rfl⟩
      dsimp only at enough ⊢
      omega
    | some entries =>
      rw [read] at enough
      rw [enter_some pendingPaths read]
      have within (sub : Bytes) (member : sub ∈ subdirectories disk e.toWanted (stripTrailingSeparators top) entries) :=
        (first entries read sub member).succ
      have opened : (subdirectories disk e.toWanted (stripTrailingSeparators top) entries).map
          (directories disk e.toWanted (n + 1)) = (subdirectories disk e.toWanted (stripTrailingSeparators top) entries).map
          (directories disk e.toWanted n) :=
        List.map_congr_left fun sub member => (within sub member).2.2
      have found : (subdirectories disk e.toWanted (stripTrailingSeparators top) entries).reverse.flatMap
          (listed disk e.toWanted (n + 1)) = (subdirectories disk e.toWanted (stripTrailingSeparators top) entries).reverse.flatMap
          (listed disk e.toWanted n) :=
        List.flatMap_congr fun sub member => (within sub (List.mem_reverse.mp member)).2.1
      refine ⟨⟨rfl,?_,?_⟩,?_⟩
      · intro sub member
        obtain inside | other := List.mem_append.mp member
        · exact (within sub (List.mem_reverse.mp inside)).1
        · exact others sub other
      · dsimp only at enough ⊢
        rw [List.map_append,List.map_reverse,List.sum_append,List.sum_reverse,opened]
        omega
      · rw [List.flatMap_append,found,List.drop_zero,← List.append_assoc]
        rfl

/-- A call stops at the first of what is still to come, if there is anything. -/
theorem advance_rest {n fuel : Nat} {e : FileEnumerator} (searching : Searching disk w n fuel e) :
    ∃ found e', advance disk fuel e = some (found,e') ∧ Searching disk w n fuel e' ∧ e'.rest disk n = e.rest disk n ∧
    if found then e'.currentDirectoryEntry < e'.directoryEntries.length else e'.rest disk n = [] := by
  induction fuel generalizing e with
  | zero => exact absurd searching.enough (Nat.not_lt_zero _)
  | succ fuel ih =>
    rw [advance]
    by_cases here : e.currentDirectoryEntry < e.directoryEntries.length
    · rw [if_pos here]
      exact ⟨true,e,rfl,searching,rfl,here⟩
    · rw [if_neg here]
      have exhausted := Nat.le_of_not_lt here
      cases pending : e.pendingPaths with
      | nil =>
        refine ⟨false,e,rfl,searching,rfl,?_⟩
        rw [if_neg Bool.false_ne_true,FileEnumerator.rest,pending,List.drop_eq_nil_of_le exhausted]
        rfl
      | cons top pendingPaths =>
        obtain ⟨opened,same⟩ := enter_searching searching pending exhausted
        obtain ⟨found,e',advanced,⟨wanted,shallow,enough⟩,kept,stops⟩ := ih opened
        exact ⟨found,e',advanced,⟨wanted,shallow,enough.trans (Nat.lt_succ_self fuel)⟩,kept.trans same,stops⟩

theorem rest_bump {n : Nat} {e : FileEnumerator} (here : e.currentDirectoryEntry < e.directoryEntries.length) :
    e.rest disk n = e.path e.directoryEntries[e.currentDirectoryEntry] :: e.bump.rest disk n := by
  rw [FileEnumerator.rest,List.drop_eq_getElem_cons here,List.map_cons]
  rfl

theorem rest_nil {n : Nat} {e : FileEnumerator} (nothing : e.rest disk n = []) : e.bump.rest disk n = [] := by
  obtain ⟨shown,below⟩ := List.append_eq_nil_iff.mp nothing
  have exhausted := List.drop_eq_nil_iff.mp (List.map_eq_nil_iff.mp shown)
  rw [FileEnumerator.rest,FileEnumerator.bump,List.drop_eq_nil_of_le (exhausted.trans (Nat.le_succ _))]
  exact below

/-- What a call returns, and what is left to come. -/
theorem next_rest {n fuel : Nat} {e : FileEnumerator} (searching : Searching disk w n fuel e) :
    ∃ path e', next disk fuel e = some (path,e') ∧ Searching disk w n fuel e' ∧
    (e.bump.rest disk n = path :: e'.bump.rest disk n ∨ path = [] ∧ e.bump.rest disk n = [] ∧ e'.bump.rest disk n = []) := by
  have bumped : Searching disk w n fuel e.bump := ⟨searching.wanted,searching.shallow,searching.enough⟩
  obtain ⟨found,e',advanced,searching',same,stops⟩ := advance_rest bumped
  rw [← same,next,advanced]
  cases found with
  | true =>
    have here : e'.currentDirectoryEntry < e'.directoryEntries.length := stops
    refine ⟨e'.path e'.directoryEntries[e'.currentDirectoryEntry],e',?_,searching',.inl (rest_bump here)⟩
    simp [List.getElem?_eq_getElem here]
  | false => exact ⟨[],e',rfl,searching',.inr ⟨rfl,stops,rest_nil stops⟩⟩

theorem take_padded {α : Type} (items : List α) (item : α) (k : Nat) :
    (items ++ List.replicate (k + 1) item).take k = (items ++ List.replicate k item).take k := by
  rw [List.take_append,List.take_append,List.take_replicate,List.take_replicate]
  congr 2
  omega

/-- One call after the other gives what is still to come, then empty paths. -/
theorem calls_rest {n fuel : Nat} (k : Nat) {e : FileEnumerator} (searching : Searching disk w n fuel e) :
    calls disk fuel k e = some ((e.bump.rest disk n ++ List.replicate k []).take k) := by
  induction k generalizing e with
  | zero => rw [calls,List.take_zero]
  | succ k ih =>
    obtain ⟨path,e',given,searching',left⟩ := next_rest searching
    have more := ih searching'
    rw [calls,given]
    simp only [Option.bind_eq_bind,Option.bind_some,more]
    obtain cut | ⟨rfl,nothing,none⟩ := left
    · rw [cut,List.cons_append,List.take_succ_cons,take_padded]
      rfl
    · rw [nothing,none]
      simp [List.replicate_succ]

end Runs

section Paths
variable {disk : Disk} {w : Wanted} {dir : Bytes} {entries : List DirectoryEntryInfo}

/-- From a directory to one below it that is opened too. -/
def Enters (disk : Disk) (w : Wanted) (top sub : Bytes) : Prop :=
  ∃ entries, disk.readDirectory (stripTrailingSeparators top) w.fileType.showSymLinks = some entries ∧
    ∃ i ∈ entries, entered disk w (stripTrailingSeparators top) i ∧ sub = append (stripTrailingSeparators top) i.filename

/-- The path of an entry that is asked for, in the directory or one entered from it. -/
def Asked (disk : Disk) (w : Wanted) (top path : Bytes) : Prop :=
  ∃ dir, Relation.ReflTransGen (Enters disk w) top dir ∧
    ∃ entries, disk.readDirectory (stripTrailingSeparators dir) w.fileType.showSymLinks = some entries ∧
    ∃ i ∈ entries, shown disk w (stripTrailingSeparators dir) i ∧ path = append (stripTrailingSeparators dir) i.filename

theorem mem_subdirectories {sub : Bytes} : sub ∈ subdirectories disk w dir entries ↔
    ∃ i ∈ entries, entered disk w dir i ∧ sub = append dir i.filename := by
  simp only [subdirectories,List.mem_map,List.mem_filter,and_assoc,eq_comm (a := sub)]

theorem mem_own {path : Bytes} : path ∈ own disk w dir entries ↔
    ∃ i ∈ entries, shown disk w dir i ∧ path = append dir i.filename := by
  simp only [own,List.mem_map,List.mem_filter,and_assoc,eq_comm (a := path)]

theorem mem_listed {n : Nat} {top path : Bytes} (shallow : Shallow disk w n top) :
    path ∈ listed disk w n top ↔ Asked disk w top path := by
  induction n generalizing top with
  | zero => exact shallow.elim
  | succ n ih =>
    rw [listed]
    constructor
    · cases read : disk.readDirectory (stripTrailingSeparators top) w.fileType.showSymLinks with
      | none => exact fun member => absurd member List.not_mem_nil
      | some entries =>
        intro member
        obtain here | below := List.mem_append.mp member
        · exact ⟨top,.refl,entries,read,mem_own.mp here⟩
        · obtain ⟨sub,inside,below⟩ := List.mem_flatMap.mp below
          rw [List.mem_reverse] at inside
          obtain ⟨dir,way,asked⟩ := (ih (shallow entries read sub inside)).mp below
          exact ⟨dir,.head ⟨entries,read,mem_subdirectories.mp inside⟩ way,asked⟩
    · intro asked
      obtain ⟨dir,way,entries,read,asked⟩ := asked
      obtain rfl | ⟨sub,⟨above,opened,inside⟩,way⟩ := Relation.ReflTransGen.cases_head way
      · rw [read]
        exact List.mem_append_left _ (mem_own.mpr asked)
      · have member := mem_subdirectories.mpr inside
        rw [opened]
        apply List.mem_append_right
        refine List.mem_flatMap.mpr ⟨sub,List.mem_reverse.mpr member,?_⟩
        exact (ih (shallow above opened sub member)).mpr ⟨dir,way,entries,read,asked⟩

theorem entry_path {top : Bytes} (read : disk.readDirectory (stripTrailingSeparators top) w.fileType.showSymLinks = some entries)
    {i : DirectoryEntryInfo} (member : i ∈ entries) : baseName (append (stripTrailingSeparators top) i.filename) = i.filename ∧
    stripTrailingSeparators (append (stripTrailingSeparators top) i.filename) = append (stripTrailingSeparators top) i.filename ∧
    (kept disk w (stripTrailingSeparators top) i → getComponents (append (stripTrailingSeparators top) i.filename) =
      getComponents (stripTrailingSeparators top) ++ [i.filename]) := by
  have is_name := disk.named _ _ _ read i member
  obtain empty | fine := fine_strip top
  · rw [empty,disk.unnamed] at read
    contradiction
  · obtain ⟨base,stripped,under⟩ := append_fine fine is_name
    refine ⟨base,stripped,fun keeps => under ?_⟩
    intro dot
    rw [kept,shouldSkip,isDot,base,dot] at keeps
    contradiction

theorem listed_under {n : Nat} {top path : Bytes} (member : path ∈ listed disk w n top) :
    ∃ rest, rest ≠ [] ∧ getComponents path = getComponents (stripTrailingSeparators top) ++ rest := by
  induction n generalizing top with
  | zero => exact absurd member List.not_mem_nil
  | succ n ih =>
    rw [listed] at member
    cases read : disk.readDirectory (stripTrailingSeparators top) w.fileType.showSymLinks with
    | none =>
      rw [read] at member
      exact absurd member List.not_mem_nil
    | some entries =>
      rw [read] at member
      obtain here | below := List.mem_append.mp member
      · obtain ⟨i,inside,is_shown,rfl⟩ := mem_own.mp here
        obtain ⟨-,-,under⟩ := entry_path read inside
        exact ⟨[i.filename],List.cons_ne_nil _ _,under (Bool.and_eq_true_iff.mp is_shown).1⟩
      · obtain ⟨sub,inside,below⟩ := List.mem_flatMap.mp below
        obtain ⟨i,there,is_entered,rfl⟩ := mem_subdirectories.mp (List.mem_reverse.mp inside)
        obtain ⟨-,stripped,under⟩ := entry_path read there
        obtain ⟨rest,more,cut⟩ := ih below
        rw [stripped,under (Bool.and_eq_true_iff.mp is_entered).1] at cut
        exact ⟨i.filename :: rest,List.cons_ne_nil _ _,by rw [cut,List.append_assoc,List.singleton_append]⟩

theorem entries_nodup {top : Bytes} (read : disk.readDirectory (stripTrailingSeparators top) w.fileType.showSymLinks = some entries)
    (q : DirectoryEntryInfo → Bool) :
    ((entries.filter q).map fun i => append (stripTrailingSeparators top) i.filename).Nodup := by
  have different := disk.nodup _ _ _ read
  refine List.Nodup.map_on ?_ ((List.Nodup.of_map _ different).filter q)
  intro i here j there same
  have base := congrArg baseName same
  have here := (List.mem_filter.mp here).1
  have there := (List.mem_filter.mp there).1
  rw [(entry_path read here).1,(entry_path read there).1] at base
  exact List.inj_on_of_nodup_map different here there base

theorem listed_nodup (n : Nat) (top : Bytes) : (listed disk w n top).Nodup := by
  induction n generalizing top with
  | zero => exact List.nodup_nil
  | succ n ih =>
    rw [listed]
    cases read : disk.readDirectory (stripTrailingSeparators top) w.fileType.showSymLinks with
    | none => exact List.nodup_nil
    | some entries =>
      have tall (sub : Bytes) (inside : sub ∈ subdirectories disk w (stripTrailingSeparators top) entries) (path : Bytes)
          (member : path ∈ listed disk w n sub) : ∃ (i : DirectoryEntryInfo) (rest : List Bytes), rest ≠ [] ∧
          sub = append (stripTrailingSeparators top) i.filename ∧
          getComponents path = getComponents (stripTrailingSeparators top) ++ i.filename :: rest := by
        obtain ⟨i,there,is_entered,rfl⟩ := mem_subdirectories.mp inside
        obtain ⟨-,stripped,under⟩ := entry_path read there
        obtain ⟨rest,more,cut⟩ := listed_under member
        rw [stripped,under (Bool.and_eq_true_iff.mp is_entered).1,List.append_assoc] at cut
        exact ⟨i,rest,more,rfl,cut⟩
      refine List.nodup_append'.mpr ⟨entries_nodup read _,?_,?_⟩
      · refine List.nodup_flatMap.mpr ⟨fun sub _ => ih sub,?_⟩
        refine List.Nodup.pairwise_of_forall_ne (List.nodup_reverse.mpr (entries_nodup read _)) ?_
        intro sub inside other there different path member again
        obtain ⟨i,rest,-,rfl,cut⟩ := tall sub (List.mem_reverse.mp inside) path member
        obtain ⟨j,rest',-,rfl,cut'⟩ := tall other (List.mem_reverse.mp there) path again
        have first := List.append_cancel_left (cut.symm.trans cut')
        rw [List.cons.injEq] at first
        exact different (by rw [first.1])
      · intro path here below
        obtain ⟨i,inside,is_shown,rfl⟩ := mem_own.mp here
        obtain ⟨sub,inside',below⟩ := List.mem_flatMap.mp below
        obtain ⟨j,rest,more,-,cut⟩ := tall sub (List.mem_reverse.mp inside') _ below
        rw [(entry_path read inside).2.2 (Bool.and_eq_true_iff.mp is_shown).1] at cut
        have first := List.append_cancel_left cut
        rw [List.cons.injEq] at first
        exact more first.2.symm

theorem asked_filled {top path : Bytes} (asked : Asked disk w top path) : path ≠ [] := by
  obtain ⟨dir,-,entries,read,i,member,-,rfl⟩ := asked
  intro empty
  have base := (entry_path read member).1
  rw [empty] at base
  exact (disk.named _ _ _ read i member).filled base.symm

/-- Nothing is entered from the root. -/
theorem shallow_flat (flat : w.recursive = false) (top : Bytes) : Shallow disk w 1 top := by
  intro entries _ sub member
  obtain ⟨i,-,is_entered,-⟩ := mem_subdirectories.mp member
  rw [entered,flat] at is_entered
  simp at is_entered

/-- The calls give each path that is asked for once, and after these empty paths. A recursive
enumeration has to be of a tree that is not infinitely deep. -/
theorem enumerated (disk : Disk) (root : Bytes) (recursive : Bool) (fileType : FileType) (pattern : Bytes)
    (finite : recursive = true → ∃ n, Shallow disk (make root recursive fileType pattern).toWanted n root) :
    ∃ paths : List Bytes, paths.Nodup ∧ [] ∉ paths ∧
    (∀ path, path ∈ paths ↔ Asked disk (make root recursive fileType pattern).toWanted root path) ∧
    ∃ enough, ∀ fuel ≥ enough, ∀ k, calls disk fuel k (make root recursive fileType pattern) =
      some ((paths ++ List.replicate k []).take k) := by
  have finite : ∃ n, Shallow disk (make root recursive fileType pattern).toWanted n root := by
    cases recursive with
    | true => exact finite rfl
    | false => exact ⟨1,shallow_flat rfl root⟩
  obtain ⟨n,shallow⟩ := finite
  refine ⟨listed disk (make root recursive fileType pattern).toWanted n root,listed_nodup n root,?_,
    fun path => mem_listed shallow,directories disk (make root recursive fileType pattern).toWanted n root + 1,?_⟩
  · intro empty
    exact asked_filled ((mem_listed shallow).mp empty) rfl
  · intro fuel enough k
    have searching : Searching disk (make root recursive fileType pattern).toWanted n fuel
        (make root recursive fileType pattern) :=
      ⟨rfl,List.forall_mem_singleton.mpr shallow,enough⟩
    have start : (make root recursive fileType pattern).bump.rest disk n =
        listed disk (make root recursive fileType pattern).toWanted n root := List.append_nil _
    rw [calls_rest k searching,start]

/-- A directory with a file and a directory that has another file. -/
def smallDisk : Disk where
  readDirectory dir _ :=
    if dir = "/a".toUTF8.toList then some [⟨".".toUTF8.toList,true⟩,⟨"f".toUTF8.toList,false⟩,⟨"d".toUTF8.toList,true⟩]
    else if dir = "/a/d".toUTF8.toList then some [⟨"..".toUTF8.toList,true⟩,⟨"g".toUTF8.toList,false⟩]
    else none
  fnmatch _ _ := true
  unnamed := by decide +kernel
  named dir links entries read := by
    split at read
    · cases read
      decide +kernel
    · split at read
      · cases read
        decide +kernel
      · contradiction
  nodup dir links entries read := by
    split at read
    · cases read
      decide +kernel
    · split at read
      · cases read
        decide +kernel
      · contradiction

theorem enumerated_small : ∃ paths : List Bytes, paths.Nodup ∧
    "/a/f".toUTF8.toList ∈ paths ∧ "/a/d/g".toUTF8.toList ∈ paths ∧ "/a/d".toUTF8.toList ∉ paths ∧
    ∃ enough, ∀ fuel ≥ enough, ∀ k, calls smallDisk fuel k (make "/a/".toUTF8.toList true ⟨true,false,false,false⟩ []) =
      some ((paths ++ List.replicate k []).take k) := by
  have shallow : Shallow smallDisk (make "/a/".toUTF8.toList true ⟨true,false,false,false⟩ []).toWanted 2 "/a/".toUTF8.toList := by
    decide +kernel
  obtain ⟨paths,different,-,asked,ran⟩ := enumerated smallDisk "/a/".toUTF8.toList true ⟨true,false,false,false⟩ []
    fun _ => ⟨2,shallow⟩
  refine ⟨paths,different,?_,?_,?_,ran⟩
  all_goals
    rw [asked,← mem_listed shallow]
    decide +kernel

end Paths

end WebSearch.FileUtil
