import WebSearch.Sites
import Mathlib.Data.Set.Card
import Mathlib.Order.CompletePartialOrder

/-! `Delete` of `base/file_util_posix.cc`: the files below a directory go while they are being
enumerated, and the directories afterwards, the last one found first. -/
namespace WebSearch.FileUtil
open Library File FilePath

/-- The first loop. Where `unlink` fails `Next` is called once more, to no effect. -/
def deleteLoop (fuel : Nat) : Nat → Site → FileEnumerator → List Bytes → Option (Bool × Site × List Bytes)
  | 0,_,_,_ => none
  | n + 1,site,traversal,directories => do
    let (current,traversal) ← next site.disk fuel traversal
    if current = [] then some (true,site,directories)
    else if traversal.directoryEntries[traversal.currentDirectoryEntry]?.any (·.isDir) then
      deleteLoop fuel n site traversal (current :: directories)
    else
      match site.unlink current with
      | some site => deleteLoop fuel n site traversal directories
      | none => some (false,site,directories)

def removeLoop : List Bytes → Site → Bool × Site
  | [],site => (true,site)
  | dir :: directories,site =>
    match site.rmdir dir with
    | some site => removeLoop directories site
    | none => (false,site)

def fileTypes : FileType := ⟨true,true,false,true⟩

/-- What is not there counts as deleted. -/
def delete (fuel : Nat) (site : Site) (path : Bytes) (recursive : Bool) : Option (Bool × Site) :=
  match site.dirs.stat path with
  | none => some (true,site)
  | some .file =>
    match site.unlink path with
    | some site => some (true,site)
    | none => some (false,site)
  | some .dir =>
    if !recursive then
      match site.rmdir path with
      | some site => some (true,site)
      | none => some (false,site)
    else do
      let (success,site,directories) ← deleteLoop fuel fuel site (make path true fileTypes []) [path]
      if success then some (removeLoop directories site) else some (false,site)

/-- What a recursive enumeration without a pattern is after. -/
def everything : Wanted := ⟨true,fileTypes,[]⟩

def kindOf (isDir : Bool) : FileKind := if isDir then .dir else .file

theorem shown_everything (disk : Disk) (dir : Bytes) (i : DirectoryEntryInfo) :
    shown disk everything dir i = kept disk everything dir i := by
  rw [shown]
  cases i.isDir <;> exact Bool.and_true _

theorem isDir_of_kind {isDir : Bool} (kind : some (kindOf isDir) = some .dir) : isDir = true := by
  cases isDir with
  | true => rfl
  | false => exact absurd kind (by decide)

section Reading
variable {site : Site} {top : Bytes} {dir : List Bytes}

/-- What is shown of a directory: all there is but the two names that every directory has. -/
theorem read_shown (leads : Leads site.dirs ⟨top,dir⟩) (is_dir : site.dirs.kind dir = some .dir) (links : Bool) :
    ∃ entries, site.disk.readDirectory (stripTrailingSeparators top) links = some entries ∧
    (∀ i ∈ entries.filter (shown site.disk everything (stripTrailingSeparators top)),
      site.dirs.kind (i.filename :: dir) = some (kindOf i.isDir)) ∧
    (∀ name, site.dirs.kind (name :: dir) ≠ none →
      ∃ i ∈ entries.filter (shown site.disk everything (stripTrailingSeparators top)), i.filename = name) ∧
    entries.filter (entered site.disk everything (stripTrailingSeparators top)) =
      (entries.filter (shown site.disk everything (stripTrailingSeparators top))).filter (·.isDir) := by
  obtain ⟨stripped,-,fine⟩ := leads.strip
  have opened : opendir site.dirs (stripTrailingSeparators top) = some dir := by
    rw [opendir,stripped.resolved]
    simp [is_dir]
  let entry (name : Bytes) : DirectoryEntryInfo := ⟨name,File.isDir site.dirs (append (stripTrailingSeparators top) name)⟩
  have read : site.disk.readDirectory (stripTrailingSeparators top) links = some ((site.listing.entries dir).map entry) :=
    congrArg (Option.map fun dp => (site.listing.entries dp).map entry) opened
  have is_kind {name : Bytes} (there : site.dirs.kind (name :: dir) ≠ none) :
      site.dirs.kind (name :: dir) = some (kindOf (entry name).isDir) := by
    have inside := (leads.append is_dir there).1.resolved
    dsimp only at inside
    have decided : (entry name).isDir = decide (site.dirs.kind (name :: dir) = some .dir) := by
      change File.isDir site.dirs _ = _
      rw [File.isDir,Directories.stat,inside,Option.bind_some]
    obtain ⟨kind,same⟩ := Option.ne_none_iff_exists'.mp there
    rw [decided,same]
    cases kind <;> rfl
  have keeps {i : DirectoryEntryInfo} (member : i ∈ (site.listing.entries dir).map entry) :
      kept site.disk everything (stripTrailingSeparators top) i = true ↔ i.filename ≠ [dot] ∧ i.filename ≠ [dot,dot] := by
    have base := (append_fine fine (site.disk.named _ _ _ read i member)).1
    rw [kept,shouldSkip,isDot,isDotDot,base]
    simp only [everything,fileTypes,kCurrentDirectory,kParentDirectory,dot,Bool.not_false,Bool.and_true,Bool.not_or,
      Bool.and_eq_true,Bool.not_eq_true',decide_true,Bool.true_or]
    exact and_congr (decide_eq_false_iff_not.trans (not_congr eq_comm)) (decide_eq_false_iff_not.trans (not_congr eq_comm))
  refine ⟨_,read,?_,?_,?_⟩
  · intro i member
    obtain ⟨inside,is_shown⟩ := List.mem_filter.mp member
    obtain ⟨here,above⟩ := (keeps inside).mp (Bool.and_eq_true_iff.mp is_shown).1
    obtain ⟨name,listed,rfl⟩ := List.mem_map.mp inside
    obtain same | same | there := (site.listing.mem_entries dir name).mp listed
    · exact absurd same here
    · exact absurd same above
    · exact is_kind there
  · intro name there
    have plain := site.dirs.named name dir there
    have inside := List.mem_map_of_mem (f := entry) ((site.listing.mem_entries dir name).mpr (.inr (.inr there)))
    refine ⟨entry name,List.mem_filter.mpr ⟨inside,?_⟩,rfl⟩
    rw [shown_everything]
    exact (keeps inside).mpr ⟨plain.2.1,plain.2.2.1⟩
  · rw [List.filter_filter]
    apply List.filter_congr
    intro i _
    rw [shown_everything,Bool.and_comm]
    rfl

end Reading

/-! What a traversal has left, the current entry first. -/

def FileEnumerator.left (e : FileEnumerator) : List DirectoryEntryInfo := e.directoryEntries.drop e.currentDirectoryEntry

/-- What is in the directories to come, themselves included. -/
def toEnter (dirs : Directories) (ways : List Way) : Set (List Bytes) :=
  {l | dirs.kind l ≠ none ∧ ∃ way ∈ ways, way.loc <:+ l}

def toShow (dirs : Directories) (dir : List Bytes) (entries : List DirectoryEntryInfo) (ways : List Way) : Set (List Bytes) :=
  {l | dirs.kind l ≠ none ∧ ((∃ i ∈ entries, l = i.filename :: dir) ∨ ∃ way ∈ ways, way.loc <:+ l ∧ l ≠ way.loc)}

def Apart (a b : Way) : Prop := ¬a.loc <:+ b.loc ∧ ¬b.loc <:+ a.loc

/-- The traversal is in `dir`, and `ways` lead to the directories that it has not entered yet.
What is below `loc` has been found or is still to be shown. -/
structure Traversing (loc : List Bytes) (site : Site) (found : List (List Bytes)) (e : FileEnumerator) (dir : List Bytes)
    (ways : List Way) : Prop where
  wanted : e.toWanted = everything
  pending : e.pendingPaths = ways.map (·.path)
  leads : ∀ way ∈ ways, Leads site.dirs way ∧ site.dirs.kind way.loc = some .dir ∧ loc <:+ way.loc
  apart : ways.Pairwise Apart
  entries : ∀ i ∈ e.left, site.dirs.kind (i.filename :: dir) = some (kindOf i.isDir)
  different : (e.left.map (·.filename)).Nodup
  here : e.left ≠ [] → Leads site.dirs ⟨e.rootPath,dir⟩ ∧ stripTrailingSeparators e.rootPath = e.rootPath ∧ loc <:+ dir ∧
    ∀ way ∈ ways, ¬way.loc <:+ dir
  entered : ∀ i ∈ e.left, i.isDir = true → ∃ way ∈ ways, way.loc = i.filename :: dir
  unfound : ∀ i ∈ e.left, i.filename :: dir ∉ found
  above : ∀ way ∈ ways, ∀ l ∈ found, way.loc <:+ l → l = way.loc
  covered : ∀ l, loc <:+ l → site.dirs.kind l ≠ none → l ∈ found ∨ l ∈ toShow site.dirs dir e.left ways

section Traversal
variable {loc : List Bytes} {site : Site} {found : List (List Bytes)} {e : FileEnumerator} {dir : List Bytes} {ways : List Way}
  {way : Way}

/-- Entering a directory shows nothing else. -/
theorem toShow_enter {dirs : Directories} {shown : List DirectoryEntryInfo} {subs : List Way}
    (kinds : ∀ i ∈ shown, dirs.kind (i.filename :: way.loc) = some (kindOf i.isDir))
    (all : ∀ name, dirs.kind (name :: way.loc) ≠ none → ∃ i ∈ shown, i.filename = name)
    (subs_iff : ∀ l, (∃ sub ∈ subs, sub.loc = l) ↔ ∃ i ∈ shown, i.isDir = true ∧ i.filename :: way.loc = l) :
    toShow dirs way.loc shown (subs ++ ways) = toShow dirs dir [] (way :: ways) := by
  ext l
  constructor
  · rintro ⟨there,⟨i,member,rfl⟩ | ⟨sub,member,inside,other⟩⟩
    · exact ⟨there,.inr ⟨way,List.mem_cons_self,List.suffix_cons _ _,(List.cons_ne_self _ _)⟩⟩
    · refine ⟨there,.inr ?_⟩
      obtain below | later := List.mem_append.mp member
      · obtain ⟨i,-,-,same⟩ := (subs_iff sub.loc).mp ⟨sub,below,rfl⟩
        rw [← same] at inside
        refine ⟨way,List.mem_cons_self,(List.suffix_cons _ _).trans inside,?_⟩
        rintro rfl
        exact FileTree.not_cons_suffix inside
      · exact ⟨sub,List.mem_cons_of_mem _ later,inside,other⟩
  · rintro ⟨there,⟨i,member,-⟩ | ⟨sub,member,inside,other⟩⟩
    · exact absurd member List.not_mem_nil
    · refine ⟨there,?_⟩
      obtain rfl | later := List.mem_cons.mp member
      · obtain ⟨name,below⟩ := FileTree.exists_cons_suffix inside other
        by_cases last : l = name :: sub.loc
        · subst last
          obtain ⟨i,member,rfl⟩ := all name there
          exact .inl ⟨i,member,rfl⟩
        · have is_dir := (FileTree.kind_above there below).resolve_left fun same => last same.symm
          obtain ⟨i,member,rfl⟩ := all name (ne_of_eq_of_ne is_dir (Option.some_ne_none _))
          have opens : i.isDir = true := isDir_of_kind ((kinds i member).symm.trans is_dir)
          obtain ⟨next,among,same⟩ := (subs_iff _).mpr ⟨i,member,opens,rfl⟩
          rw [← same] at below last
          exact .inr ⟨next,List.mem_append_left _ among,below,last⟩
      · exact .inr ⟨sub,List.mem_append_right _ later,inside,other⟩

theorem toEnter_enter {dirs : Directories} {subs : List Way} (there : dirs.kind way.loc ≠ none)
    (apart : ∀ other ∈ ways, Apart way other) (below : ∀ sub ∈ subs, ∃ name, sub.loc = name :: way.loc) :
    toEnter dirs (subs ++ ways) ⊂ toEnter dirs (way :: ways) := by
  refine (Set.ssubset_iff_of_subset ?_).mpr ⟨way.loc,⟨there,way,List.mem_cons_self,List.suffix_refl _⟩,?_⟩
  · rintro l ⟨kind,sub,member,inside⟩
    refine ⟨kind,?_⟩
    obtain inner | later := List.mem_append.mp member
    · obtain ⟨name,same⟩ := below sub inner
      rw [same] at inside
      exact ⟨way,List.mem_cons_self,(List.suffix_cons _ _).trans inside⟩
    · exact ⟨sub,List.mem_cons_of_mem _ later,inside⟩
  · rintro ⟨-,sub,member,inside⟩
    obtain inner | later := List.mem_append.mp member
    · obtain ⟨name,same⟩ := below sub inner
      rw [same] at inside
      exact FileTree.not_cons_suffix inside
    · exact (apart sub later).2 inside

theorem apart_enter {subs : List Way} (rest : ways.Pairwise Apart) (apart : ∀ other ∈ ways, Apart way other)
    (below : ∀ sub ∈ subs, ∃ name, sub.loc = name :: way.loc) (different : (subs.map (·.loc)).Nodup) :
    (subs ++ ways).Pairwise Apart := by
  refine List.pairwise_append.mpr ⟨?_,rest,?_⟩
  · refine List.Pairwise.imp_of_mem ?_ (List.pairwise_map.mp different)
    intro a b inner inner' other
    obtain ⟨name,same⟩ := below a inner
    obtain ⟨name',same'⟩ := below b inner'
    have length : a.loc.length = b.loc.length := by rw [same,same',List.length_cons,List.length_cons]
    exact ⟨fun inside => other (inside.eq_of_length length),fun inside => other (inside.eq_of_length length.symm).symm⟩
  · intro sub inner other later
    obtain ⟨name,same⟩ := below sub inner
    obtain ⟨above,under⟩ := apart other later
    rw [Apart,same]
    refine ⟨fun inside => above ((List.suffix_cons _ _).trans inside),fun inside => ?_⟩
    obtain here | inside := List.suffix_cons_iff.mp inside
    · exact above (here ▸ List.suffix_cons _ _)
    · exact under inside

/-- A directory is entered when what was shown of the one before is done with. -/
theorem Traversing.enter (traversing : Traversing loc site found e dir (way :: ways)) (exhausted : e.left = []) :
    ∃ subs, Traversing loc site found (enter site.disk e way.path (ways.map (·.path))) way.loc (subs ++ ways) ∧
    toEnter site.dirs (subs ++ ways) ⊂ toEnter site.dirs (way :: ways) ∧
    toShow site.dirs way.loc (enter site.disk e way.path (ways.map (·.path))).left (subs ++ ways) =
      toShow site.dirs dir e.left (way :: ways) := by
  obtain ⟨wanted,-,leads,apart,-,-,-,-,-,above,covered⟩ := traversing
  obtain ⟨⟨leads,is_dir,inside⟩,others⟩ := List.forall_mem_cons.mp leads
  obtain ⟨apart,rest⟩ := List.pairwise_cons.mp apart
  obtain ⟨above,others_above⟩ := List.forall_mem_cons.mp above
  obtain ⟨entries,read,kinds,all,opened⟩ := read_shown leads is_dir e.fileType.showSymLinks
  have entered := enter_some (e := e) (ways.map (·.path)) read
  have different : ((entries.filter (shown site.disk everything (stripTrailingSeparators way.path))).map
      (·.filename)).Nodup := List.Nodup.sublist (List.filter_sublist.map _) (site.disk.nodup _ _ _ read)
  rw [wanted,subdirectories,opened] at entered
  rw [entered,exhausted]
  generalize entries.filter (shown site.disk everything (stripTrailingSeparators way.path)) = inner at *
  let put (i : DirectoryEntryInfo) : Way := ⟨append (stripTrailingSeparators way.path) i.filename,i.filename :: way.loc⟩
  let subs : List Way := ((inner.filter (·.isDir)).map put).reverse
  have mem_subs (sub : Way) : sub ∈ subs ↔ ∃ i ∈ inner, i.isDir = true ∧ put i = sub := by
    simp only [subs,List.mem_reverse,List.mem_map,List.mem_filter,and_assoc]
  have below : ∀ sub ∈ subs, ∃ name, sub.loc = name :: way.loc := by
    intro sub member
    obtain ⟨i,-,-,rfl⟩ := (mem_subs sub).mp member
    exact ⟨i.filename,rfl⟩
  have same : toShow site.dirs way.loc inner (subs ++ ways) = toShow site.dirs dir [] (way :: ways) := by
    apply toShow_enter kinds all
    intro l
    constructor
    · rintro ⟨sub,member,rfl⟩
      obtain ⟨i,listed,opens,rfl⟩ := (mem_subs sub).mp member
      exact ⟨i,listed,opens,rfl⟩
    · rintro ⟨i,listed,opens,rfl⟩
      exact ⟨put i,(mem_subs _).mpr ⟨i,listed,opens,rfl⟩,rfl⟩
  refine ⟨subs,?_,toEnter_enter (ne_of_eq_of_ne is_dir (Option.some_ne_none _)) apart below,same⟩
  constructor
  · rfl
  · change (((inner.filter (·.isDir)).map fun i => append (stripTrailingSeparators way.path) i.filename)).reverse ++
      ways.map (·.path) = (subs ++ ways).map (·.path)
    rw [List.map_append,List.map_reverse,List.map_map]
    rfl
  · intro sub member
    obtain inner | later := List.mem_append.mp member
    · obtain ⟨i,listed,opens,rfl⟩ := (mem_subs sub).mp inner
      have kind := kinds i listed
      rw [opens] at kind
      refine ⟨(leads.append is_dir ?_).1,kind,inside.trans (List.suffix_cons _ _)⟩
      exact ne_of_eq_of_ne kind (Option.some_ne_none _)
    · exact others sub later
  · apply apart_enter rest apart below
    have names : ((inner.filter (·.isDir)).map (·.filename)).Nodup := List.Nodup.sublist (List.filter_sublist.map _) different
    have locs := names.map (f := fun name => name :: way.loc) fun _ _ same => (List.cons.inj same).1
    rw [List.map_map] at locs
    rw [List.map_reverse,List.nodup_reverse,List.map_map]
    exact locs
  · exact kinds
  · exact different
  · intro _
    obtain ⟨stripped,again,-⟩ := leads.strip
    refine ⟨stripped,again,inside,fun sub member => ?_⟩
    obtain inner | later := List.mem_append.mp member
    · obtain ⟨name,same⟩ := below sub inner
      rw [same]
      exact FileTree.not_cons_suffix
    · exact (apart sub later).2
  · intro i listed opens
    exact ⟨put i,List.mem_append_left _ ((mem_subs _).mpr ⟨i,listed,opens,rfl⟩),rfl⟩
  · intro i _ member
    exact absurd (above _ member (List.suffix_cons _ _)) (List.cons_ne_self _ _)
  · intro sub member l among inner
    obtain deeper | later := List.mem_append.mp member
    · obtain ⟨name,same⟩ := below sub deeper
      rw [same] at inner
      obtain rfl := above l among ((List.suffix_cons _ _).trans inner)
      exact absurd inner FileTree.not_cons_suffix
    · exact others_above sub later l among inner
  · intro l under there
    rw [exhausted,← same] at covered
    exact covered l under there

theorem Traversing.advance {fuel : Nat} (finite : {l | site.dirs.kind l ≠ none}.Finite)
    (traversing : Traversing loc site found e dir ways) (enough : (toEnter site.dirs ways).ncard < fuel) :
    ∃ more e' dir' ways', advance site.disk fuel e = some (more,e') ∧ Traversing loc site found e' dir' ways' ∧
    toShow site.dirs dir' e'.left ways' = toShow site.dirs dir e.left ways ∧ if more then e'.left ≠ [] else e'.left = [] ∧ ways' = [] := by
  induction fuel generalizing e dir ways with
  | zero => exact absurd enough (Nat.not_lt_zero _)
  | succ fuel ih =>
    rw [FileUtil.advance]
    by_cases here : e.currentDirectoryEntry < e.directoryEntries.length
    · rw [if_pos here]
      refine ⟨true,e,dir,ways,rfl,traversing,rfl,?_⟩
      exact fun nothing => absurd (List.drop_eq_nil_iff.mp nothing) (Nat.not_le_of_lt here)
    · rw [if_neg here,traversing.pending]
      have exhausted : e.left = [] := List.drop_eq_nil_of_le (Nat.le_of_not_lt here)
      cases ways with
      | nil => exact ⟨false,e,dir,[],rfl,traversing,rfl,exhausted,rfl⟩
      | cons way ways =>
        obtain ⟨subs,entered,fewer,same⟩ := traversing.enter exhausted
        have smaller : (toEnter site.dirs (subs ++ ways)).ncard < fuel := by
          have := Set.ncard_lt_ncard fewer (finite.subset fun l inside => inside.1)
          omega
        obtain ⟨more,e',dir',ways',advanced,kept,same',stops⟩ := ih entered smaller
        exact ⟨more,e',dir',ways',advanced,kept,same'.trans same,stops⟩

theorem left_bump {i : DirectoryEntryInfo} (current : e.directoryEntries[e.currentDirectoryEntry]? = some i) :
    e.left = i :: e.bump.left := by
  obtain ⟨here,rfl⟩ := List.getElem?_eq_some_iff.mp current
  exact List.drop_eq_getElem_cons here

theorem current_mem {i : DirectoryEntryInfo} (current : e.directoryEntries[e.currentDirectoryEntry]? = some i) : i ∈ e.left :=
  left_bump current ▸ List.mem_cons_self

theorem bump_mem {i : DirectoryEntryInfo} (later : i ∈ e.bump.left) : i ∈ e.left := by
  rw [FileEnumerator.left,FileEnumerator.bump,← List.tail_drop] at later
  exact List.mem_of_mem_tail later

theorem Traversing.current_leads {i : DirectoryEntryInfo} (traversing : Traversing loc site found e dir ways)
    (current : e.directoryEntries[e.currentDirectoryEntry]? = some i) :
    Leads site.dirs ⟨append e.rootPath i.filename,i.filename :: dir⟩ ∧ lastPart (append e.rootPath i.filename) = some i.filename ∧
    site.dirs.kind (i.filename :: dir) = some (kindOf i.isDir) ∧ loc <:+ i.filename :: dir := by
  have first := current_mem current
  have kind := traversing.entries i first
  have there : site.dirs.kind (i.filename :: dir) ≠ none := ne_of_eq_of_ne kind (Option.some_ne_none _)
  obtain ⟨leads,again,inside,-⟩ := traversing.here (List.ne_nil_of_mem first)
  have below := leads.append (site.dirs.parent _ _ there) there
  rw [again] at below
  exact ⟨below.1,below.2,kind,inside.trans (List.suffix_cons _ _)⟩

/-- A call gives the path of something that is there, or nothing when all has been shown. -/
theorem Traversing.next {fuel : Nat} (finite : {l | site.dirs.kind l ≠ none}.Finite)
    (traversing : Traversing loc site found e.bump dir ways) (enough : (toEnter site.dirs ways).ncard < fuel) :
    ∃ path e', next site.disk fuel e = some (path,e') ∧
    (path = [] ∧ (∀ l, loc <:+ l → site.dirs.kind l ≠ none → l ∈ found) ∨
      ∃ i dir' ways', path = append e'.rootPath i.filename ∧ path ≠ [] ∧
        e'.directoryEntries[e'.currentDirectoryEntry]? = some i ∧ Traversing loc site found e' dir' ways' ∧
        toShow site.dirs dir' e'.left ways' = toShow site.dirs dir e.bump.left ways) := by
  obtain ⟨more,e',dir',ways',advanced,kept,same,stops⟩ := traversing.advance finite enough
  rw [FileUtil.next,advanced]
  cases more with
  | false =>
    obtain ⟨exhausted,rfl⟩ := stops
    refine ⟨[],e',rfl,.inl ⟨rfl,fun l under there => ?_⟩⟩
    obtain done | ⟨-,⟨i,member,-⟩ | ⟨way,member,-⟩⟩ := kept.covered l under there
    · exact done
    · rw [exhausted] at member
      exact absurd member List.not_mem_nil
    · exact absurd member List.not_mem_nil
  | true =>
    have here : e'.currentDirectoryEntry < e'.directoryEntries.length := by
      by_contra no
      exact stops (List.drop_eq_nil_of_le (Nat.le_of_not_lt no))
    have current := List.getElem?_eq_getElem here
    have filled := resolve_filled (kept.current_leads current).1.resolved
    refine ⟨_,e',?_,.inr ⟨_,dir',ways',rfl,filled,current,kept,same⟩⟩
    simp [current,FileEnumerator.path]

section Current
variable {i : DirectoryEntryInfo}

/-- The current entry is not below a directory to come, unless it is one. -/
theorem Traversing.current_way (traversing : Traversing loc site found e dir ways)
    (current : e.directoryEntries[e.currentDirectoryEntry]? = some i) (member : way ∈ ways)
    (inside : way.loc <:+ i.filename :: dir) : i.filename :: dir = way.loc := by
  obtain same | under := List.suffix_cons_iff.mp inside
  · exact same.symm
  · exact absurd under ((traversing.here (List.ne_nil_of_mem (current_mem current))).2.2.2 way member)

theorem Traversing.later (traversing : Traversing loc site found e dir ways)
    (current : e.directoryEntries[e.currentDirectoryEntry]? = some i) :
    (∀ j ∈ e.bump.left, j.filename ≠ i.filename) ∧ (e.bump.left.map (·.filename)).Nodup := by
  have different := traversing.different
  rw [left_bump current,List.map_cons,List.nodup_cons] at different
  exact ⟨fun j later same => different.1 (List.mem_map.mpr ⟨j,later,same⟩),different.2⟩

theorem Traversing.shown_less {after : Directories} (traversing : Traversing loc site found e dir ways)
    (current : e.directoryEntries[e.currentDirectoryEntry]? = some i)
    (fewer : ∀ l, after.kind l ≠ none → site.dirs.kind l ≠ none) :
    toShow after dir e.bump.left ways ⊂ toShow site.dirs dir e.left ways := by
  have there := traversing.entries i (current_mem current)
  rw [left_bump current]
  refine (Set.ssubset_iff_of_subset ?_).mpr ⟨i.filename :: dir,⟨?_,.inl ⟨i,List.mem_cons_self,rfl⟩⟩,?_⟩
  · rintro l ⟨kind,⟨j,later,rfl⟩ | below⟩
    · exact ⟨fewer _ kind,.inl ⟨j,List.mem_cons_of_mem i later,rfl⟩⟩
    · exact ⟨fewer _ kind,.inr below⟩
  · exact ne_of_eq_of_ne there (Option.some_ne_none _)
  · rintro ⟨-,⟨j,later,same⟩ | ⟨way,member,inside,other⟩⟩
    · exact (traversing.later current).1 j later (List.cons.inj same).1.symm
    · exact other (traversing.current_way current member inside)

/-- The current entry is put with what has been found. -/
theorem Traversing.find (traversing : Traversing loc site found e dir ways)
    (current : e.directoryEntries[e.currentDirectoryEntry]? = some i) :
    Traversing loc site ((i.filename :: dir) :: found) e.bump dir ways := by
  obtain ⟨others,different⟩ := traversing.later current
  constructor
  · exact traversing.wanted
  · exact traversing.pending
  · exact traversing.leads
  · exact traversing.apart
  · exact fun j later => traversing.entries j (bump_mem later)
  · exact different
  · exact fun _ => traversing.here (List.ne_nil_of_mem (current_mem current))
  · exact fun j later => traversing.entered j (bump_mem later)
  · intro j later member
    obtain same | member := List.mem_cons.mp member
    · exact others j later (List.cons.inj same).1
    · exact traversing.unfound j (bump_mem later) member
  · intro way member l among inside
    obtain rfl | among := List.mem_cons.mp among
    · exact traversing.current_way current member inside
    · exact traversing.above way member l among inside
  · intro l under there
    obtain done | ⟨-,⟨j,listed,same⟩ | below⟩ := traversing.covered l under there
    · exact .inl (List.mem_cons_of_mem _ done)
    · rw [left_bump current] at listed
      obtain rfl | later := List.mem_cons.mp listed
      · exact .inl (same ▸ List.mem_cons_self)
      · exact .inr ⟨there,.inl ⟨j,later,same⟩⟩
    · exact .inr ⟨there,.inr below⟩

/-- The current entry is removed, being a file. -/
theorem Traversing.unlink {after : Site} (traversing : Traversing loc site found e dir ways)
    (current : e.directoryEntries[e.currentDirectoryEntry]? = some i) (file : i.isDir = false)
    (without : site.Without (i.filename :: dir) after) : Traversing loc after found e.bump dir ways := by
  obtain ⟨others,different⟩ := traversing.later current
  have kind := traversing.entries i (current_mem current)
  rw [file] at kind
  -- directories are still there
  have stays {l : List Bytes} (is_dir : site.dirs.kind l = some .dir) : l ≠ i.filename :: dir := by
    rintro rfl
    exact absurd (kind.symm.trans is_dir) (by decide)
  have keeps {l : List Bytes} (other : l ≠ i.filename :: dir) : after.dirs.kind l = site.dirs.kind l := by
    rw [without.kind,Function.update_of_ne other]
  have leads {way : Way} (leads : Leads site.dirs way) (is_dir : site.dirs.kind way.loc = some .dir) : Leads after.dirs way :=
    leads.keep without.cwd without.kind (ne_of_eq_of_ne is_dir (Option.some_ne_none _)) (stays is_dir)
  constructor
  · exact traversing.wanted
  · exact traversing.pending
  · intro way member
    obtain ⟨way_leads,is_dir,inside⟩ := traversing.leads way member
    exact ⟨leads way_leads is_dir,(keeps (stays is_dir)).trans is_dir,inside⟩
  · exact traversing.apart
  · intro j later
    rw [keeps]
    · exact traversing.entries j (bump_mem later)
    · exact fun same => others j later (List.cons.inj same).1
  · exact different
  · intro _
    obtain ⟨here,more⟩ := traversing.here (List.ne_nil_of_mem (current_mem current))
    exact ⟨leads here (site.dirs.parent _ _ (ne_of_eq_of_ne kind (Option.some_ne_none _))),more⟩
  · exact fun j later => traversing.entered j (bump_mem later)
  · exact fun j later => traversing.unfound j (bump_mem later)
  · exact traversing.above
  · intro l under there
    have other : l ≠ i.filename :: dir := by
      rintro rfl
      exact there (by rw [without.kind,Function.update_self])
    obtain done | ⟨-,⟨j,listed,same⟩ | below⟩ := traversing.covered l under (keeps other ▸ there)
    · exact .inl done
    · rw [left_bump current] at listed
      obtain rfl | later := List.mem_cons.mp listed
      · exact absurd same other
      · exact .inr ⟨there,.inl ⟨j,later,same⟩⟩
    · exact .inr ⟨there,.inr below⟩

end Current

/-- Only what is at `loc` or below it has gone. -/
structure Pruned (start : Site) (loc : List Bytes) (site : Site) : Prop where
  cwd : site.dirs.cwd = start.dirs.cwd
  kind : ∀ l, site.dirs.kind l = start.dirs.kind l ∨ site.dirs.kind l = none ∧ loc <:+ l

theorem Pruned.refl (site : Site) (loc : List Bytes) : Pruned site loc site := ⟨rfl,fun _ => .inl rfl⟩

theorem Pruned.without {start after : Site} {gone : List Bytes} (pruned : Pruned start loc site) (inside : loc <:+ gone)
    (without : site.Without gone after) : Pruned start loc after := by
  refine ⟨without.cwd.trans pruned.cwd,fun l => ?_⟩
  rw [without.kind]
  by_cases same : l = gone
  · subst same
    exact .inr ⟨Function.update_self _ _ _,inside⟩
  · rw [Function.update_of_ne same]
    exact pruned.kind l

theorem without_there {after : Site} {gone l : List Bytes} (without : site.Without gone after) (there : after.dirs.kind l ≠ none) :
    site.dirs.kind l ≠ none := by
  rw [without.kind] at there
  by_cases same : l = gone
  · rw [same,Function.update_self] at there
    exact absurd rfl there
  · rwa [Function.update_of_ne same] at there

theorem Pruned.there {start : Site} (pruned : Pruned start loc site) :
    {l | site.dirs.kind l ≠ none} ⊆ {l | start.dirs.kind l ≠ none} := by
  intro l there
  obtain same | ⟨missing,-⟩ := pruned.kind l
  · exact fun missing => there (same.trans missing)
  · exact absurd missing there

/-- The directories to be removed, none of them before those below it. -/
structure Stacked (loc : List Bytes) (site : Site) (stack : List Way) : Prop where
  reached : ∀ way ∈ stack, Leads site.dirs way ∧ site.dirs.kind way.loc = some .dir ∧ loc <:+ way.loc ∧
    ∃ name dir, way.loc = name :: dir ∧ lastPart way.path = some name
  order : stack.Pairwise fun a b => ¬a.loc <:+ b.loc

theorem Stacked.keep {after : Site} {gone : List Bytes} {stack : List Way} (stacked : Stacked loc site stack)
    (without : site.Without gone after) (other : ∀ way ∈ stack, way.loc ≠ gone) : Stacked loc after stack := by
  refine ⟨fun way member => ?_,stacked.order⟩
  obtain ⟨leads,is_dir,more⟩ := stacked.reached way member
  refine ⟨leads.keep without.cwd without.kind (ne_of_eq_of_ne is_dir (Option.some_ne_none _)) (other way member),?_,more⟩
  rw [without.kind,Function.update_of_ne (other way member),is_dir]

/-- When the enumeration is over only directories are left, all of them on the stack. -/
theorem deleteLoop_done {start : Site} {n fuel : Nat} {stack : List Way} (finite : {l | start.dirs.kind l ≠ none}.Finite)
    (pruned : Pruned start loc site) (stacked : Stacked loc site stack)
    (traversing : Traversing loc site (stack.map (·.loc)) e.bump dir ways)
    (enough : {l | start.dirs.kind l ≠ none}.ncard < fuel) (steps : (toShow site.dirs dir e.bump.left ways).ncard < n) :
    ∃ site' stack', deleteLoop fuel n site e (stack.map (·.path)) = some (true,site',stack'.map (·.path)) ∧
    Pruned start loc site' ∧ Stacked loc site' stack' ∧ ∀ l, loc <:+ l → site'.dirs.kind l ≠ none → l ∈ stack'.map (·.loc) := by
  induction n generalizing site e dir ways stack with
  | zero => exact absurd steps (Nat.not_lt_zero _)
  | succ n ih =>
    have finite_site := finite.subset pruned.there
    have enough_site : (toEnter site.dirs ways).ncard < fuel :=
      (Set.ncard_le_ncard (fun l inside => pruned.there inside.1) finite).trans_lt enough
    have fewer_steps {after : Set (List Bytes)} {dir' : List Bytes} {e' : FileEnumerator} {ways' : List Way}
        (less : after ⊂ toShow site.dirs dir' e'.left ways')
        (same : toShow site.dirs dir' e'.left ways' = toShow site.dirs dir e.bump.left ways) : after.ncard < n := by
      have := Set.ncard_lt_ncard less (finite_site.subset fun l inside => inside.1)
      rw [same] at this
      omega
    obtain ⟨path,e',called,⟨rfl,all⟩ | ⟨i,dir',ways',rfl,filled,current,kept,same⟩⟩ := traversing.next finite_site enough_site
    · refine ⟨site,stack,?_,pruned,stacked,all⟩
      rw [deleteLoop,called]
      rfl
    · obtain ⟨leads,last,kind,inside⟩ := kept.current_leads current
      have any : e'.directoryEntries[e'.currentDirectoryEntry]?.any (·.isDir) = i.isDir := by rw [current,Option.any_some]
      have step : deleteLoop fuel (n + 1) site e (stack.map (·.path)) =
          if i.isDir then deleteLoop fuel n site e' (append e'.rootPath i.filename :: stack.map (·.path))
          else match site.unlink (append e'.rootPath i.filename) with
            | some site => deleteLoop fuel n site e' (stack.map (·.path))
            | none => some (false,site,stack.map (·.path)) := by
        rw [deleteLoop,called,← any]
        exact if_neg filled
      rw [step]
      cases opens : i.isDir with
      | true =>
        have shown := kept.find current
        have less := kept.shown_less current fun l there => there
        rw [opens] at kind
        have first := current_mem current
        obtain ⟨way,member,here⟩ := kept.entered i first opens
        have order : ∀ b ∈ stack, ¬i.filename :: dir' <:+ b.loc := by
          intro b among under
          have listed : b.loc ∈ stack.map (·.loc) := List.mem_map.mpr ⟨b,among,rfl⟩
          rw [← here] at under
          rw [kept.above way member b.loc listed under,here] at listed
          exact kept.unfound i first listed
        have stacked : Stacked loc site (⟨append e'.rootPath i.filename,i.filename :: dir'⟩ :: stack) :=
          ⟨List.forall_mem_cons.mpr ⟨⟨leads,kind,inside,i.filename,dir',rfl,last⟩,stacked.reached⟩,
            List.pairwise_cons.mpr ⟨order,stacked.order⟩⟩
        exact ih pruned stacked shown (fewer_steps less same)
      | false =>
        rw [opens] at kind
        obtain ⟨after,unlinked,without⟩ := Site.unlink_file leads kind
        have less := kept.shown_less current fun l there => without_there without there
        rw [unlinked]
        refine ih (pruned.without inside without) (stacked.keep without ?_) (kept.unlink current opens without)
          (fewer_steps less same)
        intro way member same
        have is_dir := (stacked.reached way member).2.1
        rw [same] at is_dir
        exact absurd (kind.symm.trans is_dir) (by decide)

theorem removeLoop_done {start : Site} {stack : List Way} (away : ¬loc <:+ start.dirs.cwd) (pruned : Pruned start loc site)
    (stacked : Stacked loc site stack) (all : ∀ l, loc <:+ l → site.dirs.kind l ≠ none → l ∈ stack.map (·.loc)) :
    ∃ after, removeLoop (stack.map (·.path)) site = (true,after) ∧ Pruned start loc after ∧
    ∀ l, loc <:+ l → after.dirs.kind l = none := by
  induction stack generalizing site with
  | nil =>
    refine ⟨site,rfl,pruned,fun l under => ?_⟩
    by_contra there
    exact List.not_mem_nil (all l under there)
  | cons way stack ih =>
    obtain ⟨⟨leads,is_dir,inside,name,dir,cut,last⟩,others⟩ := List.forall_mem_cons.mp stacked.reached
    obtain ⟨first,order⟩ := List.pairwise_cons.mp stacked.order
    have empty (sub : Bytes) : site.dirs.kind (sub :: way.loc) = none := by
      by_contra there
      obtain same | later := List.mem_cons.mp (all _ (inside.trans (List.suffix_cons _ _)) there)
      · exact List.cons_ne_self _ _ same
      · obtain ⟨b,member,same⟩ := List.mem_map.mp later
        exact first b member (same ▸ List.suffix_cons _ _)
    have stands : site.dirs.cwd ≠ way.loc := by
      intro same
      rw [← same,pruned.cwd] at inside
      exact away inside
    obtain ⟨after,removed,without⟩ := Site.rmdir_empty leads cut last is_dir empty stands
    have kept : Stacked loc after stack := by
      refine Stacked.keep ⟨others,order⟩ without fun b member same => ?_
      exact first b member (same ▸ List.suffix_refl _)
    rw [List.map_cons,removeLoop,removed]
    apply ih (pruned.without inside without) kept
    intro l under there
    obtain rfl | later := List.mem_cons.mp (all l under (without_there without there))
    · rw [without.kind,Function.update_self] at there
      exact absurd rfl there
    · exact later

end Traversal

section Deleted
variable {site : Site} {path name : Bytes} {loc : List Bytes}

theorem lastPart_loc (noNul : 0 ∉ path) (resolved : site.dirs.resolve path = some loc) (named : lastPart path = some name)
    (plain : FileName name) : ∃ dir, loc = name :: dir := by
  rw [resolve_eq noNul (resolve_filled resolved),Directories.walkParts] at resolved
  obtain ⟨front,cut⟩ := List.getLast?_eq_some_iff.mp named
  have blank : (path.splitOn slash).rtakeWhile (· = []) = List.replicate ((path.splitOn slash).rtakeWhile (· = [])).length [] := by
    apply List.eq_replicate_of_mem
    intro part member
    simpa using List.mem_rtakeWhile_imp member
  rw [← List.rdropWhile_append_rtakeWhile (p := (· = [])) (l := path.splitOn slash),cut,blank,List.map_append,
    FileTree.walk_append] at resolved
  obtain ⟨last,walked,same⟩ := Option.bind_eq_some_iff.mp resolved
  obtain rfl := walk_blank same
  rw [List.map_append,FileTree.walk_append] at walked
  obtain ⟨dir,-,entered⟩ := Option.bind_eq_some_iff.mp walked
  rw [List.map_singleton,FileTree.walk_singleton,component_of_fileName plain] at entered
  exact ⟨dir,(FileTree.enter_eq_some entered).2.symm⟩

theorem Pruned.kind_eq {after : Site} (pruned : Pruned site loc after) (gone : ∀ l, loc <:+ l → after.dirs.kind l = none)
    (l : List Bytes) : after.dirs.kind l = if loc <:+ l then none else site.dirs.kind l := by
  split
  · rename_i under
    exact gone l under
  · rename_i outside
    obtain same | ⟨-,under⟩ := pruned.kind l
    · exact same
    · exact absurd under outside

theorem delete_directory {fuel : Nat} {dir : List Bytes} (leads : Leads site.dirs ⟨path,loc⟩) (is_dir : site.dirs.kind loc = some .dir)
    (cut : loc = name :: dir) (last : lastPart path = some name) (finite : {l | site.dirs.kind l ≠ none}.Finite)
    (away : ¬loc <:+ site.dirs.cwd) (enough : {l | site.dirs.kind l ≠ none}.ncard < fuel) :
    ∃ after, delete fuel site path true = some (true,after) ∧ Pruned site loc after ∧
    ∀ l, loc <:+ l → after.dirs.kind l = none := by
  have start : Traversing loc site [loc] (make path true fileTypes []).bump [] [⟨path,loc⟩] := by
    refine ⟨rfl,rfl,?_,List.pairwise_singleton _ _,?_,List.nodup_nil,?_,?_,?_,?_,?_⟩
    · exact List.forall_mem_singleton.mpr ⟨leads,is_dir,List.suffix_refl loc⟩
    · exact fun i member => absurd member List.not_mem_nil
    · exact fun some => absurd rfl some
    · exact fun i member => absurd member List.not_mem_nil
    · exact fun i member => absurd member List.not_mem_nil
    · intro way member l among _
      rw [List.mem_singleton.mp member,List.mem_singleton.mp among]
    · intro l under there
      by_cases here : l = loc
      · exact .inl (List.mem_singleton.mpr here)
      · exact .inr ⟨there,.inr ⟨_,List.mem_singleton_self _,under,here⟩⟩
  have stacked : Stacked loc site [⟨path,loc⟩] :=
    ⟨List.forall_mem_singleton.mpr ⟨leads,is_dir,List.suffix_refl loc,name,dir,cut,last⟩,List.pairwise_singleton _ _⟩
  have steps : (toShow site.dirs [] (make path true fileTypes []).bump.left [⟨path,loc⟩]).ncard < fuel :=
    (Set.ncard_le_ncard (fun l inside => inside.1) finite).trans_lt enough
  obtain ⟨between,stack,looped,pruned,kept,all⟩ := deleteLoop_done finite (.refl site loc) stacked start enough steps
  obtain ⟨after,removed,pruned,gone⟩ := removeLoop_done away pruned kept all
  refine ⟨after,?_,pruned,gone⟩
  have run : deleteLoop fuel fuel site (make path true fileTypes []) [path] = some (true,between,stack.map (·.path)) := looped
  rw [delete,Directories.stat,leads.resolved,Option.bind_some,is_dir]
  simp [run,removed]

/-- A directory `a` in the root, and a file `f` in it. -/
def oneDirectory : Site where
  dirs := {
    kind := fun loc => if loc = [] ∨ loc = [[97]] then some .dir else if loc = [[102],[97]] then some .file else none
    root := rfl
    parent := by
      intro name dir there
      by_cases below : name :: dir = [[97]] ∨ name :: dir = [[102],[97]]
      · obtain same | same := below <;> rw [(List.cons.inj same).2] <;> rfl
      · rw [not_or] at below
        simp [below.1,below.2] at there
    cwd := []
    cwd_dir := rfl
    named := by
      intro name dir there
      by_cases below : name :: dir = [[97]] ∨ name :: dir = [[102],[97]]
      · obtain same | same := below <;> rw [(List.cons.inj same).1] <;> decide
      · rw [not_or] at below
        simp [below.1,below.2] at there}
  listing := {
    entries := fun dir =>
      if dir = [] then [[dot],[dot,dot],[97]] else if dir = [[97]] then [[dot],[dot,dot],[102]] else [[dot],[dot,dot]]
    nodup := by
      intro dir
      split
      · decide
      · split <;> decide
    mem_entries := by
      intro dir name
      by_cases root : dir = []
      · subst root
        simp
      · by_cases inner : dir = [[97]]
        · subst inner
          simp
        · simp [root,inner]}

end Deleted

end WebSearch.FileUtil
