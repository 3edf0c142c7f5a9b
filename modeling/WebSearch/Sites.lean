import WebSearch.FilesInDir
import WebSearch.FileEnumerator
import Mathlib.Data.List.Pairwise

/-! What `base/file_util_posix.cc` makes of a tree of directories: how `unlink` and `rmdir`
change it, and what a `FileEnumerator` reads of it. -/
namespace WebSearch.FileUtil
open Library File FilePath

/-- A path and where it leads. -/
structure Way where
  path : Bytes
  loc : List Bytes

/-- A way down: without `..` it visits only what is above its end. -/
structure Leads (dirs : Directories) (way : Way) : Prop where
  noNul : 0 ∉ way.path
  down : [dot,dot] ∉ way.path.splitOn slash
  resolved : dirs.resolve way.path = some way.loc

/-- The last name in a path, as `rmdir` wants it. -/
def lastPart (path : Bytes) : Option Bytes := ((path.splitOn slash).rdropWhile (· = [])).getLast?

section Ways
variable {dirs after : Directories} {way : Way} {path name : Bytes} {loc : List Bytes}

theorem resolve_eq (noNul : 0 ∉ path) (filled : path ≠ []) : dirs.resolve path = dirs.walkParts path (path.splitOn slash) := by
  rw [Directories.resolve,cString_eq noNul]
  exact if_neg filled

theorem resolve_filled (resolved : dirs.resolve path = some loc) : path ≠ [] := by
  rintro rfl
  exact absurd resolved (Option.some_ne_none _).symm

theorem Leads.walked (leads : Leads dirs way) :
    dirs.walk (dirs.start way.path) ((way.path.splitOn slash).map component) = some way.loc := by
  have resolved := leads.resolved
  rwa [resolve_eq leads.noNul (resolve_filled resolved)] at resolved

theorem component_up {part : Bytes} (up : component part = .up) : part = [dot,dot] := by
  unfold component at up
  split at up
  · contradiction
  · split at up
    · assumption
    · contradiction

/-- Another place is not in the way when it is removed. -/
theorem Leads.keep {gone : List Bytes} (cwd : after.cwd = dirs.cwd) (kinds : after.kind = Function.update dirs.kind gone none)
    (there : dirs.kind way.loc ≠ none) (other : way.loc ≠ gone) (leads : Leads dirs way) : Leads after way := by
  obtain ⟨noNul,down,resolved⟩ := leads
  have filled := resolve_filled resolved
  have start : after.start way.path = dirs.start way.path := by rw [Directories.start,Directories.start,cwd]
  refine ⟨noNul,down,?_⟩
  have walked := Leads.walked ⟨noNul,down,resolved⟩
  rw [resolve_eq noNul filled,Directories.walkParts,start,← walked]
  apply FileTree.walk_congr
  intro part before
  have inside := FileTree.lands_suffix (dirs.start way.path) ?_ before
  · rw [FileTree.walk_lands walked] at inside
    have still : after.kind way.loc ≠ none := by rwa [kinds,Function.update_of_ne other]
    rw [kinds,Function.update_of_ne]
    rintro rfl
    obtain same | dir := FileTree.kind_above still inside
    · exact other same.symm
    · rw [kinds,Function.update_self] at dir
      contradiction
  · intro member
    obtain ⟨part,inside,up⟩ := List.mem_map.mp member
    exact down (component_up up ▸ inside)

theorem noNul_seps (noNul : 0 ∉ path) (k : Nat) : 0 ∉ path ++ seps k := by
  intro member
  obtain here | member := List.mem_append.mp member
  · exact noNul here
  · exact absurd (List.eq_of_mem_replicate member) (by decide)

theorem splitOn_seps (path : Bytes) (k : Nat) : (path ++ seps k).splitOn slash = path.splitOn slash ++ List.replicate k [] := by
  induction k with
  | zero => rw [seps,List.replicate_zero,List.append_nil,List.replicate_zero,List.append_nil]
  | succ k ih =>
    rw [seps,List.replicate_succ',← List.append_assoc,List.replicate_succ',← List.append_assoc,← ih]
    exact List.splitOn_append_cons_self (path ++ seps k) []

theorem walk_blank {tree : FileTree Bytes} {k : Nat} {last : List Bytes}
    (walked : tree.walk loc ((List.replicate k []).map component) = some last) : loc = last := by
  have lands : FileTree.lands loc (List.replicate k .here) = last := by
    rw [List.map_replicate] at walked
    exact FileTree.walk_lands walked
  rw [← lands]
  clear walked lands
  induction k with
  | zero => rfl
  | succ k ih => exact ih

theorem resolve_seps (noNul : 0 ∉ path) (filled : path ≠ []) (k : Nat) (resolved : dirs.resolve (path ++ seps k) = some loc) :
    dirs.resolve path = some loc := by
  rw [resolve_eq (noNul_seps noNul k) (List.append_ne_nil_of_left_ne_nil filled _),splitOn_seps,Directories.walkParts,
    List.map_append,FileTree.walk_append] at resolved
  obtain ⟨dir,before,last⟩ := Option.bind_eq_some_iff.mp resolved
  rw [resolve_eq noNul filled,Directories.walkParts,Directories.start_eq filled (List.prefix_append _ (seps k)),before]
  exact congrArg some (walk_blank last)

theorem resolve_root (n : Nat) : dirs.resolve (seps (n + 1)) = some [] := by
  have stays (k : Nat) : dirs.walk [] (List.replicate k (component [])) = some [] := by
    induction k with
    | zero => rfl
    | succ k ih =>
      rw [List.replicate_succ,FileTree.walk,List.foldlM_cons,FileTree.enter_of_some dirs.root]
      · exact ih
      · exact ne_of_eq_of_ne dirs.root (Option.some_ne_none _)
  have split : (seps (n + 1)).splitOn slash = List.replicate (n + 2) [] := splitOn_seps [] (n + 1)
  have noNul : 0 ∉ seps (n + 1) := noNul_seps List.not_mem_nil (n + 1)
  rw [resolve_eq noNul (by simp),split,Directories.walkParts,List.map_replicate]
  exact stays (n + 2)

/-- Without the slashes at its end the path of a directory leads to the same place. -/
theorem Leads.strip (leads : Leads dirs way) : Leads dirs ⟨stripTrailingSeparators way.path,way.loc⟩ ∧
    stripTrailingSeparators (stripTrailingSeparators way.path) = stripTrailingSeparators way.path ∧
    Fine (stripTrailingSeparators way.path) := by
  obtain ⟨path,loc⟩ := way
  obtain ⟨noNul,down,resolved⟩ := leads
  dsimp only at noNul down resolved ⊢
  have filled := resolve_filled resolved
  have named {front : Bytes} (ends : Ends front) (k : Nat) (same : path = front ++ seps k) :
      Leads dirs ⟨stripTrailingSeparators path,loc⟩ ∧
      stripTrailingSeparators (stripTrailingSeparators path) = stripTrailingSeparators path := by
    subst same
    have again : stripTrailingSeparators front = front := by simpa using strip_ends ends 0
    have noNul : 0 ∉ front := fun member => noNul (List.mem_append_left _ member)
    rw [splitOn_seps] at down
    rw [strip_ends ends]
    exact ⟨⟨noNul,fun up => down (List.mem_append_left _ up),resolve_seps noNul ends.ne_nil k resolved⟩,again⟩
  have stripped : Leads dirs ⟨stripTrailingSeparators path,loc⟩ ∧
      stripTrailingSeparators (stripTrailingSeparators path) = stripTrailingSeparators path := by
    obtain n | ⟨n,is_name,k⟩ | ⟨ends,n,is_name,k⟩ := shape path
    · obtain _ | n := n
      · exact absurd rfl filled
      · obtain rfl := Option.some.inj ((resolve_root n).symm.trans resolved)
        rw [strip_seps]
        obtain one | two := (roots (Nat.succ_ne_zero n)).1
        · rw [one]
          exact ⟨⟨by decide,by decide,resolve_root 0⟩,by decide⟩
        · rw [two]
          exact ⟨⟨by decide,by decide,resolve_root 1⟩,by decide⟩
    · exact named (is_name.ends _) k rfl
    · exact named (is_name.ends _) k rfl
  refine ⟨stripped.1,stripped.2,?_⟩
  obtain empty | fine := fine_strip path
  · exact absurd empty (resolve_filled stripped.1.resolved)
  · exact fine

theorem append_eq (filled : path ≠ []) (stripped : stripTrailingSeparators path = path) (is_name : Name name) :
    append path name = if path = kCurrentDirectory then name else pathIn path name := by
  split
  · rename_i here
    exact if_pos here
  · rename_i other
    obtain ⟨front,c,rfl⟩ := List.eq_nil_or_concat' path |>.resolve_left filled
    have at_end : separatorAt (front ++ [c]) ((front ++ [c]).length - 1) = isSeparator c := by
      rw [List.length_append,List.length_singleton,Nat.add_sub_cancel]
      exact separatorAt_last front c []
    rw [append_name other is_name,stripped,at_end,pathIn,List.getLast?_concat,isSeparator]
    by_cases ends : c = 47 <;> simp [ends,slash,kSeparator]

theorem name_of_fileName (plain : FileName name) : Name name := by
  refine ⟨plain.1,fun c member => decide_eq_false ?_⟩
  rintro rfl
  exact plain.2.2.2.1 member

/-- From the path of a directory to that of what is in it. -/
theorem Leads.append {dir : List Bytes} (leads : Leads dirs ⟨path,dir⟩) (is_dir : dirs.kind dir = some .dir)
    (there : dirs.kind (name :: dir) ≠ none) :
    Leads dirs ⟨append (stripTrailingSeparators path) name,name :: dir⟩ ∧
    lastPart (append (stripTrailingSeparators path) name) = some name := by
  have plain := dirs.named name dir there
  obtain ⟨⟨noNul,down,resolved⟩,again,-⟩ := leads.strip
  dsimp only at noNul down resolved again ⊢
  have filled := resolve_filled resolved
  have single : name.splitOn slash = [name] := List.splitOn_eq_singleton plain.2.2.2.1
  have entered : dirs.enter dir (component name) = some (name :: dir) := by
    rw [component_of_fileName plain]
    exact FileTree.enter_of_some is_dir there
  have last (parts : List Bytes) : ((parts ++ [name]).rdropWhile (· = [])).getLast? = some name := by
    rw [List.rdropWhile_concat_neg _ _ _ (by simpa using plain.1),List.getLast?_concat]
  rw [append_eq filled again (name_of_fileName plain)]
  generalize stripTrailingSeparators path = path at *
  split
  · rename_i here
    subst here
    have start : dirs.start name = dirs.start kCurrentDirectory := by
      obtain ⟨c,rest,rfl⟩ := List.exists_cons_of_ne_nil plain.1
      have other : c ≠ slash := fun same => plain.2.2.2.1 (same ▸ List.mem_cons_self)
      rw [Directories.start,if_neg (by simpa using other)]
      rfl
    have stands : dirs.start kCurrentDirectory = dir := by
      rw [resolve_eq noNul filled] at resolved
      exact walk_blank (k := 1) resolved
    refine ⟨⟨plain.2.2.2.2,?_,?_⟩,?_⟩
    · rw [single,List.mem_singleton]
      exact plain.2.2.1.symm
    · rw [resolve_eq plain.2.2.2.2 plain.1,single,Directories.walkParts,start,stands,List.map_singleton,FileTree.walk_singleton]
      exact entered
    · rw [lastPart,single]
      exact last []
  · have opened : opendir dirs path = some dir := by
      rw [opendir,resolved]
      simp [is_dir]
    obtain ⟨front,cut,same⟩ := pathIn_eq path name
    have parts : (pathIn path name).splitOn slash = front.splitOn slash ++ [name] := by
      rw [cut,List.splitOn_append_cons_self,single]
    have above : front.splitOn slash ⊆ path.splitOn slash := by
      obtain rfl | rfl := same
      · exact List.Subset.refl _
      · rw [List.splitOn_append_cons_self]
        exact List.subset_append_left _ _
    refine ⟨⟨?_,?_,?_⟩,?_⟩
    · rw [pathIn]
      have := plain.2.2.2.2
      split <;> simp [noNul,this,slash]
    · rw [parts]
      intro up
      obtain up | up := List.mem_append.mp up
      · exact down (above up)
      · exact plain.2.2.1 (List.mem_singleton.mp up).symm
    · rw [resolve_pathIn noNul opened plain.2.2.2.1 plain.2.2.2.2]
      exact entered
    · rw [lastPart,parts]
      exact last _

end Ways

structure Site where
  dirs : Directories
  listing : Listing dirs

namespace Site

/-- A directory keeps the order of the entries that stay. -/
def remove (site : Site) (dir : List Bytes) (name : Bytes) (there : site.dirs.kind (name :: dir) ≠ none)
    (leaf : ∀ sub, site.dirs.kind (sub :: name :: dir) = none) (away : site.dirs.cwd ≠ name :: dir) : Site where
  dirs := {
    toFileTree := site.dirs.remove dir name leaf
    cwd := site.dirs.cwd
    cwd_dir := (Function.update_of_ne away _ _).trans site.dirs.cwd_dir
    named := by
      intro other loc some
      apply site.dirs.named other loc
      intro missing
      by_cases same : other :: loc = name :: dir
      · exact there (same ▸ missing)
      · exact some ((Function.update_of_ne same _ _).trans missing)}
  listing := {
    entries := fun loc => if loc = dir then (site.listing.entries loc).erase name else site.listing.entries loc
    nodup := by
      intro loc
      split
      · exact (site.listing.nodup loc).erase name
      · exact site.listing.nodup loc
    mem_entries := by
      intro loc other
      have before := site.listing.mem_entries loc other
      have plain := site.dirs.named name dir there
      change _ ↔ _ ∨ _ ∨ Function.update site.dirs.kind (name :: dir) none (other :: loc) ≠ none
      by_cases same : other :: loc = name :: dir
      · obtain ⟨rfl,rfl⟩ := List.cons.inj same
        rw [if_pos rfl,(site.listing.nodup loc).mem_erase_iff,Function.update_self]
        simp [plain.2.1,plain.2.2.1]
      · rw [Function.update_of_ne same,← before]
        split
        · rename_i here
          subst here
          rw [(site.listing.nodup loc).mem_erase_iff]
          exact and_iff_right fun is_name => same (is_name ▸ rfl)
        · rfl}

/-- `unlink`: only of files. -/
def unlink (site : Site) (path : Bytes) : Option Site :=
  match site.dirs.resolve path with
  | some (name :: dir) =>
    if file : site.dirs.kind (name :: dir) = some .file then
      some (site.remove dir name (ne_of_eq_of_ne file (Option.some_ne_none _)) (fun sub => by
        by_contra there
        exact absurd ((site.dirs.parent sub _ there).symm.trans file) (by decide)) (by
        intro here
        exact absurd (site.dirs.cwd_dir.symm.trans (here ▸ file)) (by decide)))
    else none
  | _ => none

/-- `rmdir` skips slashes at the end. It does not go by way of the two names that every directory
has, and what it removes is empty. That the working directory could go too is left out. -/
def rmdir (site : Site) (path : Bytes) : Option Site :=
  match site.dirs.resolve path with
  | some (name :: dir) =>
    if empty : lastPart (cString path) = some name ∧ site.dirs.kind (name :: dir) = some .dir ∧
        (site.listing.entries (name :: dir)).all (fun sub => sub = [dot] ∨ sub = [dot,dot]) ∧ site.dirs.cwd ≠ name :: dir then
      some (site.remove dir name (ne_of_eq_of_ne empty.2.1 (Option.some_ne_none _)) (fun sub => by
        by_contra there
        have plain := site.dirs.named sub _ there
        have listed := List.all_eq_true.mp empty.2.2.1 sub ((site.listing.mem_entries _ sub).mpr (.inr (.inr there)))
        obtain here | above := of_decide_eq_true listed
        · exact plain.2.1 here
        · exact plain.2.2.1 above) empty.2.2.2)
    else none
  | _ => none

/-- What `ReadDirectory` finds, with `stat` or `lstat` of each path. No pattern is ever given. -/
def disk (site : Site) : Disk where
  readDirectory dir _ := (opendir site.dirs dir).map fun dp =>
    (site.listing.entries dp).map fun name => ⟨name,File.isDir site.dirs (append dir name)⟩
  fnmatch _ _ := true
  unnamed _ := rfl
  named dir _ entries read := by
    obtain ⟨dp,-,rfl⟩ := Option.map_eq_some_iff.mp read
    intro i member
    obtain ⟨name,listed,rfl⟩ := List.mem_map.mp member
    obtain rfl | rfl | there := (site.listing.mem_entries dp name).mp listed
    · exact (show Name [dot] by decide)
    · exact (show Name [dot,dot] by decide)
    · exact name_of_fileName (site.dirs.named name dp there)
  nodup dir _ entries read := by
    obtain ⟨dp,-,rfl⟩ := Option.map_eq_some_iff.mp read
    rw [List.map_map]
    exact (List.map_id _).symm ▸ site.listing.nodup dp

/-- Nothing else has changed. -/
structure Without (site : Site) (gone : List Bytes) (after : Site) : Prop where
  cwd : after.dirs.cwd = site.dirs.cwd
  kind : after.dirs.kind = Function.update site.dirs.kind gone none

variable {site : Site} {way : Way}

theorem unlink_file (leads : Leads site.dirs way) (file : site.dirs.kind way.loc = some .file) :
    ∃ after, site.unlink way.path = some after ∧ site.Without way.loc after := by
  obtain ⟨path,loc⟩ := way
  cases loc with
  | nil => exact absurd (site.dirs.root.symm.trans file) (by decide)
  | cons name dir =>
    rw [unlink,leads.resolved]
    exact ⟨_,dif_pos file,rfl,rfl⟩

theorem rmdir_empty {name : Bytes} {dir : List Bytes} (leads : Leads site.dirs way) (loc : way.loc = name :: dir)
    (last : lastPart way.path = some name) (is_dir : site.dirs.kind way.loc = some .dir)
    (empty : ∀ sub, site.dirs.kind (sub :: way.loc) = none) (away : site.dirs.cwd ≠ way.loc) :
    ∃ after, site.rmdir way.path = some after ∧ site.Without way.loc after := by
  rw [loc] at is_dir empty away ⊢
  have all : (site.listing.entries (name :: dir)).all (fun sub => sub = [dot] ∨ sub = [dot,dot]) = true := by
    rw [List.all_eq_true]
    intro sub member
    rw [decide_eq_true_eq]
    obtain here | above | there := (site.listing.mem_entries (name :: dir) sub).mp member
    · exact .inl here
    · exact .inr above
    · exact absurd (empty sub) there
  rw [rmdir,leads.resolved,loc]
  refine ⟨_,dif_pos ⟨?_,is_dir,all,away⟩,rfl,rfl⟩
  rw [cString_eq leads.noNul,last]

end Site

end WebSearch.FileUtil
