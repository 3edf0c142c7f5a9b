import WebSearch.OpenedFiles
import WebSearch.Library.Loop

/-! When `_get_opened_files` gives the changed files of all targets. -/
namespace WebSearch.BladeMain
open Library Library.PosixPath

/-- What the caller finds: `pwd`, and above it the directory with `BLADE_ROOT`, which is not
the root of the file system: there `find_blade_root_dir` ends with a message. -/
structure Workspace where
  bladeRoot : Place
  below : Place
  some : bladeRoot ≠ []
  plain : ∀ comp ∈ bladeRoot ++ below, Plain comp

namespace Workspace

def bladeRootDir (space : Workspace) : String := textOf space.bladeRoot
def workingDir (space : Workspace) : String := textOf (space.bladeRoot ++ space.below)

end Workspace

/-! The files that are asked for. -/

/-- What is in front of the name, or in front of the dots. -/
def dirOf (target : String) : String :=
  if target.toList.contains ':' then (LoadBuildFiles.splitTarget target).1 else withoutDots target

def git : List Char := ['.','g','i','t']
def svn : List Char := ['.','s','v','n']

/-- The line tells of this changed source file. -/
def Line.Tells (root : Place) (line : Line) (file : String) : Prop :=
  ∃ path ∈ line.changed, isSource path = true ∧ file = join (textOf root) (String.ofList path)

/-- The changed source files of a directory, for the root of its client. -/
def FileAt (report : Place → List Line) (place : Place × Place) (file : String) : Prop :=
  ∃ line ∈ report place.2, line.Tells place.1 file

/-! The lines that are understood. -/

/-- Without the blanks around it the text is `M` or `A`, and behind a space, at its end,
this word. -/
def Shows (text path : List Char) : Prop :=
  ' ' ∉ path ∧ ∃ mark ∈ ['M','A'], strip text = mark :: ' ' :: path ∨ ∃ between, strip text = mark :: ' ' :: between ++ ' ' :: path

def Line.Reads (root : Place) (line : Line) (file : String) : Prop :=
  ∃ path, Shows line.text path ∧ isSource path = true ∧ file = join (textOf root) (String.ofList path)

/-- What the line shows is what it tells of. -/
def Line.Legible (root : Place) (line : Line) : Prop := ∀ file, line.Reads root file ↔ line.Tells root file

/-- What is read in a directory. -/
def ReadAt (report : Place → List Line) (place : Place × Place) (file : String) : Prop :=
  ∃ line ∈ report place.2, line.Reads place.1 file

section Spec
variable (there : Place → Bool) (space : Workspace)

/-- The first directory with a repository on the way to a place, from some depth on. -/
def clientFrom (depth : Nat) (dir : Place) : Option Place :=
  (List.range' depth (max 1 dir.length + 1 - depth)).findSome? fun k => if there (dir.take k ++ [git]) then some (dir.take k) else none

def targetDir (target : String) : Place := placeOf (join space.workingDir (dirOf target))

/-- The root of the client that has a directory, and the directory. -/
def located (dir : Place) : Option (Place × Place) :=
  if there (space.bladeRoot ++ [svn]) || there (space.bladeRoot ++ [git]) then some (space.bladeRoot,dir)
  else (clientFrom there space.bladeRoot.length dir).map fun root => (root,dir)

/-- The files are those of every target. -/
def Opens (report : Place → List Line) (targets : List String) : Prop :=
  ∃ opened, getOpenedFiles there report space.bladeRootDir targets space.bladeRootDir space.workingDir = some opened ∧
    ∀ file, file ∈ opened ↔ ∃ target ∈ targets, ∃ place ∈ located there space (targetDir space target), FileAt report place file

/-! The directories that are looked at. -/

/-- What follows the first colon is looked at as a directory. -/
def spelled (target : String) : String := dirname (normalizeTargetPath target)

/-- Subversion is given what follows the blade root and a slash. -/
def askedSvn (target : String) : Place :=
  let full := join space.workingDir (spelled target)
  if initialSlashes full.toList = 1 ∧ space.bladeRoot <+: placeOf full then placeOf full
  else placeOf (join space.bladeRootDir (String.ofList ((normpath full).toList.drop (space.bladeRootDir.toList.length + 1))))

/-- A repository in the blade root is asked from there. Another one is searched for from the
working directory, where two slashes in front count as one directory more. -/
def asked (target : String) : Option (Place × Place) :=
  if there (space.bladeRoot ++ [svn]) then some (space.bladeRoot,askedSvn space target)
  else if there (space.bladeRoot ++ [git]) then
    some (space.bladeRoot,placeOf (join space.bladeRootDir (normalizeTargetPath target)))
  else
    let full := join space.workingDir (normalizeTargetPath target)
    (clientFrom there (space.bladeRoot.length + 1 - initialSlashes full.toList) (placeOf full)).map fun root => (root,placeOf full)

/-- No directory is spelled twice, and those that are looked at are those of the targets. -/
structure Covered (targets : List String) : Prop where
  distinct : (targets.map spelled).Nodup
  meant : ∀ target ∈ targets, ∀ place ∈ asked there space target, ∃ other ∈ targets, place ∈ located there space (targetDir space other)
  looked : ∀ target ∈ targets, ∀ place ∈ located there space (targetDir space target), ∃ other ∈ targets, place ∈ asked there space other

end Spec

/-! What is read in a line. -/

section Lines

theorem splitOn_last (front : List Char) {path : List Char} (word : ' ' ∉ path) :
    (front ++ ' ' :: path).splitOn ' ' = front.splitOn ' ' ++ [path] := by
  rw [List.splitOn_append_cons_self,List.splitOn_eq_singleton word]

/-- The first word of a text is the whole, or a space follows it. -/
theorem head?_splitOn {text word : List Char} (plain : ' ' ∉ word) :
    (text.splitOn ' ').head? = some word ↔ text = word ∨ ∃ rest, text = word ++ ' ' :: rest := by
  apply Iff.intro
  · intro first
    by_cases space : ' ' ∈ text
    · obtain ⟨front,rest,rfl,before⟩ := List.eq_append_cons_of_mem space
      rw [List.splitOn_append_cons_self,List.splitOn_eq_singleton before] at first
      exact .inr ⟨rest,Option.some.inj first ▸ rfl⟩
    · rw [List.splitOn_eq_singleton space] at first
      exact .inl (Option.some.inj first)
  · rintro (rfl | ⟨rest,rfl⟩)
    · rw [List.splitOn_eq_singleton plain]
      rfl
    · rw [List.splitOn_append_cons_self,List.splitOn_eq_singleton plain]
      rfl

/-- The first word is a mark. -/
def Marked (text : List Char) : Prop := (text.splitOn ' ').head? = some ['M'] ∨ (text.splitOn ' ').head? = some ['A']

theorem marked_iff {front : List Char} :
    Marked front ↔ ∃ mark ∈ ['M','A'], front = [mark] ∨ ∃ between, front = mark :: ' ' :: between := by
  simp [Marked,head?_splitOn]

theorem shows_iff {text path : List Char} :
    Shows text path ↔ ' ' ∉ path ∧ ∃ front, strip text = front ++ ' ' :: path ∧ Marked front := by
  simp only [Shows,marked_iff]
  apply and_congr_right
  intro word
  apply Iff.intro
  · rintro ⟨mark,member,text | ⟨between,text⟩⟩
    · exact ⟨[mark],text,mark,member,.inl rfl⟩
    · exact ⟨mark :: ' ' :: between,text,mark,member,.inr ⟨between,rfl⟩⟩
  · rintro ⟨front,text,mark,member,rfl | ⟨between,rfl⟩⟩
    · exact ⟨mark,member,.inl text⟩
    · exact ⟨mark,member,.inr ⟨between,text⟩⟩

theorem openedFile_split {text front path : List Char} (word : ' ' ∉ path) (split : strip text = front ++ ' ' :: path) (name : String) :
    openedFile text = some name ↔ Marked front ∧ isSource path = true ∧ name = String.ofList path := by
  have first : (front.splitOn ' ' ++ [path]).head? = (front.splitOn ' ').head? := List.head?_append_of_ne_nil _ (List.splitOn_ne_nil _ _)
  rw [openedFile,split,splitOn_last front word,first,List.getLast?_concat,Marked]
  dsimp only [Option.getD_some]
  split
  next unmarked => simp [unmarked]
  next marked =>
    have mark : (front.splitOn ' ').head? = some ['M'] ∨ (front.splitOn ' ').head? = some ['A'] := by tauto
    split
    next source => simp [mark,source,eq_comm]
    next other => simp [other]

theorem openedFile_some {text : List Char} {name : String} :
    openedFile text = some name ↔ ∃ path, Shows text path ∧ isSource path = true ∧ name = String.ofList path := by
  apply Iff.intro
  · intro opened
    by_cases space : ' ' ∈ strip text
    · obtain ⟨path,back,split,word⟩ := List.eq_append_cons_of_mem (List.mem_reverse.mpr space)
      have forward : strip text = back.reverse ++ ' ' :: path.reverse := by
        have text := congrArg List.reverse split
        rwa [List.reverse_reverse,List.reverse_append,List.reverse_cons,List.append_assoc,List.singleton_append] at text
      have word' : ' ' ∉ path.reverse := fun member => word (List.mem_reverse.mp member)
      obtain ⟨marked,source,same⟩ := (openedFile_split word' forward name).mp opened
      exact ⟨path.reverse,shows_iff.mpr ⟨word',back.reverse,forward,marked⟩,source,same⟩
    · -- A single word that is a mark is no source file.
      by_cases mark : strip text = ['M'] ∨ strip text = ['A']
      · have none : isSource (strip text) = false := by
          rcases mark with same | same <;> rw [same] <;> decide
        simp [openedFile,List.splitOn_eq_singleton space,none] at opened
      · obtain ⟨noM,noA⟩ := not_or.mp mark
        simp [openedFile,List.splitOn_eq_singleton space,noM,noA] at opened
  · rintro ⟨path,shown,source,same⟩
    obtain ⟨word,front,split,marked⟩ := shows_iff.mp shown
    exact (openedFile_split word split name).mpr ⟨marked,source,same⟩

theorem splitOn_output (lines : List Line) : (output lines).splitOn '\n' = lines.map Line.text ++ [[]] := by
  induction lines with
  | nil => rfl
  | cons line lines ih =>
    rw [output,List.flatMap_cons,List.append_assoc]
    change (line.text ++ '\n' :: output lines).splitOn '\n' = _
    rw [List.splitOn_append_cons_self,List.splitOn_eq_singleton line.single,ih]
    rfl

theorem files_output (lines : List Line) :
    ((output lines).splitOn '\n').filterMap openedFile = lines.filterMap fun line => openedFile line.text := by
  have last : [[]].filterMap openedFile = [] := rfl
  rw [splitOn_output,List.filterMap_append,last,List.append_nil,List.filterMap_map]
  rfl

theorem reads_iff (root : Place) (line : Line) (file : String) :
    line.Reads root file ↔ ∃ name, openedFile line.text = some name ∧ file = join (textOf root) name := by
  simp only [openedFile_some,Line.Reads]
  grind

/-- A line whose file is read as it is told. -/
theorem legible_of_opened (root : Place) {line : Line}
    (same : openedFile line.text = (line.changed.filter isSource).map String.ofList) : line.Legible root := by
  intro file
  rw [reads_iff,same,Line.Tells]
  simp only [Option.map_eq_some_iff,Option.filter_eq_some_iff,Option.mem_def]
  grind

end Lines

/-! Places and their texts. -/

section Places

theorem isabs_textOf (place : Place) : isabs (textOf place) = true :=
  isabs_iff.mpr ⟨['/'].intercalate place,String.toList_ofList⟩

theorem placeOf_textOf {place : Place} (plain : ∀ comp ∈ place, Plain comp) : placeOf (textOf place) = place := by
  rw [placeOf,textOf,String.toList_ofList,normComps_rootedText 1 plain]

theorem normpath_textOf {place : Place} (plain : ∀ comp ∈ place, Plain comp) : normpath (textOf place) = textOf place := by
  have slashes : initialSlashes (textOf place).toList = 1 := by
    rw [textOf,String.toList_ofList]
    exact initialSlashes_replicate (.inl rfl) (head?_intercalate fun comp member => (plain comp member).named)
  have text := @normpath_rooted (textOf place) (by rw [slashes]; decide)
  rw [slashes] at text
  change _ = rootedText 1 (placeOf (textOf place)) at text
  rw [placeOf_textOf plain] at text
  apply String.toList_inj.mp
  rw [text,textOf,String.toList_ofList]

theorem placeOf_join_name (dir : String) {name : String} (plain : Plain name.toList) :
    placeOf (join dir name) = placeOf dir ++ [name.toList] := by
  have relative : isabs name = false := by
    rw [← Bool.not_eq_true,isabs_iff]
    rintro ⟨rest,text⟩
    exact plain.2.2.2 (text ▸ List.mem_cons_self)
  rw [placeOf,normComps_join dir relative,List.splitOn_eq_singleton plain.2.2.2,List.foldl_cons,List.foldl_nil,
    normStep_plain true _ plain,placeOf]

theorem placeOf_join_textOf (dir path : String) : placeOf (join (textOf (placeOf dir)) path) = placeOf (join dir path) := by
  cases relative : isabs path with
  | true => rw [join,join,if_pos relative,if_pos relative]
  | false =>
    have same : placeOf (textOf (placeOf dir)) = placeOf dir := placeOf_textOf (normComps_rooted _)
    unfold placeOf at same ⊢
    rw [normComps_join _ relative,normComps_join _ relative,same]

theorem pathExists_name (there : Place → Bool) (dir : String) {name : String} (plain : Plain name.toList) :
    pathExists there (join dir name) = there (placeOf dir ++ [name.toList]) := by rw [pathExists,placeOf_join_name dir plain]

theorem isabs_normpath {full : String} (absolute : isabs full = true) : isabs (normpath full) = true := by
  rw [isabs_iff]
  rcases initialSlashes_absolute absolute with one | two
  · rw [normpath_rooted (by rw [one]; decide),one]
    exact ⟨_,rfl⟩
  · rw [normpath_rooted (by rw [two]; decide),two]
    exact ⟨_,rfl⟩

/-- A place and how it is split at its slashes. -/
theorem splitOn_normpath {full : String} (absolute : isabs full = true) : (normpath full).toList.splitOn '/' =
    List.replicate (initialSlashes full.toList) [] ++ if placeOf full = [] then [[]] else placeOf full := by
  have some : initialSlashes full.toList ≠ 0 := by
    rcases initialSlashes_absolute absolute with one | two <;> omega
  rw [normpath_rooted some,splitOn_rootedText _ (normComps_rooted _),placeOf]

end Places

/-! The search for a repository. -/

section Search

/-- The parts behind the first slashes; the root has an empty one. -/
def parts (comps : Place) : Place := if comps = [] then [[]] else comps

theorem no_slash {part : List Char} (each : part = [] ∨ Plain part) : '/' ∉ part := by
  rcases each with rfl | plain
  · exact List.not_mem_nil
  · exact plain.2.2.2

variable {comps : Place} (plain : ∀ comp ∈ comps, Plain comp)
include plain

theorem mem_parts : ∀ part ∈ parts comps, part = [] ∨ Plain part := by
  intro part member
  rw [parts] at member
  split at member
  · exact .inl (List.mem_singleton.mp member)
  · exact .inr (plain part member)

theorem filter_parts_take (k : Nat) : ((parts comps).take k).filter (fun part => part ≠ []) = comps.take k := by
  rw [parts]
  split
  next none => cases k <;> simp [none]
  next =>
    apply List.filter_eq_self.mpr
    intro part member
    exact decide_eq_true (plain part (List.mem_of_mem_take member)).1

theorem filter_parts_drop (k : Nat) : ((parts comps).drop k).filter (fun part => part ≠ []) = comps.drop k := by
  rw [parts]
  split
  next none => cases k <;> simp [none]
  next =>
    apply List.filter_eq_self.mpr
    intro part member
    exact decide_eq_true (plain part (List.mem_of_mem_drop member)).1

theorem parts_take (slashes k : Nat) :
    placeOf (String.ofList (['/'].intercalate ((List.replicate slashes [] ++ parts comps).take (slashes + k)))) = comps.take k := by
  have front : (List.replicate slashes [] ++ parts comps).take (slashes + k) = List.replicate slashes [] ++ (parts comps).take k := by
    have taken := @List.take_length_add_append _ (List.replicate slashes []) (parts comps) k
    rwa [List.length_replicate] at taken
  have each : ∀ part ∈ List.replicate slashes [] ++ (parts comps).take k, part = [] ∨ Plain part := by
    refine List.forall_mem_append.mpr ⟨fun part member => .inl (List.eq_of_mem_replicate member),fun part member => ?_⟩
    exact mem_parts plain part (List.mem_of_mem_take member)
  rw [placeOf,String.toList_ofList,normComps,front,foldl_normStep_intercalate true [] fun part member => no_slash (each part member),
    foldl_normStep_filter true [] each,List.filter_append,filter_parts_take plain]
  simp

theorem parts_drop (slashes k : Nat) {dir : String} (above : placeOf dir = comps.take k) :
    placeOf (join dir (String.ofList (['/'].intercalate ((List.replicate slashes [] ++ parts comps).drop (slashes + k))))) = comps := by
  have behind : (List.replicate slashes [] ++ parts comps).drop (slashes + k) = (parts comps).drop k := by
    have dropped := @List.drop_length_add_append _ (List.replicate slashes []) (parts comps) k
    rwa [List.length_replicate] at dropped
  have each : ∀ part ∈ (parts comps).drop k, part = [] ∨ Plain part :=
    fun part member => mem_parts plain part (List.mem_of_mem_drop member)
  have relative : isabs (String.ofList (['/'].intercalate ((parts comps).drop k))) = false := by
    rw [← Bool.not_eq_true,isabs_iff,String.toList_ofList]
    rintro ⟨rest,text⟩
    have first := congrArg List.head? text
    by_cases root : comps = []
    · rw [root] at first
      cases k <;> simp [parts,List.intercalate] at first
    · refine head?_intercalate (fun comp member => ?_) first
      rw [parts,if_neg root] at member
      exact (plain comp (List.mem_of_mem_drop member)).named
  rw [behind]
  unfold placeOf at above ⊢
  rw [normComps_join dir relative,above,String.toList_ofList,
    foldl_normStep_intercalate true _ fun part member => no_slash (each part member),foldl_normStep_filter true _ each,
    filter_parts_drop plain,List.take_append_drop]

end Search

section Client
variable (there : Place → Bool) (space : Workspace)

theorem normalizeTargetPath_ends (target : String) :
    normalizeTargetPath target = "" ∨ (normalizeTargetPath target).toList.getLast? = some '/' := by
  unfold normalizeTargetPath
  dsimp only
  generalize (if (withoutDots target).toList.dropWhile (· ≠ ':') = [] then withoutDots target
    else String.ofList ((withoutDots target).toList.dropWhile (· ≠ ':')).tail) = path
  split
  next => exact .inr (by rw [String.toList_append]; exact List.getLast?_concat ..)
  next ends =>
    by_contra open_end
    exact ends (not_or.mp open_end)

theorem withoutDots_normalizeTargetPath (target : String) : withoutDots (normalizeTargetPath target) = normalizeTargetPath target := by
  rw [withoutDots,if_neg]
  intro dots
  obtain ⟨front,text⟩ := List.isSuffixOf_iff_suffix.mp dots
  rcases normalizeTargetPath_ends target with none | slash
  · rw [none] at text
    simp at text
  · rw [← text,List.getLast?_append_of_ne_nil _ (by simp)] at slash
    exact absurd slash (by decide)

theorem Workspace.bladeRoot_plain : ∀ comp ∈ space.bladeRoot, Plain comp :=
  fun comp member => space.plain comp (List.mem_append_left _ member)

theorem Workspace.isabs_join (path : String) : isabs (join space.workingDir path) = true :=
  isabs_join_absolute (isabs_textOf _) path

theorem Workspace.normpath_bladeRootDir : normpath space.bladeRootDir = space.bladeRootDir := normpath_textOf space.bladeRoot_plain

theorem Workspace.splitOn_length : ((normpath space.bladeRootDir).toList.splitOn '/').length = space.bladeRoot.length + 1 := by
  rw [space.normpath_bladeRootDir,Workspace.bladeRootDir,textOf,String.toList_ofList,
    splitOn_rootedText 1 space.bladeRoot_plain,if_neg space.some,List.length_append,List.length_replicate,Nat.add_comm]

theorem isSvnClient_eq : isSvnClient there space.bladeRootDir = there (space.bladeRoot ++ [svn]) := by
  rw [isSvnClient,pathExists_name there _ (by decide),Workspace.bladeRootDir,placeOf_textOf space.bladeRoot_plain]
  rfl

/-- A root and a directory below it, as places. -/
def clientPlace (found : String × String) : Place × Place := (placeOf found.1,placeOf (join found.1 found.2))

/-- The search with texts is the search with places. -/
theorem search_eq {full : String} (absolute : isabs full = true) {depth : Nat} (deep : initialSlashes full.toList ≤ depth) :
    ((List.range' depth (((normpath full).toList.splitOn '/').length + 1 - depth)).findSome? fun index =>
      let topDir := String.ofList (['/'].intercalate (((normpath full).toList.splitOn '/').take index))
      if pathExists there (join topDir ".git") then
        some (topDir,String.ofList (['/'].intercalate (((normpath full).toList.splitOn '/').drop index)))
      else none).map clientPlace =
    (clientFrom there (depth - initialSlashes full.toList) (placeOf full)).map fun root => (root,placeOf full) := by
  have dirs := splitOn_normpath absolute
  have plain : ∀ comp ∈ placeOf full, Plain comp := normComps_rooted _
  change _ = List.replicate _ [] ++ parts (placeOf full) at dirs
  generalize initialSlashes full.toList = slashes at dirs deep ⊢
  have width : (parts (placeOf full)).length = max 1 (placeOf full).length := by
    rw [parts]
    split
    next none => rw [none]; rfl
    next some => rw [max_eq_right (List.length_pos_of_ne_nil some)]
  obtain ⟨k,rfl⟩ := Nat.exists_eq_add_of_le deep
  have count : slashes + (parts (placeOf full)).length + 1 - (slashes + k) = max 1 (placeOf full).length + 1 - k := by omega
  rw [dirs,List.length_append,List.length_replicate,count,Nat.add_sub_cancel_left,clientFrom,← List.map_add_range',List.findSome?_map,
    List.map_findSome?,List.map_findSome?]
  refine congrArg (List.findSome? · _) (funext fun index => ?_)
  have top := parts_take plain slashes index
  have found : pathExists there (join (String.ofList (['/'].intercalate
      ((List.replicate slashes [] ++ parts (placeOf full)).take (slashes + index)))) ".git") =
      there ((placeOf full).take index ++ [git]) := by
    rw [pathExists_name there _ (by decide),top]
    rfl
  have sub := parts_drop plain slashes index top
  simp only [Function.comp_apply,found]
  split
  · simp only [Option.map_some,clientPlace,top,sub]
  · rfl

theorem isGitClient_eq (target : String) :
    (isGitClient there space.bladeRootDir (normalizeTargetPath target) space.workingDir).map clientPlace =
      if there (space.bladeRoot ++ [git]) then some (space.bladeRoot,placeOf (join space.bladeRootDir (normalizeTargetPath target)))
      else
        let full := join space.workingDir (normalizeTargetPath target)
        (clientFrom there (space.bladeRoot.length + 1 - initialSlashes full.toList) (placeOf full)).map fun root =>
          (root,placeOf full) := by
  have root_place : placeOf space.bladeRootDir = space.bladeRoot := placeOf_textOf space.bladeRoot_plain
  have here : pathExists there (join space.bladeRootDir ".git") = there (space.bladeRoot ++ [git]) := by
    rw [pathExists_name there _ (by decide),root_place]
    rfl
  rw [isGitClient,withoutDots_normalizeTargetPath,here]
  split
  · rw [Option.map_some,clientPlace,root_place]
  · have absolute := space.isabs_join (normalizeTargetPath target)
    have above := space.splitOn_length
    have deep : initialSlashes (join space.workingDir (normalizeTargetPath target)).toList ≤ space.bladeRoot.length + 1 := by
      have some := List.length_pos_of_ne_nil space.some
      rcases initialSlashes_absolute absolute with one | two <;> omega
    dsimp only
    rw [above]
    exact search_eq there absolute deep

/-- A root that has been found is absolute. -/
theorem isGitClient_absolute {target root sub : String}
    (found : isGitClient there space.bladeRootDir target space.workingDir = some (root,sub)) : isabs root = true := by
  unfold isGitClient at found
  dsimp only at found
  split at found
  · obtain ⟨rfl,-⟩ := Prod.mk.inj (Option.some.inj found)
    exact isabs_textOf _
  · obtain ⟨index,member,here⟩ := List.exists_of_findSome?_eq_some found
    have deep : 2 ≤ index := by
      have above := space.splitOn_length
      have some := List.length_pos_of_ne_nil space.some
      rw [above] at member
      have bounds := (List.mem_range'_1.mp member).1
      omega
    split at here
    next =>
      obtain ⟨rfl,-⟩ := Prod.mk.inj (Option.some.inj here)
      obtain ⟨text,begins⟩ := isabs_iff.mp (isabs_normpath (space.isabs_join (withoutDots target)))
      have dirs : ('/' :: text).splitOn '/' = [] :: text.splitOn '/' := List.splitOn_append_cons_self (a := '/') [] text
      obtain ⟨first,more,parts⟩ := List.exists_cons_of_ne_nil (List.splitOn_ne_nil '/' text)
      obtain ⟨k,rfl⟩ := Nat.exists_eq_add_of_le' deep
      rw [begins,dirs,parts,isabs_iff,String.toList_ofList,List.take_succ_cons,List.take_succ_cons,List.intercalate_cons_cons]
      exact ⟨_,rfl⟩
    next => cases here

end Client

section Svn
variable (space : Workspace)

theorem askedSvn_eq (target : String) : placeOf (join space.bladeRootDir (String.ofList
    ((normpath (join space.workingDir (spelled target))).toList.drop (space.bladeRootDir.toList.length + 1)))) = askedSvn space target := by
  rw [askedSvn]
  split
  next below =>
    obtain ⟨one,rest,split⟩ := below
    have plain : ∀ comp ∈ space.bladeRoot ++ rest, Plain comp := split ▸ normComps_rooted _
    have text := @normpath_rooted (join space.workingDir (spelled target)) (by rw [one]; decide)
    change _ = rootedText _ (placeOf _) at text
    have inside : ∀ part ∈ rest, '/' ∉ part := fun part member => (plain part (List.mem_append_right _ member)).2.2.2
    have behind : (rootedText 1 (space.bladeRoot ++ rest)).drop (space.bladeRootDir.toList.length + 1) = ['/'].intercalate rest := by
      rw [Workspace.bladeRootDir,textOf,String.toList_ofList]
      exact rootedText_drop 1 space.some rest
    have relative : isabs (String.ofList (['/'].intercalate rest)) = false := by
      rw [← Bool.not_eq_true,isabs_iff,String.toList_ofList]
      rintro ⟨more,first⟩
      refine head?_intercalate (fun part member => ?_) (congrArg List.head? first)
      exact (plain part (List.mem_append_right _ member)).named
    have root : normComps true space.bladeRootDir.toList = space.bladeRoot := placeOf_textOf space.bladeRoot_plain
    rw [text,one,← split,behind,placeOf,normComps_join _ relative,String.toList_ofList,foldl_normStep_intercalate true _ inside,root,
      foldl_normStep_plain true _ rest fun part member => plain part (List.mem_append_right _ member)]
  next => rfl

end Svn

/-! One target, and then all. -/

section Union
variable {there : Place → Bool} {report : Place → List Line} {space : Workspace}

theorem mem_opened {root : Place} {file : String} {lines : List Line} {opened : List String} :
    file ∈ (((output lines).splitOn '\n').filterMap openedFile).foldl (fun files name => files.insert (join (textOf root) name)) opened ↔
      file ∈ opened ∨ ∃ line ∈ lines, line.Reads root file := by
  have names (names : List String) (opened : List String) :
      file ∈ names.foldl (fun files name => files.insert (join (textOf root) name)) opened ↔
        file ∈ opened ∨ ∃ name ∈ names, file = join (textOf root) name := by
    induction names generalizing opened with
    | nil => simp
    | cons name names ih =>
      rw [List.foldl_cons,ih,List.mem_insert_iff]
      simp only [List.mem_cons,or_and_right,exists_or,exists_eq_left]
      tauto
  rw [files_output,names]
  apply or_congr_right
  simp only [List.mem_filterMap,reads_iff]
  grind

/-- The client of a target is asked about its directory. -/
theorem askClient_eq (target : String) {state : Checking}
    (home : there (space.bladeRoot ++ [svn]) = true → state.cwd = space.bladeRootDir) :
    ∃ next lines, askClient there report space.bladeRootDir space.workingDir (normalizeTargetPath target) (spelled target) state =
        (next,output lines) ∧
      next.checkDir = state.checkDir ∧ next.openedFiles = state.openedFiles ∧
      (there (space.bladeRoot ++ [svn]) = true → next.cwd = space.bladeRootDir) ∧
      (lines = [] ∧ asked there space target = none ∨
        ∃ place ∈ asked there space target, next.cwd = textOf place.1 ∧ lines = report place.2) := by
  rw [askClient,isSvnClient_eq,asked]
  cases versioned : there (space.bladeRoot ++ [svn]) with
  | true =>
    have cwd := home versioned
    rw [if_pos rfl,if_pos rfl]
    dsimp only [status]
    rw [cwd,askedSvn_eq]
    refine ⟨state,report (askedSvn space target),rfl,rfl,rfl,fun _ => cwd,.inr ⟨(space.bladeRoot,askedSvn space target),?_,?_⟩⟩
    · exact Option.mem_some_self _
    · dsimp only
      exact ⟨cwd,rfl⟩
  | false =>
    have place := isGitClient_eq there space target
    rw [if_neg Bool.false_ne_true,if_neg Bool.false_ne_true,← place]
    cases found : isGitClient there space.bladeRootDir (normalizeTargetPath target) space.workingDir with
    | none => exact ⟨_,[],rfl,rfl,rfl,fun wrong => absurd wrong Bool.false_ne_true,.inl ⟨rfl,rfl⟩⟩
    | some client =>
      obtain ⟨root,sub⟩ := client
      have absolute := isGitClient_absolute there space found
      have cwd : chdir state.cwd root = textOf (placeOf root) := by rw [chdir,join,if_pos absolute]
      have dir : placeOf (join (chdir state.cwd root) sub) = placeOf (join root sub) := by rw [cwd,placeOf_join_textOf]
      refine ⟨{state with cwd := chdir state.cwd root},report (placeOf (join root sub)),?_,rfl,rfl,fun wrong => absurd wrong Bool.false_ne_true,
        .inr ⟨(placeOf root,placeOf (join root sub)),?_,?_⟩⟩
      · rw [← dir]
        rfl
      · exact Option.mem_some_self _
      · dsimp only
        exact ⟨cwd,rfl⟩

/-- The loop after some targets. -/
structure Checked (there : Place → Bool) (report : Place → List Line) (space : Workspace) (done : List String) (state : Checking) :
    Prop where
  home : there (space.bladeRoot ++ [svn]) = true → state.cwd = space.bladeRootDir
  seen : ∀ d, d ∈ state.checkDir ↔ d ∈ done.map spelled
  once : (done.map spelled).Nodup
  files : ∀ file, file ∈ state.openedFiles ↔ ∃ target ∈ done, ∃ place ∈ asked there space target, ReadAt report place file

variable {done : List String} {state : Checking} {target : String}

theorem Checked.step (checked : Checked there report space done state) (target : String) :
    spelled target ∈ done.map spelled ∧ checkTarget there report space.bladeRootDir space.workingDir state target = none ∨
      spelled target ∉ done.map spelled ∧ ∃ next,
        checkTarget there report space.bladeRootDir space.workingDir state target = some next ∧
        Checked there report space (done ++ [target]) next := by
  rw [checkTarget,← spelled]
  dsimp only
  by_cases again : spelled target ∈ done.map spelled
  · exact .inl ⟨again,if_pos ((checked.seen _).mpr again)⟩
  · have unseen := fun seen => again ((checked.seen (spelled target)).mp seen)
    obtain ⟨next,lines,asking,dirs,opened,home,files⟩ := @askClient_eq there report space target
      {state with checkDir := spelled target :: state.checkDir} checked.home
    rw [if_neg unseen,asking]
    refine .inr ⟨again,_,rfl,home,fun d => ?_,?_,fun file => ?_⟩
    · dsimp only
      rw [dirs,List.mem_cons,checked.seen,List.map_append,List.mem_append,or_comm]
      exact or_congr_right (List.mem_singleton).symm
    · rw [List.map_append]
      exact List.nodup_append.mpr ⟨checked.once,List.pairwise_singleton _ _,fun d taken other there same =>
        again ((same.trans (List.mem_singleton.mp there)) ▸ taken)⟩
    · simp only [List.mem_append,List.mem_singleton,or_and_right,exists_or,exists_eq_left]
      rcases files with ⟨rfl,nobody⟩ | ⟨place,here,cwd,rfl⟩
      · rw [nobody,opened,← checked.files]
        simp [output,openedFile,strip]
      · rw [cwd,mem_opened,opened,checked.files,Option.mem_def.mp here]
        simp [ReadAt]

theorem checked_nothing : Checked there report space [] ⟨space.bladeRootDir,[],[],[]⟩ :=
  ⟨fun _ => rfl,fun d => by simp,List.nodup_nil,fun file => by simp⟩

theorem getOpenedFiles_some {targets opened : List String}
    (ran : getOpenedFiles there report space.bladeRootDir targets space.bladeRootDir space.workingDir = some opened) :
    (targets.map spelled).Nodup ∧
      ∀ file, file ∈ opened ↔ ∃ target ∈ targets, ∃ place ∈ asked there space target, ReadAt report place file := by
  rw [getOpenedFiles,space.normpath_bladeRootDir] at ran
  obtain ⟨final,folded,rfl⟩ := Option.map_eq_some_iff.mp ran
  have checked : Checked there report space targets final := by
    refine foldlM_some (Checked there report space) (fun done target rest state next _ before stepped => ?_) checked_nothing folded
    obtain ⟨-,ended⟩ | ⟨-,other,here,after⟩ := before.step target
    · rw [ended] at stepped
      cases stepped
    · rw [here] at stepped
      exact Option.some.inj stepped ▸ after
  exact ⟨checked.once,checked.files⟩

theorem getOpenedFiles_isSome (there : Place → Bool) (report : Place → List Line) (space : Workspace) {targets : List String}
    (distinct : (targets.map spelled).Nodup) : ∃ opened,
    getOpenedFiles there report space.bladeRootDir targets space.bladeRootDir space.workingDir = some opened := by
  have step (done : List String) (target : String) (rest : List String) (state : Checking) (split : targets = done ++ target :: rest)
      (before : Checked there report space done state) : ∃ next,
      checkTarget there report space.bladeRootDir space.workingDir state target = some next ∧
        Checked there report space (done ++ [target]) next := by
    obtain ⟨again,-⟩ | ⟨-,there⟩ := before.step target
    · rw [split,List.map_append,List.map_cons] at distinct
      exact absurd rfl ((List.nodup_append.mp distinct).2.2 _ again _ List.mem_cons_self)
    · exact there
  obtain ⟨final,folded,-⟩ := foldlM_ok (Checked there report space) step checked_nothing
  rw [getOpenedFiles,space.normpath_bladeRootDir,folded]
  exact ⟨final.openedFiles,rfl⟩

theorem clientFrom_plain {depth : Nat} {dir root : Place} (plain : ∀ comp ∈ dir, Plain comp)
    (found : clientFrom there depth dir = some root) : ∀ comp ∈ root, Plain comp := by
  obtain ⟨k,-,here⟩ := List.exists_of_findSome?_eq_some found
  split at here
  next =>
    obtain rfl := Option.some.inj here
    exact fun comp member => plain comp (List.mem_of_mem_take member)
  next => cases here

theorem asked_plain {target : String} {place : Place × Place} (here : place ∈ asked there space target) :
    ∀ comp ∈ place.1, Plain comp := by
  unfold asked at here
  split at here
  next => exact Option.some.inj here ▸ space.bladeRoot_plain
  next =>
    split at here
    next => exact Option.some.inj here ▸ space.bladeRoot_plain
    next =>
      obtain ⟨root,found,rfl⟩ := Option.map_eq_some_iff.mp here
      exact clientFrom_plain (normComps_rooted _) found

theorem located_plain {target : String} {place : Place × Place} (here : place ∈ located there space (targetDir space target)) :
    ∀ comp ∈ place.1, Plain comp := by
  unfold located at here
  split at here
  next => exact Option.some.inj here ▸ space.bladeRoot_plain
  next =>
    obtain ⟨root,found,rfl⟩ := Option.map_eq_some_iff.mp here
    exact clientFrom_plain (normComps_rooted _) found

/-- The same file below two roots: these are one. -/
theorem place_eq {place other : Place × Place} (plain : ∀ comp ∈ place.1, Plain comp) (plain' : ∀ comp ∈ other.1, Plain comp)
    (dirs : other.2 = place.2) (files : join (textOf place.1) "x.h" = join (textOf other.1) "x.h") : other = place := by
  have below (root : Place) (plain : ∀ comp ∈ root, Plain comp) : placeOf (join (textOf root) "x.h") = root ++ ["x.h".toList] := by
    rw [placeOf_join_name _ (by decide),placeOf_textOf plain]
  have roots := congrArg placeOf files
  rw [below _ plain,below _ plain'] at roots
  exact Prod.ext (List.append_cancel_right roots).symm dirs

def header : Line := ⟨"M x.h".toList,some "x.h".toList,by decide⟩

/-- A report of one line about one directory. -/
def oneLine (line : Line) (dir other : Place) : List Line := if other = dir then [line] else []

theorem fileAt_oneLine {line : Line} {dir : Place} {place : Place × Place} {file : String} :
    FileAt (oneLine line dir) place file ↔ place.2 = dir ∧ line.Tells place.1 file := by
  rw [FileAt,oneLine]
  split
  next same => simp [same]
  next other => simp [other]

theorem readAt_oneLine {line : Line} {dir : Place} {place : Place × Place} {file : String} :
    ReadAt (oneLine line dir) place file ↔ place.2 = dir ∧ line.Reads place.1 file := by
  rw [ReadAt,oneLine]
  split
  next same => simp [same]
  next other => simp [other]

theorem header_legible (root : Place) : header.Legible root := legible_of_opened root (by decide)

theorem header_tells {root : Place} {file : String} : header.Tells root file ↔ file = join (textOf root) "x.h" := by
  have source : isSource "x.h".toList = true := by decide
  simp only [Line.Tells,header,Option.mem_some_iff,exists_eq_left',source,true_and,String.ofList_toList]

/-- The root of a client goes with the directory. -/
theorem located_unique {dir other : Place} {place place' : Place × Place} (here : place ∈ located there space dir)
    (there' : place' ∈ located there space other) (same : place.2 = place'.2) : place = place' := by
  have at_dir {dir : Place} {place : Place × Place} (here : place ∈ located there space dir) : place.2 = dir := by
    unfold located at here
    split at here
    next => exact Option.some.inj here ▸ rfl
    next =>
      obtain ⟨root,-,rfl⟩ := Option.map_eq_some_iff.mp here
      rfl
  obtain rfl : dir = other := (at_dir here).symm.trans (same.trans (at_dir there'))
  exact Option.some.inj (here.symm.trans there')

variable {targets : List String}

/-- One line about one directory is read where it is asked for, and told where it is meant. -/
theorem Opens.oneLine {line : Line} {dir : Place} (opens : Opens there space (oneLine line dir) targets) (file : String) :
    (∃ target ∈ targets, ∃ place ∈ asked there space target, place.2 = dir ∧ line.Reads place.1 file) ↔
      ∃ target ∈ targets, ∃ place ∈ located there space (targetDir space target), place.2 = dir ∧ line.Tells place.1 file := by
  obtain ⟨opened,ran,files⟩ := opens
  have found := ((getOpenedFiles_some ran).2 file).symm.trans (files file)
  simpa only [readAt_oneLine,fileAt_oneLine] using found

theorem Opens.covered (opens : ∀ dir, Opens there space (BladeMain.oneLine header dir) targets) : Covered there space targets := by
  have same (dir : Place) (file : String) := (opens dir).oneLine file
  simp only [header_legible _ _,header_tells] at same
  obtain ⟨opened,ran,-⟩ := opens []
  refine ⟨(getOpenedFiles_some ran).1,?_,?_⟩
  · intro target member place here
    obtain ⟨other,there,place',found,dirs,files⟩ := (same place.2 _).mp ⟨target,member,place,here,rfl,rfl⟩
    exact ⟨other,there,place_eq (asked_plain here) (located_plain found) dirs files ▸ found⟩
  · intro target member place here
    obtain ⟨other,there,place',found,dirs,files⟩ := (same place.2 _).mpr ⟨target,member,place,here,rfl,rfl⟩
    exact ⟨other,there,place_eq (located_plain here) (asked_plain found) dirs files ▸ found⟩

/-- Where the directories are those of the targets, a line about one of them is legible. -/
theorem Covered.legible (covered : Covered there space targets) {line : Line}
    (opens : ∀ dir, Opens there space (oneLine line dir) targets) {target : String} (member : target ∈ targets)
    {place : Place × Place} (here : place ∈ located there space (targetDir space target)) : line.Legible place.1 := by
  intro file
  have same := (opens place.2).oneLine file
  apply Iff.intro
  · intro read
    obtain ⟨other,asks,found⟩ := covered.looked target member place here
    obtain ⟨target',-,place',here',dirs,tells⟩ := same.mp ⟨other,asks,place,found,rfl,read⟩
    exact located_unique here' here dirs ▸ tells
  · intro tells
    obtain ⟨target',asks,place',here',dirs,read⟩ := same.mpr ⟨target,member,place,here,rfl,tells⟩
    obtain ⟨other,-,found⟩ := covered.meant target' asks place' here'
    exact located_unique found here dirs ▸ read

/-- The condition for all reports of some lines, a modified file among them. -/
theorem opened_iff (there : Place → Bool) (space : Workspace) (targets : List String) (lines : Set Line) (some_line : header ∈ lines) :
    (∀ report : Place → List Line, (∀ dir, ∀ line ∈ report dir, line ∈ lines) → Opens there space report targets) ↔
      Covered there space targets ∧
        ∀ target ∈ targets, ∀ place ∈ located there space (targetDir space target), ∀ line ∈ lines, line.Legible place.1 := by
  have single {line : Line} (inside : line ∈ lines) (dir other : Place) : ∀ printed ∈ oneLine line dir other, printed ∈ lines := by
    intro printed member
    unfold oneLine at member
    split at member
    next => exact List.mem_singleton.mp member ▸ inside
    next => exact absurd member List.not_mem_nil
  apply Iff.intro
  · intro opens
    have covered : Covered there space targets := Opens.covered fun dir => opens _ (single some_line dir)
    refine ⟨covered,fun target member place here line inside => ?_⟩
    exact covered.legible (fun dir => opens _ (single inside dir)) member here
  · rintro ⟨covered,legible⟩ report printed
    obtain ⟨opened,ran⟩ := getOpenedFiles_isSome there report space covered.distinct
    refine ⟨opened,ran,fun file => ?_⟩
    rw [(getOpenedFiles_some ran).2 file]
    apply Iff.intro
    · rintro ⟨target,member,place,here,line,inside,read⟩
      obtain ⟨other,there,found⟩ := covered.meant target member place here
      exact ⟨other,there,place,found,line,inside,(legible other there place found line (printed _ line inside) file).mp read⟩
    · rintro ⟨target,member,place,here,line,inside,tells⟩
      obtain ⟨other,there,found⟩ := covered.looked target member place here
      exact ⟨other,there,place,found,line,inside,(legible target member place here line (printed _ line inside) file).mpr tells⟩

/-- Blade is run in `/r`, which is a repository. -/
def repository : Workspace := ⟨[['r']],[],by decide,by decide⟩

def repositoryThere (place : Place) : Bool := place = [['r'],git]

/-- A file that is changed in the working tree, and one that nobody has added. -/
def changedFile : Line := ⟨" M a/y.cc".toList,some "a/y.cc".toList,by decide⟩
def unknownFile : Line := ⟨"?? b/z.h".toList,none,by decide⟩

def repositoryReport (dir : Place) : List Line :=
  if dir = [['r'],['a']] then [changedFile] else if dir = [['r'],['b']] then [header,unknownFile] else []

theorem repository_opened : Opens repositoryThere repository repositoryReport ["b/...","a:a"] := by
  have legible : ∀ line ∈ ({header,changedFile,unknownFile} : Set Line), ∀ root, line.Legible root := by
    rintro line (rfl | rfl | rfl) root
    · exact header_legible root
    · exact legible_of_opened root (by decide)
    · exact legible_of_opened root (by decide)
  have lines := (opened_iff repositoryThere repository ["b/...","a:a"] {header,changedFile,unknownFile} (.inl rfl)).mpr
    ⟨⟨by decide,by decide,by decide⟩,fun target member place here line inside => legible line inside place.1⟩
  refine lines repositoryReport fun dir line printed => ?_
  unfold repositoryReport at printed
  split at printed
  · exact .inr (.inl (List.mem_singleton.mp printed))
  · split at printed
    · rcases List.mem_pair.mp printed with rfl | rfl
      · exact .inl rfl
      · exact .inr (.inr rfl)
    · exact absurd printed List.not_mem_nil

/-- A file that is changed in the index and in the working tree. -/
def changedTwice : Line := ⟨"MM a/x.h".toList,some "a/x.h".toList,by decide⟩

/-- A directory that is given twice, a name that is no directory, and a mark of two letters. -/
theorem repository_not_opened : ¬Opens repositoryThere repository (fun _ => []) ["a","a"] ∧
    ¬Opens repositoryThere repository (oneLine header [['r'],['a']]) ["a:x"] ∧
    ¬Opens repositoryThere repository (oneLine changedTwice [['r'],['a']]) ["a"] := by
  refine ⟨?_,fun opens => ?_,fun opens => ?_⟩
  · rintro ⟨opened,ran,-⟩
    exact absurd (getOpenedFiles_some ran).1 (by decide)
  · have located : ([['r']],[['r'],['a']]) ∈ located repositoryThere repository (targetDir repository "a:x") := by decide
    obtain ⟨target,member,place,here,same,-⟩ := (opens.oneLine (join (textOf [['r']]) "x.h")).mpr
      ⟨"a:x",List.mem_singleton_self _,_,located,rfl,header_tells.mpr rfl⟩
    obtain rfl := List.mem_singleton.mp member
    have other : asked repositoryThere repository "a:x" = some ([['r']],[['r'],['x']]) := by decide
    rw [other] at here
    obtain rfl := Option.some.inj here
    exact absurd same (by decide)
  · have located : ([['r']],[['r'],['a']]) ∈ located repositoryThere repository (targetDir repository "a") := by decide
    have tells : changedTwice.Tells [['r']] (join (textOf [['r']]) "a/x.h") := ⟨"a/x.h".toList,rfl,by decide,by rw [String.ofList_toList]⟩
    obtain ⟨target,-,place,-,-,read⟩ := (opens.oneLine _).mpr ⟨"a",List.mem_singleton_self _,_,located,rfl,tells⟩
    obtain ⟨name,opened,-⟩ := (reads_iff _ _ _).mp read
    have unread : openedFile changedTwice.text = none := by decide
    rw [unread] at opened
    cases opened

end Union

end WebSearch.BladeMain
