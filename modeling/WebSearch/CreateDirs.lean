import WebSearch.Directories

/-! `file/file.cc`: two ways to make a directory together with the ones on its path. -/
namespace WebSearch.File
open Library Directories

/-- The loop of `CreateDirDeeply` over what is left of the buffer, which is cut at a slash
for as long as its directory is looked for and made. -/
def createDirDeeplyLoop (dirs : Directories) (before : Bytes) : Bytes → Bool × Directories
  | [] => (true,dirs)
  | c :: rest =>
    if c = 0 then (true,dirs)
    else if c = slash then
      let buff := before ++ 0 :: rest
      if buff.head? = some 0 then createDirDeeplyLoop dirs (before ++ [slash]) rest
      else if !fileExists dirs buff then
        match createDir dirs buff with
        | none => (false,dirs)
        | some dirs => createDirDeeplyLoop dirs (before ++ [slash]) rest
      else createDirDeeplyLoop dirs (before ++ [slash]) rest
    else createDirDeeplyLoop dirs (before ++ [c]) rest

def withSlash (path : Bytes) : Bytes := if path.getLast? = some slash then path else path ++ [slash]

/-- The path is not empty. -/
def createDirDeeply (dirs : Directories) (path : Bytes) : Bool × Directories := createDirDeeplyLoop dirs [] (withSlash path)

def findSlash (dir : Bytes) (pos : Nat) : Option Nat := ((dir.drop pos).findIdx? (· = slash)).map (pos + ·)

/-- A parent is made if there is nothing, and must be a directory otherwise. -/
def createParent (dirs : Directories) (parent : Bytes) : Option Directories :=
  match dirs.stat parent with
  | none => dirs.mkdir parent
  | some .dir => some dirs
  | some .file => none

/-- The loop of `CreateDirIfMissing` from `pos1` on. -/
def createDirIfMissingLoop (dir : Bytes) : Nat → Directories → Nat → Option (Bool × Directories)
  | 0, _, _ => none
  | fuel + 1, dirs, pos1 =>
    match findSlash dir pos1 with
    | some 0 => createDirIfMissingLoop dir fuel dirs 1
    | some pos2 =>
      match createParent dirs (dir.take pos2) with
      | none => some (false,dirs)
      | some dirs => createDirIfMissingLoop dir fuel dirs (pos2 + 1)
    | none =>
      match createParent dirs dir with
      | none => some (false,dirs)
      | some dirs => some (true,dirs)

def createDirIfMissing (dirs : Directories) (dir : Bytes) : Option (Bool × Directories) :=
  createDirIfMissingLoop dir (dir.length + 1) dirs 0

/-! Paths and their parts. -/

def joined (parts : List Bytes) (left : Bytes) : Bytes := parts.foldr (fun part rest => part ++ slash :: rest) left

@[simp] theorem joined_nil (left : Bytes) : joined [] left = left := rfl

@[simp] theorem joined_cons (part : Bytes) (parts : List Bytes) (left : Bytes) :
    joined (part :: parts) left = part ++ slash :: joined parts left := rfl

theorem joined_append (done : List Bytes) (part : Bytes) (parts : List Bytes) (left : Bytes) :
    joined (done ++ part :: parts) left = joined done part ++ slash :: joined parts left := by
  induction done with
  | nil => rfl
  | cons first done ih => rw [List.cons_append,joined_cons,joined_cons,ih,List.append_assoc,List.cons_append]

theorem joined_eq_nil {done : List Bytes} {part : Bytes} (empty : joined done part = []) : done = [] ∧ part = [] := by
  cases done with
  | nil => exact ⟨rfl,empty⟩
  | cons first done => exact absurd empty (List.append_ne_nil_of_right_ne_nil _ (List.cons_ne_nil _ _))

theorem joined_snoc (done : List Bytes) (part : Bytes) : joined (done ++ [part]) [] = joined done part ++ [slash] :=
  joined_append done part [] []

theorem joined_left (done : List Bytes) (left : Bytes) : joined done left = joined done [] ++ left := by
  induction done with
  | nil => rfl
  | cons first done ih => rw [joined_cons,joined_cons,ih,List.append_assoc,List.cons_append]

/-- What stands between slashes in a C string. -/
def Part (part : Bytes) : Prop := slash ∉ part ∧ 0 ∉ part

theorem splitOn_joined {parts : List Bytes} {left : Bytes} (plain : ∀ part ∈ parts, Part part) (last : Part left) :
    (joined parts left).splitOn slash = parts ++ [left] := by
  induction parts with
  | nil => exact List.splitOn_eq_singleton last.1
  | cons part parts ih =>
    obtain ⟨first,later⟩ := List.forall_mem_cons.mp plain
    rw [joined_cons,List.splitOn_append_cons_self,List.splitOn_eq_singleton first.1,ih later]
    rfl

theorem zero_not_mem_joined {parts : List Bytes} {left : Bytes} (plain : ∀ part ∈ parts, Part part) (last : Part left) :
    0 ∉ joined parts left := by
  induction parts with
  | nil => exact last.2
  | cons part parts ih =>
    obtain ⟨first,later⟩ := List.forall_mem_cons.mp plain
    rw [joined_cons]
    simp only [List.mem_append,List.mem_cons,first.2,ih later,or_false,false_or]
    decide

theorem parts_snoc {parts : List Bytes} {part : Bytes} (plain : ∀ other ∈ parts, Part other) (last : Part part) :
    ∀ other ∈ parts ++ [part], Part other := by
  intro other member
  obtain member | same := List.mem_append.mp member
  · exact plain other member
  · rwa [List.mem_singleton.mp same]

theorem exists_joined {path : Bytes} (noNul : 0 ∉ path) :
    ∃ parts left, (∀ part ∈ parts, Part part) ∧ Part left ∧ path = joined parts left := by
  induction path with
  | nil => exact ⟨[],[],by simp,⟨List.not_mem_nil,List.not_mem_nil⟩,rfl⟩
  | cons c path ih =>
    obtain ⟨first,rest⟩ := not_or.mp (List.mem_cons.not.mp noNul)
    obtain ⟨parts,left,plain,last,rfl⟩ := ih rest
    by_cases cut : c = slash
    · refine ⟨[] :: parts,left,?_,last,by rw [cut]; rfl⟩
      exact List.forall_mem_cons.mpr ⟨⟨List.not_mem_nil,List.not_mem_nil⟩,plain⟩
    · have add {part : Bytes} (plain : Part part) : Part (c :: part) :=
        ⟨List.not_mem_cons_of_ne_of_not_mem (Ne.symm cut) plain.1,List.not_mem_cons_of_ne_of_not_mem first plain.2⟩
      cases parts with
      | nil => exact ⟨[],c :: left,plain,add last,rfl⟩
      | cons part parts =>
        obtain ⟨head,tail⟩ := List.forall_mem_cons.mp plain
        exact ⟨(c :: part) :: parts,left,List.forall_mem_cons.mpr ⟨add head,tail⟩,last,rfl⟩

/-! One part after another. -/

/-- The parts have been passed from `home` on, in directories all the way. -/
structure Passed (dirs : Directories) (home : List Bytes) (done : List Bytes) : Prop where
  plain : ∀ part ∈ done, Part part
  there : ∀ comps, comps <+: done.map component → dirs.kind (FileTree.lands home comps) = some .dir

def partsLand (home : List Bytes) (done : List Bytes) : List Bytes := FileTree.lands home (done.map component)

theorem partsLand_snoc (home : List Bytes) (done : List Bytes) (part : Bytes) :
    partsLand home (done ++ [part]) = FileTree.move (partsLand home done) (component part) := by
  rw [partsLand,List.map_append,FileTree.lands,List.foldl_append]
  rfl

theorem component_name {part n : Bytes} (is_name : component part = .name n) : part = n ∧ n ≠ [] ∧ n ≠ [dot] ∧ n ≠ [dot,dot] := by
  unfold component at is_name
  split at is_name
  · exact absurd is_name (by simp)
  · rename_i some
    split at is_name
    · exact absurd is_name (by simp)
    · rename_i other
      obtain rfl := Component.name.inj is_name
      exact ⟨rfl,fun none => some (Or.inl none),fun here => some (Or.inr here),other⟩

namespace Passed
variable {dirs : Directories} {home : List Bytes} {done : List Bytes} {part path : Bytes}

theorem dir (passed : Passed dirs home done) : dirs.kind (partsLand home done) = some .dir :=
  passed.there _ (List.prefix_refl _)

theorem walk (passed : Passed dirs home done) : dirs.walk home (done.map component) = some (partsLand home done) :=
  FileTree.walk_of_dirs passed.there

theorem next (passed : Passed dirs home done) (plain : Part part) (dir : dirs.kind (partsLand home (done ++ [part])) = some .dir) :
    Passed dirs home (done ++ [part]) := by
  refine ⟨parts_snoc passed.plain plain,fun comps before => ?_⟩
  rw [List.map_append,List.map_singleton,List.prefix_concat_iff] at before
  obtain rfl | before := before
  · rwa [partsLand,List.map_append] at dir
  · exact passed.there comps before

/-- A call with the path so far and a next part. -/
structure Call (dirs : Directories) (home : List Bytes) (done : List Bytes) (part path : Bytes) : Prop where
  plain : Part part
  shown : cString path = joined done part
  nonempty : joined done part ≠ []
  from_home : dirs.start (joined done part) = home

theorem resolve (passed : Passed dirs home done) (call : Call dirs home done part path) :
    dirs.resolve path = dirs.enter (partsLand home done) (component part) := by
  rw [Directories.resolve,call.shown]
  show ite _ _ _ = _
  rw [if_neg call.nonempty,walkParts,call.from_home,
    splitOn_joined passed.plain call.plain,List.map_append]
  exact FileTree.walk_snoc passed.walk _

theorem stat (passed : Passed dirs home done) (call : Call dirs home done part path) :
    dirs.stat path = dirs.kind (partsLand home (done ++ [part])) := by
  rw [Directories.stat,passed.resolve call,partsLand_snoc]
  cases there : dirs.kind (FileTree.move (partsLand home done) (component part)) with
  | none => rw [FileTree.enter_of_none there,Option.bind_none]
  | some kind => rw [FileTree.enter_of_some passed.dir (by rw [there]; exact Option.some_ne_none _),Option.bind_some,there]

/-- The location is called `part` below the ones before. -/
theorem name (passed : Passed dirs home done) (other : dirs.kind (partsLand home (done ++ [part])) ≠ some .dir) :
    component part = .name part ∧ partsLand home (done ++ [part]) = part :: partsLand home done ∧
      part ≠ [] ∧ part ≠ [dot] ∧ part ≠ [dot,dot] := by
  rw [partsLand_snoc] at other ⊢
  obtain ⟨n,is_name⟩ := FileTree.move_name passed.dir other
  obtain ⟨rfl,spelled⟩ := component_name is_name
  exact ⟨is_name,by rw [is_name]; rfl,spelled⟩

theorem mkdir_missing (passed : Passed dirs home done) (call : Call dirs home done part path)
    (missing : dirs.kind (partsLand home (done ++ [part])) = none) :
    ∃ after, dirs.mkdir path = some after ∧ after.toFileTree = dirs.ensure (partsLand home (done ++ [part])) ∧
      after.cwd = dirs.cwd ∧ Passed after home (done ++ [part]) := by
  have no_dir : dirs.kind (partsLand home (done ++ [part])) ≠ some .dir := by
    rw [missing]
    exact (Option.some_ne_none _).symm
  obtain ⟨-,lands,some,here,up⟩ := passed.name no_dir
  have parts : ((joined done part).splitOn slash).rdropWhile (· = []) = done ++ [part] := by
    rw [splitOn_joined passed.plain call.plain,List.rdropWhile_concat_neg _ _ _ (by simpa using some)]
  have named : FileName part := ⟨some,here,up,call.plain.1,call.plain.2⟩
  rw [lands] at missing
  have ok : dirs.kind (partsLand home done) = .some .dir ∧ FileName part ∧ dirs.kind (part :: partsLand home done) = none :=
    ⟨passed.dir,named,missing⟩
  have no_file : dirs.kind (FileTree.move (partsLand home done) (.name part)) ≠ .some .file := by
    rw [FileTree.move,missing]
    decide
  have kinds := FileTree.ensure_kind passed.dir no_file
  have made : (dirs.makeDir _ part ok.1 ok.2.1).toFileTree = dirs.ensure (partsLand home (done ++ [part])) := by
    rw [lands,FileTree.ensure,dif_pos ⟨passed.dir,missing⟩]
    rfl
  have there (l : List Bytes) (dir : dirs.kind l = .some .dir) : (dirs.makeDir _ part ok.1 ok.2.1).kind l = .some .dir := by
    rw [made,lands]
    refine (congrFun kinds l).trans ?_
    by_cases same : l = part :: partsLand home done
    · rw [same]
      exact Function.update_self _ _ _
    · exact (Function.update_of_ne same _ _).trans dir
  have still : Passed (dirs.makeDir _ part ok.1 ok.2.1) home done :=
    ⟨passed.plain,fun comps before => there _ (passed.there comps before)⟩
  refine ⟨dirs.makeDir _ part ok.1 ok.2.1,?_,made,rfl,still.next call.plain ?_⟩
  · simp only [mkdir,call.shown,parts,List.dropLast_concat,List.getLast?_concat,walkParts,call.from_home,passed.walk,ok]
    rfl
  · rw [lands]
    exact Function.update_self _ _ _

/-- Below a file there is nothing, and nothing can be made. -/
theorem below_file (passed : Passed dirs home done) (plain : Part part)
    (file : dirs.kind (partsLand home (done ++ [part])) = some .file) {next : Bytes}
    (call : Call dirs home (done ++ [part]) next path) : dirs.stat path = none ∧ dirs.mkdir path = none := by
  have no_dir : dirs.kind (partsLand home (done ++ [part])) ≠ some .dir := by
    rw [file]
    decide
  obtain ⟨is_name,lands,some,-⟩ := passed.name no_dir
  have split := splitOn_joined (parts_snoc passed.plain plain) call.plain
  have walked : dirs.walk home ((done ++ [part]).map component) = .some (partsLand home (done ++ [part])) := by
    rw [List.map_append,partsLand_snoc]
    refine (FileTree.walk_snoc passed.walk _).trans (FileTree.enter_of_some passed.dir ?_)
    rw [← partsLand_snoc,file]
    exact Option.some_ne_none _
  constructor
  · have nowhere : dirs.resolve path = none := by
      rw [Directories.resolve,call.shown]
      show ite _ _ _ = _
      rw [if_neg call.nonempty,walkParts,call.from_home,split,List.map_append]
      exact (FileTree.walk_snoc walked _).trans (FileTree.enter_file file _)
    rw [Directories.stat,nowhere,Option.bind_none]
  · by_cases ends : next = []
    · have parts : ((joined (done ++ [part]) next).splitOn slash).rdropWhile (· = []) = done ++ [part] := by
        rw [split,List.rdropWhile_concat_pos _ _ _ (by simpa using ends),List.rdropWhile_concat_neg _ _ _ (by simpa using some)]
      have taken : dirs.kind (part :: partsLand home done) ≠ none := by
        rw [← lands,file]
        exact Option.some_ne_none _
      simp only [mkdir,call.shown,parts,List.dropLast_concat,List.getLast?_concat,walkParts,call.from_home,passed.walk,taken,
        and_false,dite_false]
    · have parts : ((joined (done ++ [part]) next).splitOn slash).rdropWhile (· = []) = done ++ [part] ++ [next] := by
        rw [split,List.rdropWhile_concat_neg _ _ _ (by simpa using ends)]
      simp only [mkdir,call.shown,parts,List.dropLast_concat,List.getLast?_concat,walkParts,call.from_home,walked,no_dir,
        false_and,dite_false]

end Passed

/-! `CreateDirDeeply`: a file is noticed below it only. -/

/-- How a run ends, with the working directory as before. -/
def Leaves (dirs : Directories) (result : Bool × Directories) (ok : Bool) (tree : FileTree Bytes) : Prop :=
  result.1 = ok ∧ result.2.toFileTree = tree ∧ result.2.cwd = dirs.cwd

theorem createDirDeeplyLoop_skip {dirs : Directories} {before part rest : Bytes} (plain : Part part) :
    createDirDeeplyLoop dirs before (part ++ rest) = createDirDeeplyLoop dirs (before ++ part) rest := by
  induction part generalizing before with
  | nil => rw [List.nil_append,List.append_nil]
  | cons c part ih =>
    obtain ⟨other,more⟩ := not_or.mp (List.mem_cons.not.mp plain.1)
    obtain ⟨some,noNul⟩ := not_or.mp (List.mem_cons.not.mp plain.2)
    rw [List.cons_append,createDirDeeplyLoop,if_neg (Ne.symm some),if_neg (Ne.symm other),ih ⟨more,noNul⟩,
      List.append_assoc,List.singleton_append]

theorem createDirDeeplyLoop_end {dirs : Directories} {before left tail : Bytes} (plain : Part left)
    (ends : tail = [] ∨ tail.head? = some 0) : createDirDeeplyLoop dirs before (left ++ tail) = (true,dirs) := by
  rw [createDirDeeplyLoop_skip plain]
  cases tail with
  | nil => rfl
  | cons c tail =>
    have nul : c = 0 := by simpa using ends
    rw [createDirDeeplyLoop,if_pos nul]

theorem head?_cut {s : Bytes} (noNul : 0 ∉ s) (rest : Bytes) : (s ++ 0 :: rest).head? = some 0 ↔ s = [] := by
  cases s with
  | nil => exact iff_of_true rfl rfl
  | cons c s =>
    refine iff_of_false (fun same => ?_) (List.cons_ne_nil c s)
    exact noNul (List.mem_cons.mpr (Or.inl (Option.some.inj same).symm))

section Deeply
variable {dirs : Directories} {home : List Bytes} {done looked : List Bytes} {part left tail : Bytes}

theorem createDirDeeplyLoop_part (plain : Part part) (noNul : 0 ∉ joined done part) (rest : Bytes) :
    createDirDeeplyLoop dirs (joined done []) (part ++ slash :: rest) =
      if joined done part = [] then createDirDeeplyLoop dirs (joined (done ++ [part]) []) rest
      else if !fileExists dirs (joined done part ++ 0 :: rest) then
        match createDir dirs (joined done part ++ 0 :: rest) with
        | none => (false,dirs)
        | some dirs => createDirDeeplyLoop dirs (joined (done ++ [part]) []) rest
      else createDirDeeplyLoop dirs (joined (done ++ [part]) []) rest := by
  have not_nul : slash ≠ 0 := by decide
  rw [createDirDeeplyLoop_skip plain,← joined_left,createDirDeeplyLoop,if_neg not_nul,if_pos rfl,joined_snoc]
  simp only [head?_cut noNul]

theorem call_of_part (passed_plain : ∀ other ∈ done, Part other) (plain : Part part) (nonempty : joined done part ≠ [])
    (from_home : dirs.start (joined (done ++ part :: looked) left) = home) (rest : Bytes) :
    Passed.Call dirs home done part (joined done part ++ 0 :: rest) := by
  have noNul := zero_not_mem_joined passed_plain plain
  refine ⟨plain,cString_cut noNul rest,nonempty,?_⟩
  rw [← from_home]
  apply start_eq nonempty
  rw [joined_append]
  exact List.prefix_append _ _

theorem createDirDeeplyLoop_file (passed : Passed dirs home done) (plain_part : Part part)
    (file : dirs.kind (partsLand home (done ++ [part])) = some .file) (plain : ∀ other ∈ looked, Part other) (last : Part left)
    (ends : tail = [] ∨ tail.head? = some 0) (from_home : dirs.start (joined (done ++ part :: looked) left) = home) :
    createDirDeeplyLoop dirs (joined (done ++ [part]) []) (joined looked left ++ tail) = (looked.isEmpty,dirs) := by
  cases looked with
  | nil => exact createDirDeeplyLoop_end last ends
  | cons next looked =>
    obtain ⟨plain_next,-⟩ := List.forall_mem_cons.mp plain
    have all_plain := parts_snoc passed.plain plain_part
    have noNul := zero_not_mem_joined all_plain plain_next
    have nonempty : joined (done ++ [part]) next ≠ [] := by
      rw [joined_append]
      exact List.append_ne_nil_of_right_ne_nil _ (List.cons_ne_nil _ _)
    have from_next : dirs.start (joined (done ++ [part] ++ next :: looked) left) = home := by rwa [List.append_assoc]
    have call := call_of_part all_plain plain_next nonempty from_next (joined looked left ++ tail)
    obtain ⟨nothing,no_dir⟩ := passed.below_file plain_part file call
    rw [joined_cons,List.append_assoc,List.cons_append,createDirDeeplyLoop_part plain_next noNul,if_neg nonempty,fileExists,access,
      nothing,createDir,no_dir]
    rfl

theorem passed_dir (dir : dirs.kind (partsLand home (done ++ [part])) = some .dir) :
    dirs.kind (partsLand home (done ++ [part])) ≠ some .file ∧
      dirs.ensure (partsLand home (done ++ [part])) = dirs.toFileTree := by
  refine ⟨?_,FileTree.ensure_of_some ?_⟩ <;> rw [dir] <;> decide

/-- The next part leads to what is or becomes a directory. -/
theorem supply_part {tree : FileTree Bytes} (other : tree.kind (partsLand home (done ++ [part])) ≠ some .file) (parts : List Bytes) :
    tree.supply (partsLand home done) ((part :: parts).map component) =
      (tree.ensure (partsLand home (done ++ [part]))).supply (partsLand home (done ++ [part])) (parts.map component) := by
  rw [partsLand_snoc] at other ⊢
  rw [List.map_cons,FileTree.supply,if_neg other]

theorem supply_file {tree : FileTree Bytes} (file : tree.kind (partsLand home (done ++ [part])) = some .file) (parts : List Bytes) :
    tree.supply (partsLand home done) ((part :: parts).map component) = (tree,false) := by
  rw [partsLand_snoc] at file
  rw [List.map_cons,FileTree.supply,if_pos file]

theorem supply_part_dropLast {tree : FileTree Bytes} (other : tree.kind (partsLand home (done ++ [part])) ≠ some .file)
    (parts : List Bytes) : (tree.supply (partsLand home done) ((part :: parts).dropLast.map component)).2 =
      ((tree.ensure (partsLand home (done ++ [part]))).supply (partsLand home (done ++ [part])) (parts.dropLast.map component)).2 := by
  cases parts with
  | nil => rfl
  | cons next parts => rw [List.dropLast_cons_cons,supply_part other]

theorem createDirDeeplyLoop_run (passed : Passed dirs home done) (plain : ∀ other ∈ looked, Part other) (last : Part left)
    (ends : tail = [] ∨ tail.head? = some 0) (from_home : dirs.start (joined (done ++ looked) left) = home) :
    Leaves dirs (createDirDeeplyLoop dirs (joined done []) (joined looked left ++ tail))
      (dirs.supply (partsLand home done) (looked.dropLast.map component)).2
      (dirs.supply (partsLand home done) (looked.map component)).1 := by
  induction looked generalizing dirs done with
  | nil =>
    rw [joined_nil,createDirDeeplyLoop_end last ends]
    exact ⟨rfl,rfl,rfl⟩
  | cons part looked ih =>
    obtain ⟨plain_part,plain_rest⟩ := List.forall_mem_cons.mp plain
    have noNul := zero_not_mem_joined passed.plain plain_part
    have from_next : dirs.start (joined (done ++ [part] ++ looked) left) = home := by rwa [List.append_assoc]
    rw [joined_cons,List.append_assoc,List.cons_append,createDirDeeplyLoop_part plain_part noNul]
    by_cases empty : joined done part = []
    · -- the first part of a path from the root
      obtain ⟨rfl,rfl⟩ := joined_eq_nil empty
      have dir : dirs.kind (partsLand home ([] ++ [[]])) = some .dir := passed.dir
      obtain ⟨other,same⟩ := passed_dir dir
      rw [if_pos empty,supply_part other,supply_part_dropLast other,same]
      exact ih (passed.next plain_part dir) plain_rest from_next
    · have call := call_of_part passed.plain plain_part empty from_home (joined looked left ++ tail)
      rw [if_neg empty,fileExists,access,passed.stat call]
      cases there : dirs.kind (partsLand home (done ++ [part])) with
      | none =>
        have other : dirs.kind (partsLand home (done ++ [part])) ≠ some .file := by
          rw [there]
          decide
        obtain ⟨after,made,tree,cwd,passed⟩ := passed.mkdir_missing call there
        have from_after : after.start (joined (done ++ [part] ++ looked) left) = home := by
          rw [start,cwd]
          exact from_next
        rw [createDir,made,supply_part other,supply_part_dropLast other,← tree]
        obtain ⟨ok,leaves,still⟩ := ih passed plain_rest from_after
        exact ⟨ok,leaves,still.trans cwd⟩
      | some kind =>
        cases kind with
        | dir =>
          obtain ⟨other,same⟩ := passed_dir there
          rw [supply_part other,supply_part_dropLast other,same]
          exact ih (passed.next plain_part there) plain_rest from_next
        | file =>
          have skipped := createDirDeeplyLoop_file passed plain_part there plain_rest last ends from_home
          rw [supply_file there]
          refine ⟨?_,congrArg (fun result => result.2.toFileTree) skipped,congrArg (fun result => result.2.cwd) skipped⟩
          refine (congrArg Prod.fst skipped).trans ?_
          cases looked with
          | nil => rfl
          | cons next looked => rw [List.dropLast_cons_cons,supply_file there]; rfl

end Deeply

/-! `CreateDirIfMissing`: every part has to be a directory. -/

theorem findSlash_none {front rest : Bytes} (plain : slash ∉ rest) : findSlash (front ++ rest) front.length = none := by
  rw [findSlash,List.drop_left,Option.map_eq_none_iff,List.findIdx?_eq_none_iff]
  intro c member
  exact decide_eq_false fun same => plain (same ▸ member)

theorem findSlash_part {front part rest : Bytes} (plain : slash ∉ part) :
    findSlash (front ++ (part ++ slash :: rest)) front.length = some (front ++ part).length := by
  have before : part.findIdx? (· = slash) = none := by
    rw [List.findIdx?_eq_none_iff]
    intro c member
    exact decide_eq_false fun same => plain (same ▸ member)
  have here : (part ++ slash :: rest).findIdx? (· = slash) = some part.length := by
    rw [List.findIdx?_append,before]
    simp [List.findIdx?_cons]
  rw [findSlash,List.drop_left,here,List.length_append]
  rfl

section IfMissing
variable {dirs : Directories} {home : List Bytes} {done looked : List Bytes} {part left front rest path : Bytes} {fuel : Nat}

theorem createDirIfMissingLoop_last (plain : slash ∉ rest) :
    createDirIfMissingLoop (front ++ rest) (fuel + 1) dirs front.length =
      match createParent dirs (front ++ rest) with
      | none => some (false,dirs)
      | some dirs => some (true,dirs) := by
  rw [createDirIfMissingLoop,findSlash_none plain]

theorem createDirIfMissingLoop_part (plain : slash ∉ part) (nonempty : front ++ part ≠ []) :
    createDirIfMissingLoop (front ++ (part ++ slash :: rest)) (fuel + 1) dirs front.length =
      match createParent dirs (front ++ part) with
      | none => some (false,dirs)
      | some dirs => createDirIfMissingLoop (front ++ (part ++ slash :: rest)) fuel dirs (front ++ part ++ [slash]).length := by
  obtain ⟨n,length⟩ := Nat.exists_eq_succ_of_ne_zero (List.length_pos_of_ne_nil nonempty).ne'
  have taken : (front ++ (part ++ slash :: rest)).take (n + 1) = front ++ part := by
    rw [← List.append_assoc]
    exact List.take_left' length
  rw [createDirIfMissingLoop,findSlash_part plain,length]
  simp only [taken,List.length_append,List.length_singleton] at length ⊢
  rw [length]

theorem createDirIfMissingLoop_first : createDirIfMissingLoop (slash :: rest) (fuel + 1) dirs 0 =
    createDirIfMissingLoop (slash :: rest) fuel dirs 1 := by
  have found : findSlash (slash :: rest) 0 = some 0 := @findSlash_part [] [] rest List.not_mem_nil
  rw [createDirIfMissingLoop,found]
  rfl

theorem createParent_congr {parent other : Bytes} (same : cString parent = cString other) :
    createParent dirs parent = createParent dirs other := by
  simp only [createParent,stat,resolve,mkdir,same]

/-- What follows a NUL does not matter once the path before it is a directory. -/
theorem createDirIfMissingLoop_stays (dir : dirs.stat path = some .dir)
    (cut : ∀ more, more <+: rest → cString (front ++ more) = cString path) (enough : rest.count slash < fuel) :
    createDirIfMissingLoop (front ++ rest) fuel dirs front.length = some (true,dirs) := by
  have there : createParent dirs path = some dirs := by rw [createParent,dir]
  induction fuel generalizing front rest with
  | zero => exact absurd enough (Nat.not_lt_zero _)
  | succ fuel ih =>
    by_cases more : slash ∈ rest
    · obtain ⟨part,rest,rfl,plain⟩ := List.eq_append_cons_of_mem more
      have shown := cut part (List.prefix_append _ _)
      have nonempty : front ++ part ≠ [] := by
        intro empty
        rw [empty] at shown
        rw [stat,resolve,← shown] at dir
        exact absurd dir (by simp [cString])
      rw [createDirIfMissingLoop_part plain nonempty,createParent_congr shown,there]
      have whole : front ++ (part ++ slash :: rest) = front ++ part ++ [slash] ++ rest := by simp
      show createDirIfMissingLoop _ fuel dirs _ = _
      rw [whole]
      refine ih (fun more before => ?_) ?_
      · rw [List.append_assoc,List.append_assoc]
        exact cut _ ((List.prefix_append_right_inj part).mpr ((List.prefix_cons_inj slash).mpr before))
      · rw [List.count_append,List.count_cons_self] at enough
        omega
    · rw [createDirIfMissingLoop_last more,createParent_congr (cut rest (List.prefix_refl _)),there]

/-- Only a file is refused. -/
theorem Passed.createParent (passed : Passed dirs home done) (call : Call dirs home done part path) :
    dirs.kind (partsLand home (done ++ [part])) = some .file ∧ createParent dirs path = none ∨
      dirs.kind (partsLand home (done ++ [part])) ≠ some .file ∧ ∃ after, createParent dirs path = some after ∧
        after.toFileTree = dirs.ensure (partsLand home (done ++ [part])) ∧ after.cwd = dirs.cwd ∧
          Passed after home (done ++ [part]) := by
  rw [File.createParent,passed.stat call]
  cases there : dirs.kind (partsLand home (done ++ [part])) with
  | none => exact Or.inr ⟨by decide,passed.mkdir_missing call there⟩
  | some kind =>
    cases kind with
    | dir => exact Or.inr ⟨by decide,dirs,rfl,(passed_dir there).2.symm,rfl,passed.next call.plain there⟩
    | file => exact Or.inl ⟨rfl,rfl⟩

theorem cString_ends {tail : Bytes} {s : Bytes} (noNul : 0 ∉ s) (ends : tail = [] ∨ tail.head? = some 0) {more : Bytes}
    (before : more <+: tail) : cString (s ++ more) = s := by
  cases more with
  | nil => rw [List.append_nil,cString_eq noNul]
  | cons c more =>
    obtain ⟨rest,rfl⟩ := before
    have nul : c = 0 := by simpa using ends
    rw [nul,cString_cut noNul]

theorem Passed.init (passed : Passed dirs home (done ++ [part])) : Passed dirs home done :=
  ⟨fun other member => passed.plain other (List.mem_append_left _ member),fun comps before => passed.there comps (by
    rw [List.map_append]
    exact before.trans (List.prefix_append _ _))⟩

theorem start_congr {after : Directories} (cwd : after.cwd = dirs.cwd) (path : Bytes) : after.start path = dirs.start path := by
  rw [start,start,cwd]

/-- The whole path, which is looked at again at each slash behind a NUL. -/
theorem createDirIfMissingLoop_whole {tail : Bytes} (passed : Passed dirs home done) (last : Part left)
    (ends : tail = [] ∨ tail.head? = some 0) (nonempty : joined done left ≠ []) (from_home : dirs.start (joined done left) = home)
    (enough : tail.count slash < fuel) :
    ∃ result, createDirIfMissingLoop (joined done left ++ tail) fuel dirs (joined done []).length = some result ∧
      Leaves dirs result (dirs.supply (partsLand home done) [component left]).2
        (dirs.supply (partsLand home done) [component left]).1 := by
  have noNul := zero_not_mem_joined passed.plain last
  have shown {more : Bytes} (before : more <+: tail) := cString_ends noNul ends before
  have call {more : Bytes} (before : more <+: tail) : Passed.Call dirs home done left (joined done left ++ more) :=
    ⟨last,shown before,nonempty,from_home⟩
  obtain ⟨fuel,rfl⟩ := Nat.exists_eq_succ_of_ne_zero (Nat.ne_zero_of_lt enough)
  by_cases more : slash ∈ tail
  · obtain ⟨part,rest,rfl,plain⟩ := List.eq_append_cons_of_mem more
    have first := call (List.prefix_append part (slash :: rest))
    have in_part : slash ∉ left ++ part := List.not_mem_append last.1 plain
    have some_front : joined done [] ++ (left ++ part) ≠ [] := by
      rw [← List.append_assoc,← joined_left]
      exact List.append_ne_nil_of_left_ne_nil nonempty part
    have turn := @createDirIfMissingLoop_part dirs _ _ rest fuel in_part some_front
    rw [List.append_assoc,← List.append_assoc (joined done []),← List.append_assoc (joined done []),← joined_left] at turn
    rw [turn]
    obtain ⟨file,refused⟩ | ⟨other,after,made,tree,cwd,passed⟩ := passed.createParent first
    · rw [refused]
      exact ⟨_,rfl,congrArg Prod.snd (supply_file file []).symm,congrArg Prod.fst (supply_file file []).symm,rfl⟩
    · rw [made]
      have again : Passed.Call after home done left (joined done left) :=
        ⟨last,cString_eq noNul,nonempty,(start_congr cwd _).trans from_home⟩
      have dir : after.stat (joined done left) = some .dir := (passed.init.stat again).trans passed.dir
      have whole : joined done left ++ (part ++ slash :: rest) = joined done left ++ part ++ [slash] ++ rest := by simp
      have cut (more : Bytes) (before : more <+: rest) :
          cString (joined done left ++ part ++ [slash] ++ more) = cString (joined done left) := by
        rw [cString_eq noNul,List.append_assoc,List.append_assoc]
        exact shown ((List.prefix_append_right_inj part).mpr ((List.prefix_cons_inj slash).mpr before))
      rw [List.count_append,List.count_cons_self] at enough
      have stays := createDirIfMissingLoop_stays dir cut (by omega : rest.count slash < fuel)
      rw [← whole] at stays
      refine ⟨_,stays,congrArg Prod.snd (supply_part other []).symm,?_,cwd⟩
      exact tree.trans (congrArg Prod.fst (supply_part other []).symm)
  · have first := call (List.prefix_refl tail)
    have turn := @createDirIfMissingLoop_last dirs (joined done []) _ fuel (List.not_mem_append last.1 more)
    rw [← List.append_assoc,← joined_left] at turn
    rw [turn]
    obtain ⟨file,refused⟩ | ⟨other,after,made,tree,cwd,-⟩ := passed.createParent first
    · rw [refused]
      exact ⟨_,rfl,congrArg Prod.snd (supply_file file []).symm,congrArg Prod.fst (supply_file file []).symm,rfl⟩
    · rw [made]
      refine ⟨_,rfl,congrArg Prod.snd (supply_part other []).symm,?_,cwd⟩
      exact tree.trans (congrArg Prod.fst (supply_part other []).symm)

theorem createDirIfMissingLoop_run {tail : Bytes} (passed : Passed dirs home done) (plain : ∀ other ∈ looked, Part other)
    (last : Part left) (ends : tail = [] ∨ tail.head? = some 0) (nonempty : joined (done ++ looked) left ≠ [])
    (from_home : dirs.start (joined (done ++ looked) left) = home) (enough : looked.length + tail.count slash < fuel) :
    ∃ result, createDirIfMissingLoop (joined (done ++ looked) left ++ tail) fuel dirs (joined done []).length = some result ∧
      Leaves dirs result (dirs.supply (partsLand home done) ((looked ++ [left]).map component)).2
        (dirs.supply (partsLand home done) ((looked ++ [left]).map component)).1 := by
  induction looked generalizing dirs done fuel with
  | nil =>
    rw [List.append_nil] at nonempty from_home ⊢
    rw [List.length_nil,Nat.zero_add] at enough
    exact createDirIfMissingLoop_whole passed last ends nonempty from_home enough
  | cons part looked ih =>
    obtain ⟨plain_part,plain_rest⟩ := List.forall_mem_cons.mp plain
    obtain ⟨fuel,rfl⟩ := Nat.exists_eq_succ_of_ne_zero (Nat.ne_zero_of_lt enough)
    have from_next : dirs.start (joined (done ++ [part] ++ looked) left) = home := by rwa [List.append_assoc]
    have still : joined (done ++ [part] ++ looked) left ≠ [] := by rwa [List.append_assoc]
    have split : joined (done ++ part :: looked) left ++ tail = joined done [] ++ (part ++ slash :: (joined looked left ++ tail)) := by
      rw [joined_append,joined_left done part]
      simp
    have rest_enough : looked.length + tail.count slash < fuel := by
      rw [List.length_cons] at enough
      omega
    rw [split]
    by_cases empty : joined done part = []
    · obtain ⟨rfl,rfl⟩ := joined_eq_nil empty
      have dir : dirs.kind (partsLand home ([] ++ [[]])) = some .dir := passed.dir
      obtain ⟨other,same⟩ := passed_dir dir
      rw [List.cons_append,supply_part other,same]
      obtain ⟨result,run,leaves⟩ := ih (passed.next plain_part dir) plain_rest still from_next rest_enough
      exact ⟨result,createDirIfMissingLoop_first.trans run,leaves⟩
    · have shown := cString_eq (zero_not_mem_joined passed.plain plain_part)
      have from_here : dirs.start (joined done part) = home := by
        rw [← from_home]
        apply start_eq empty
        rw [joined_append]
        exact List.prefix_append _ _
      have call : Passed.Call dirs home done part (joined done part) := ⟨plain_part,shown,empty,from_here⟩
      rw [createDirIfMissingLoop_part plain_part.1 (by rwa [← joined_left]),← joined_left,List.cons_append]
      obtain ⟨file,refused⟩ | ⟨other,after,made,tree,cwd,passed⟩ := passed.createParent call
      · rw [refused,supply_file file]
        exact ⟨_,rfl,rfl,rfl,rfl⟩
      · obtain ⟨result,run,ok,leaves,kept⟩ := ih passed plain_rest still ((start_congr cwd _).trans from_next) rest_enough
        rw [List.append_assoc,List.singleton_append,split,joined_snoc] at run
        rw [made,supply_part other,← tree]
        exact ⟨result,run,ok,leaves,kept.trans cwd⟩

end IfMissing

end WebSearch.File
