import WebSearch.CreateDirs

/-! `file/file.cc`: when `CreateDirDeeply` makes the directories of a path, and does the
same as `CreateDirIfMissing`. -/
namespace WebSearch.File
open Library Directories

/-! The parts of a path as it is given. -/

theorem cString_split (s : Bytes) : ∃ tail, s = cString s ++ tail ∧ (tail = [] ∨ tail.head? = some 0) := by
  by_cases nul : 0 ∈ s
  · obtain ⟨front,back,rfl,noNul⟩ := List.eq_append_cons_of_mem nul
    exact ⟨0 :: back,by rw [cString_cut noNul],Or.inr rfl⟩
  · exact ⟨[],by rw [cString_eq nul,List.append_nil],Or.inl rfl⟩

/-- What `CreateDirDeeply` looks at. -/
def looked (path : Bytes) : List Bytes := ((cString (withSlash path)).splitOn slash).dropLast

/-- What it does not look at. -/
def left (path : Bytes) : Bytes := ((cString (withSlash path)).splitOn slash).getLastD []

theorem looked_left (path : Bytes) : (cString (withSlash path)).splitOn slash = looked path ++ [left path] := by
  rw [looked,left,List.getLastD_eq_getLast?,List.getLast?_eq_some_getLast (List.splitOn_ne_nil _ _)]
  exact (List.dropLast_append_getLast (List.splitOn_ne_nil _ _)).symm

theorem parts_eq (path : Bytes) : (cString path).splitOn slash = looked path ++ [left path] ∨
    (cString path).splitOn slash = looked path ∧ left path = [] := by
  have split := looked_left path
  unfold withSlash at split
  split at split
  · exact Or.inl split
  · by_cases nul : 0 ∈ path
    · rw [cString_append_nul nul] at split
      exact Or.inl split
    · have own : cString [slash] = [slash] := by decide
      rw [cString_append nul,own,List.splitOn_append_cons_self,List.splitOn_nil] at split
      obtain ⟨before,last⟩ := List.append_inj' split rfl
      rw [cString_eq nul]
      exact Or.inr ⟨before,(List.singleton_inj.mp last).symm⟩

theorem joined_of_splitOn {s : Bytes} (noNul : 0 ∉ s) {parts : List Bytes} {last : Bytes} (split : s.splitOn slash = parts ++ [last]) :
    joined parts last = s ∧ (∀ part ∈ parts, Part part) ∧ Part last := by
  obtain ⟨own,own_last,plain,plain_last,rfl⟩ := exists_joined noNul
  rw [splitOn_joined plain plain_last] at split
  obtain ⟨rfl,same⟩ := List.append_inj' split rfl
  obtain rfl := List.singleton_inj.mp same
  exact ⟨rfl,plain,plain_last⟩

section Runs
variable (dirs : Directories) {path : Bytes}

theorem kind_start (path : Bytes) : dirs.kind (dirs.start path) = some .dir := by
  unfold start
  split
  · exact dirs.root
  · exact dirs.cwd_dir

theorem start_cString (path : Bytes) : dirs.start (cString path) = dirs.start path := by
  cases path with
  | nil => rfl
  | cons c path =>
    rw [cString_cons]
    split
    · rename_i nul
      rw [nul]
      rfl
    · rfl

theorem passed_none (path : Bytes) : Passed dirs (dirs.start path) [] :=
  ⟨fun _ member => absurd member List.not_mem_nil,fun comps before => by
    rw [List.prefix_nil.mp before]
    exact kind_start dirs path⟩

theorem createDirDeeply_run (nonempty : path ≠ []) : Leaves dirs (createDirDeeply dirs path)
    (dirs.supply (dirs.start path) ((looked path).dropLast.map component)).2
    (dirs.supply (dirs.start path) ((looked path).map component)).1 := by
  obtain ⟨tail,split,ends⟩ := cString_split (withSlash path)
  obtain ⟨whole,plain,last⟩ := joined_of_splitOn (zero_not_mem_cString _) (looked_left path)
  have from_home : dirs.start (joined ([] ++ looked path) (left path)) = dirs.start path := by
    rw [List.nil_append,whole,start_cString]
    unfold withSlash
    split
    · rfl
    · exact (start_eq nonempty (List.prefix_append path [slash])).symm
  have run := createDirDeeplyLoop_run (passed_none dirs path) plain last ends from_home
  rwa [whole,← split] at run

theorem createDirIfMissing_nothing (nothing : cString path = []) : createDirIfMissing dirs path = some (false,dirs) := by
  have refused {parent : Bytes} (shown : cString parent = []) : createParent dirs parent = none := by
    rw [@createParent_congr dirs parent [] shown]
    rfl
  by_cases more : slash ∈ path
  · obtain ⟨part,rest,rfl,plain⟩ := List.eq_append_cons_of_mem more
    have nonempty : [] ++ part ≠ [] := by
      rintro rfl
      exact absurd nothing (by rw [List.nil_append,cString_cons]; simp [slash])
    have shown : cString part = [] := List.eq_nil_of_prefix_nil (by
      rw [← nothing]
      by_cases nul : 0 ∈ part
      · rw [cString_append_nul nul]
      · rw [cString_append nul,cString_eq nul]
        exact List.prefix_append _ _)
    refine (@createDirIfMissingLoop_part dirs part [] rest _ plain nonempty).trans ?_
    rw [List.nil_append,refused shown]
  · refine (@createDirIfMissingLoop_last dirs [] path _ more).trans ?_
    rw [List.nil_append,refused nothing]

theorem length_joined (parts : List Bytes) (last : Bytes) : parts.length ≤ (joined parts last).length := by
  induction parts with
  | nil => exact Nat.zero_le _
  | cons part parts ih =>
    rw [joined_cons,List.length_append,List.length_cons,List.length_cons]
    omega

theorem createDirIfMissing_run (nonempty : cString path ≠ []) : ∃ result, createDirIfMissing dirs path = some result ∧
    Leaves dirs result (dirs.supply (dirs.start path) ((looked path ++ [left path]).map component)).2
      (dirs.supply (dirs.start path) ((looked path ++ [left path]).map component)).1 := by
  obtain ⟨tail,split,ends⟩ := cString_split path
  obtain ⟨parts,last,own⟩ : ∃ parts last, (cString path).splitOn slash = parts ++ [last] :=
    ⟨_,_,(List.dropLast_append_getLast (List.splitOn_ne_nil _ _)).symm⟩
  obtain ⟨whole,plain,plain_last⟩ := joined_of_splitOn (zero_not_mem_cString _) own
  have from_home : dirs.start (joined ([] ++ parts) last) = dirs.start path := by rw [List.nil_append,whole,start_cString]
  have enough : parts.length + tail.count slash < path.length + 1 := by
    have slashes := length_joined parts last
    have behind := List.count_le_length (a := slash) (l := tail)
    rw [whole] at slashes
    have length := congrArg List.length split
    rw [List.length_append] at length
    omega
  have run := createDirIfMissingLoop_run (passed_none dirs path) plain plain_last ends (by rwa [List.nil_append,whole]) from_home
    enough
  rw [List.nil_append,whole,← split,← own] at run
  have same : dirs.supply (partsLand (dirs.start path) []) (((cString path).splitOn slash).map component) =
      dirs.supply (dirs.start path) ((looked path ++ [left path]).map component) := by
    obtain parts | ⟨parts,nothing⟩ := parts_eq path
    · rw [parts]
      rfl
    · rw [parts,nothing,List.map_append]
      exact (FileTree.supply_here (kind_start dirs path)).symm
  rw [same] at run
  exact run

end Runs

/-! When the two agree. -/

/-- What is asked of `CreateDirDeeply`, and of the two together. -/
structure Agree (dirs : Directories) (path : Bytes) : Prop where
  makes : (createDirDeeply dirs path).1 = true → isDir (createDirDeeply dirs path).2 path = true ∧
    ∀ front, front ++ [slash] <+: path → (front ≠ [] → isDir (createDirDeeply dirs path).2 front = true) ∧
      isDir (createDirDeeply dirs path).2 (front ++ [slash]) = true
  same : ∃ result, createDirIfMissing dirs path = some result ∧ ((createDirDeeply dirs path).1 = true ↔ result.1 = true) ∧
    ∀ loc, (createDirDeeply dirs path).2.kind loc = some .dir ↔ result.2.kind loc = some .dir

/-- Among the parts that `CreateDirDeeply` looks at, one before the last leads to a file. -/
def Blocked (dirs : Directories) (path : Bytes) : Prop :=
  ∃ comps, comps <+: (looked path).dropLast.map component ∧ dirs.kind (FileTree.lands (dirs.start path) comps) = some .file

/-- The last of them does not, and then the rest leads to a directory that is there or on the way. -/
def Clear (dirs : Directories) (path : Bytes) : Prop :=
  cString path ≠ [] ∧ dirs.kind (partsLand (dirs.start path) (looked path)) ≠ some .file ∧
    (dirs.kind (partsLand (dirs.start path) (looked path ++ [left path])) = some .dir ∨
      ∃ comps, comps <+: (looked path).map component ∧
        FileTree.lands (dirs.start path) comps = partsLand (dirs.start path) (looked path ++ [left path]))

section Agreement
variable {dirs : Directories} {path : Bytes}

theorem not_blocked_iff : ¬Blocked dirs path ↔
    (dirs.supply (dirs.start path) ((looked path).dropLast.map component)).2 = true := by
  rw [FileTree.supply_iff (kind_start dirs path),Blocked]
  exact ⟨fun clear comps before file => clear ⟨comps,before,file⟩,fun clear ⟨comps,before,file⟩ => clear comps before file⟩

theorem prefix_map_iff {parts : List Bytes} {P : List (Component Bytes) → Prop} :
    (∀ comps, comps <+: parts.map component → P comps) ↔
      (∀ comps, comps <+: parts.dropLast.map component → P comps) ∧ P (parts.map component) := by
  constructor
  · intro all
    refine ⟨fun comps before => all comps (before.trans ?_),all _ (List.prefix_refl _)⟩
    exact (List.dropLast_prefix parts).map component
  · rintro ⟨init,whole⟩ comps before
    obtain rfl | ⟨front,last,rfl⟩ := List.eq_nil_or_concat' parts
    · exact init comps before
    · rw [List.dropLast_concat] at init
      rw [List.map_append,List.map_singleton,List.prefix_concat_iff] at before
      obtain rfl | before := before
      · rwa [List.map_append,List.map_singleton] at whole
      · exact init comps before

theorem looked_through_iff : (dirs.supply (dirs.start path) ((looked path).map component)).2 = true ↔
    ¬Blocked dirs path ∧ dirs.kind (partsLand (dirs.start path) (looked path)) ≠ some .file := by
  rw [not_blocked_iff,FileTree.supply_iff (kind_start dirs path),FileTree.supply_iff (kind_start dirs path)]
  exact prefix_map_iff

theorem blocked_nonempty (blocked : Blocked dirs path) : cString path ≠ [] := by
  intro nothing
  have none_looked : (looked path).dropLast = [] := by
    have single : (cString path).splitOn slash = [[]] := by rw [nothing,List.splitOn_nil]
    obtain parts | ⟨parts,-⟩ := parts_eq path
    · have front := congrArg List.dropLast (parts.symm.trans single)
      rw [List.dropLast_concat] at front
      rw [front]
      rfl
    · rw [parts.symm.trans single]
      rfl
  refine not_blocked_iff.mpr ?_ blocked
  rw [none_looked]
  rfl

theorem agree_of_blocked (nonempty : path ≠ []) (blocked : Blocked dirs path) : Agree dirs path := by
  have stopped : (dirs.supply (dirs.start path) ((looked path).dropLast.map component)).2 = false :=
    Bool.eq_false_iff.mpr fun through => not_blocked_iff.mpr through blocked
  obtain ⟨rest,split⟩ := (List.dropLast_prefix (looked path)).map component
  have before := FileTree.supply_append_blocked stopped rest
  rw [split] at before
  obtain ⟨refused,tree,-⟩ := createDirDeeply_run dirs nonempty
  obtain ⟨result,run,ok,leaves,-⟩ := createDirIfMissing_run dirs (blocked_nonempty blocked)
  rw [List.map_append,FileTree.supply_append_blocked (by rw [before,stopped])] at ok leaves
  refine ⟨fun made => absurd (refused.symm.trans made) (by rw [stopped]; exact Bool.false_ne_true),result,run,?_,fun loc => ?_⟩
  · rw [refused,ok,before]
  · rw [tree,leaves]

theorem isDir_of_dirs {after : Directories} {front : Bytes} {comps : List (Component Bytes)} (cwd : after.cwd = dirs.cwd)
    (nonempty : cString front ≠ []) (begins : cString front <+: cString path)
    (within : ((cString front).splitOn slash).map component <+: comps)
    (there : ∀ part, part <+: comps → after.kind (FileTree.lands (dirs.start path) part) = some .dir) :
    isDir after front = true := by
  have from_home : after.start (cString front) = dirs.start path := by
    rw [start_congr cwd,start_eq nonempty begins,start_cString]
  have resolved : after.resolve front = some (FileTree.lands (dirs.start path) (((cString front).splitOn slash).map component)) := by
    rw [resolve]
    show ite _ _ _ = _
    rw [if_neg nonempty,walkParts,from_home]
    exact FileTree.walk_of_dirs fun part before => there part (before.trans within)
  rw [isDir,stat,resolved,Option.bind_some,there _ within]
  rfl

theorem isDir_congr {front : Bytes} (same : cString front = cString path) : isDir dirs front = isDir dirs path := by
  have found : dirs.stat front = dirs.stat path := by rw [stat,stat,resolve,resolve,same]
  rw [isDir,isDir,found]

/-- With the directories of the path there are those that its slashes end. -/
theorem isDir_before {after : Directories} {front : Bytes} (cwd : after.cwd = dirs.cwd)
    (there : ∀ comps, comps <+: ((cString path).splitOn slash).map component →
      after.kind (FileTree.lands (dirs.start path) comps) = some .dir)
    (whole : isDir after path = true) (slashed : front ++ [slash] <+: path) :
    (front ≠ [] → isDir after front = true) ∧ isDir after (front ++ [slash]) = true := by
  obtain ⟨rest,rfl⟩ := slashed
  rw [List.append_assoc] at whole there
  by_cases nul : 0 ∈ front
  · have same {more : Bytes} : cString (front ++ more) = cString front := cString_append_nul nul more
    rw [isDir_congr same] at whole
    exact ⟨fun _ => whole,(isDir_congr same).trans whole⟩
  · have shown : cString (front ++ ([slash] ++ rest)) = front ++ slash :: cString rest := cString_append nul _
    rw [shown,List.splitOn_append_cons_self,List.map_append] at there
    have own : cString (front ++ [slash]) = front ++ [slash] := cString_append nul _
    constructor
    · intro nonempty
      refine isDir_of_dirs cwd (by rwa [cString_eq nul]) ?_ ?_ there
      · rw [cString_eq nul,shown]
        exact List.prefix_append _ _
      · rw [cString_eq nul]
        exact List.prefix_append _ _
    · have begins : cString (front ++ [slash]) <+: cString (front ++ ([slash] ++ rest)) := by
        rw [own,shown]
        exact ⟨cString rest,by rw [List.append_assoc]; rfl⟩
      refine isDir_of_dirs cwd (by rw [own]; simp) begins (List.prefix_refl _) fun comps before => ?_
      rw [own,List.splitOn_append_cons_self,List.splitOn_nil,List.map_append,List.map_singleton,List.prefix_concat_iff] at before
      obtain rfl | before := before
      · rw [FileTree.lands,List.foldl_append]
        exact there _ (List.prefix_append _ _)
      · exact there comps (before.trans (List.prefix_append _ _))

theorem agree_of_clear (nonempty : path ≠ []) (free : ¬Blocked dirs path) (clear : Clear dirs path) : Agree dirs path := by
  obtain ⟨some_path,last,onward⟩ := clear
  have through := looked_through_iff.mpr ⟨free,last⟩
  have kinds := FileTree.supply_kind (kind_start dirs path) through
  have there : (dirs.supply (dirs.start path) ((looked path).map component)).1.kind
      (partsLand (dirs.start path) (looked path ++ [left path])) = some .dir := (kinds _).mpr onward
  have same : dirs.supply (dirs.start path) ((looked path ++ [left path]).map component) =
      ((dirs.supply (dirs.start path) ((looked path).map component)).1,true) := by
    rw [List.map_append,List.map_singleton,FileTree.supply_append through]
    rw [partsLand_snoc] at there
    exact FileTree.supply_dir there
  obtain ⟨ok,tree,cwd⟩ := createDirDeeply_run dirs nonempty
  obtain ⟨result,run,ok',tree',-⟩ := createDirIfMissing_run dirs some_path
  rw [same] at ok' tree'
  have all_dirs (comps : List (Component Bytes)) (before : comps <+: (looked path ++ [left path]).map component) :
      (createDirDeeply dirs path).2.kind (FileTree.lands (dirs.start path) comps) = some .dir := by
    rw [tree]
    rw [List.map_append,List.map_singleton,List.prefix_concat_iff] at before
    obtain rfl | before := before
    · rwa [partsLand,List.map_append,List.map_singleton] at there
    · exact (kinds _).mpr (Or.inr ⟨comps,before,rfl⟩)
  have within : ((cString path).splitOn slash).map component <+: (looked path ++ [left path]).map component := by
    obtain parts | ⟨parts,-⟩ := parts_eq path
    · rw [parts]
    · rw [parts]
      exact (List.prefix_append _ _).map component
  have whole := isDir_of_dirs cwd some_path (List.prefix_refl _) within all_dirs
  refine ⟨fun _ => ⟨whole,fun front => isDir_before cwd (fun comps before => all_dirs comps (before.trans within)) whole⟩,
    result,run,?_,fun loc => by rw [tree,tree']⟩
  rw [ok,ok']
  exact iff_of_true (not_blocked_iff.mp free) rfl

theorem clear_of_agree (nonempty : path ≠ []) (free : ¬Blocked dirs path) (agree : Agree dirs path) : Clear dirs path := by
  obtain ⟨ok,tree,-⟩ := createDirDeeply_run dirs nonempty
  obtain ⟨result,run,same,kinds⟩ := agree.same
  rw [not_blocked_iff.mp free] at ok
  have made := same.mp ok
  have some_path : cString path ≠ [] := by
    intro nothing
    obtain rfl := Option.some.inj ((createDirIfMissing_nothing dirs nothing).symm.trans run)
    exact Bool.false_ne_true made
  obtain ⟨result,run',ok',tree',-⟩ := createDirIfMissing_run dirs some_path
  obtain rfl := Option.some.inj (run'.symm.trans run)
  rw [ok'] at made
  have all := (FileTree.supply_iff (kind_start dirs path)).mp made
  have last : dirs.kind (partsLand (dirs.start path) (looked path)) ≠ some .file :=
    all _ ((List.prefix_append _ _).map component)
  refine ⟨some_path,last,?_⟩
  have through := looked_through_iff.mpr ⟨free,last⟩
  have there : result.2.kind (partsLand (dirs.start path) (looked path ++ [left path])) = some .dir := by
    rw [tree',FileTree.supply_kind (kind_start dirs path) made]
    exact Or.inr ⟨_,List.prefix_refl _,rfl⟩
  have before := (kinds _).mpr there
  rwa [tree,FileTree.supply_kind (kind_start dirs path) through] at before

/-- The two agree unless a part leads to a file that only the last call could notice, or
is not looked at by one of them. -/
theorem agree_iff (nonempty : path ≠ []) : Agree dirs path ↔ Blocked dirs path ∨ Clear dirs path := by
  by_cases blocked : Blocked dirs path
  · exact iff_of_true (agree_of_blocked nonempty blocked) (Or.inl blocked)
  · rw [or_iff_right blocked]
    exact ⟨clear_of_agree nonempty blocked,agree_of_clear nonempty blocked⟩

/-- Without NULs it is the path, less a slash at its end, that must not lead to a file. -/
theorem clear_iff (nonempty : path ≠ []) (noNul : 0 ∉ path) :
    Clear dirs path ↔ dirs.kind (partsLand (dirs.start path) (looked path)) ≠ some .file := by
  have slashed : ∃ front, withSlash path = front ++ [slash] := by
    unfold withSlash
    split
    · rename_i ends
      obtain ⟨front,rfl⟩ := List.getLast?_eq_some_iff.mp ends
      exact ⟨front,rfl⟩
    · exact ⟨path,rfl⟩
  have plain : 0 ∉ withSlash path := by
    unfold withSlash
    split
    · exact noNul
    · exact List.not_mem_append noNul (by decide)
  have nothing : left path = [] := by
    obtain ⟨front,split⟩ := slashed
    rw [left,cString_eq plain,split,List.splitOn_append_cons_self,List.splitOn_nil,List.getLastD_concat]
  rw [Clear,cString_eq noNul,and_iff_right nonempty,and_iff_left_iff_imp,nothing]
  intro _
  refine Or.inr ⟨_,List.prefix_refl _,?_⟩
  rw [partsLand_snoc]
  rfl

end Agreement

theorem agree_missing : Agree oneFile [100] :=
  (agree_iff (by decide)).mpr (Or.inr ((clear_iff (by decide) (by decide)).mpr (by decide)))

/-- `CreateDirDeeply` is content with a file. -/
theorem agree_not_file : ¬Agree oneFile [102] := by
  intro agree
  have found := (agree.makes rfl).1
  exact absurd found (by decide)

end WebSearch.File
