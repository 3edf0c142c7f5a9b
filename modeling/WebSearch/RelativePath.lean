import WebSearch.LoadBuildFiles

/-! Where the result of `blade_util.relative_path` leads. -/
namespace WebSearch.RelativePath
open Library.PosixPath LoadBuildFiles

/-- From the directory of the reference, the relative path leads to the path. -/
def Leads (cwd aPath referencePath : String) : Prop :=
  ∃ rel, relativePath cwd aPath referencePath = .ok rel ∧
    normpath (join (abspath cwd referencePath) rel) = abspath cwd aPath

/-- As long as the segments agree but for the case, they are the same. -/
def SameCase : List String → List String → Prop
  | a :: as,b :: bs => a.toList.map Char.toLower = b.toList.map Char.toLower → a = b ∧ SameCase as bs
  | _,_ => True

instance decidableSameCase : (as bs : List String) → Decidable (SameCase as bs)
  | a :: as,b :: bs =>
    have := decidableSameCase as bs
    inferInstanceAs (Decidable (_ → a = b ∧ SameCase as bs))
  | [],_ => inferInstanceAs (Decidable True)
  | _ :: _,[] => inferInstanceAs (Decidable True)

theorem sameCase_iff (as bs : List String) : SameCase as bs ↔ as.take (shared as bs) = bs.take (shared as bs) := by
  induction as generalizing bs with
  | nil => simp [SameCase,shared]
  | cons a as ih =>
    cases bs with
    | nil => simp [SameCase,shared]
    | cons b bs =>
      rw [SameCase,shared]
      by_cases same : a.toList.map Char.toLower = b.toList.map Char.toLower
      · rw [if_pos same,List.take_succ_cons,List.take_succ_cons,List.cons.injEq,ih]
        exact ⟨fun both => both same,fun both _ => both⟩
      · rw [if_neg same]
        exact ⟨fun _ => rfl,fun _ wrong => absurd wrong same⟩

theorem shared_le (as bs : List String) : shared as bs ≤ as.length ∧ shared as bs ≤ bs.length := by
  induction as generalizing bs with
  | nil => simp [shared]
  | cons a as ih =>
    cases bs with
    | nil => simp [shared]
    | cons b bs =>
      rw [shared]
      split
      · exact ⟨Nat.succ_le_succ (ih bs).1,Nat.succ_le_succ (ih bs).2⟩
      · exact ⟨Nat.zero_le _,Nat.zero_le _⟩

theorem shared_replicate (n : Nat) (as bs : List String) :
    shared (List.replicate n "" ++ as) (List.replicate n "" ++ bs) = n + shared as bs := by
  induction n with
  | zero => simp
  | succ n ih =>
    rw [List.replicate_succ,List.cons_append,List.cons_append,shared,if_pos rfl,ih]
    omega

theorem sameCase_replicate (n : Nat) (as bs : List String) :
    SameCase (List.replicate n "" ++ as) (List.replicate n "" ++ bs) ↔ SameCase as bs := by
  induction n with
  | zero => rfl
  | succ n ih =>
    rw [List.replicate_succ,List.cons_append,List.cons_append,SameCase,ih]
    exact ⟨fun both => (both rfl).2,fun rest _ => ⟨rfl,rest⟩⟩

/-- The segments behind the slashes in front. -/
def below (comps : List (List Char)) : List String := if comps = [] then [""] else comps.map String.ofList

theorem segments_rootedText {path : String} {slashes : Nat} {comps : List (List Char)} (plain : ∀ comp ∈ comps, Plain comp)
    (text : path.toList = rootedText slashes comps) : segments path = List.replicate slashes "" ++ below comps := by
  rw [segments,text,splitOn_rootedText slashes plain,List.map_append,List.map_replicate,below]
  split <;> rfl

theorem map_toList_ofList (comps : List (List Char)) : (comps.map String.ofList).map String.toList = comps := by
  simp [Function.comp_def]

theorem below_cons (c : List Char) (comps : List (List Char)) : below (c :: comps) = (c :: comps).map String.ofList :=
  if_neg (List.cons_ne_nil c comps)

/-- The root has nothing in common with what is below it. -/
theorem shared_root {c : List Char} (some : c ≠ []) (comps : List (List Char)) :
    (shared (below []) (below (c :: comps)) = 0 ∧ SameCase (below []) (below (c :: comps))) ∧
      shared (below (c :: comps)) (below []) = 0 ∧ SameCase (below (c :: comps)) (below []) := by
  have apart : (String.ofList c).toList.map Char.toLower ≠ "".toList.map Char.toLower := by
    rw [String.toList_ofList]
    exact fun same => some (List.map_eq_nil_iff.mp same)
  rw [below_cons]
  exact ⟨⟨if_neg (Ne.symm apart),fun same => absurd same (Ne.symm apart)⟩,if_neg apart,fun same => absurd same apart⟩

/-- Where the steps up and the segments behind them lead. -/
theorem reached_iff {reference path : List (List Char)} (plain : ∀ comp ∈ reference, Plain comp)
    (plain' : ∀ comp ∈ path, Plain comp) :
    ((List.replicate ((below reference).length - shared (below reference) (below path)) ".." ++
        (below path).drop (shared (below reference) (below path))).map String.toList).foldl (normStep true) reference = path ↔
      SameCase (below reference) (below path) := by
  have up (k : Nat) : (List.replicate k "..").map String.toList = List.replicate k ['.','.'] := List.map_replicate
  rw [List.map_append,List.foldl_append,up,foldl_normStep_up _ plain]
  cases reference with
  | nil =>
    cases path with
    | nil => exact ⟨fun _ _ => ⟨rfl,trivial⟩,fun _ => rfl⟩
    | cons d path =>
      obtain ⟨⟨none,same⟩,-⟩ := shared_root (plain' d List.mem_cons_self).1 path
      rw [none,List.take_nil,List.drop_zero,below_cons,map_toList_ofList,foldl_normStep_plain true [] _ plain',List.nil_append,
        ← below_cons]
      exact iff_of_true rfl same
  | cons c reference =>
    have width : (below (c :: reference)).length = (c :: reference).length := by rw [below_cons,List.length_map]
    cases path with
    | nil =>
      obtain ⟨-,none,same⟩ := shared_root (plain c List.mem_cons_self).1 reference
      rw [none,width,Nat.sub_zero,Nat.sub_self]
      exact iff_of_true rfl same
    | cons d path =>
      have bound := (shared_le (below (c :: reference)) (below (d :: path))).1
      rw [sameCase_iff]
      generalize shared (below (c :: reference)) (below (d :: path)) = j at bound
      rw [width] at bound
      rw [width,Nat.sub_sub_self bound,below_cons,below_cons,List.map_drop,map_toList_ofList,← List.map_take,← List.map_take,
        foldl_normStep_plain true _ _ fun comp member => plain' comp (List.mem_of_mem_drop member)]
      constructor
      · intro same
        exact congrArg _ (List.append_cancel_right (same.trans (List.take_append_drop j (d :: path)).symm))
      · intro same
        have parts := congrArg (List.map String.toList) same
        rw [map_toList_ofList,map_toList_ofList] at parts
        rw [parts,List.take_append_drop]

theorem abspath_absolute (cwd : String) {path : String} (absolute : isabs path = true) :
    (abspath cwd path).toList = rootedText (initialSlashes path.toList) (normComps true path.toList) := by
  have slashes := initialSlashes_absolute absolute
  rw [abspath,if_pos absolute,normpath_rooted (by omega)]

theorem not_mem_segments {path segment : String} (member : segment ∈ segments path) : '/' ∉ segment.toList := by
  obtain ⟨part,there,rfl⟩ := List.mem_map.mp member
  rw [String.toList_ofList]
  exact not_mem_splitOn _ part there

/-- The segments of the result, from any directory. -/
theorem relativePath_segments (cwd : String) {aPath : String} (some : aPath ≠ "") (referencePath : String)
    (comps : List (List Char)) : ∃ rel, relativePath cwd aPath referencePath = .ok rel ∧ isabs rel = false ∧
      (rel.toList.splitOn '/').foldl (normStep true) comps =
        ((List.replicate ((segments (abspath cwd referencePath)).length -
            shared (segments (abspath cwd referencePath)) (segments (abspath cwd aPath))) ".." ++
          (segments (abspath cwd aPath)).drop
            (shared (segments (abspath cwd referencePath)) (segments (abspath cwd aPath)))).map String.toList).foldl
          (normStep true) comps := by
  rw [relativePath,if_neg some]
  dsimp only
  generalize (segments (abspath cwd referencePath)).length -
    shared (segments (abspath cwd referencePath)) (segments (abspath cwd aPath)) = k
  generalize shared (segments (abspath cwd referencePath)) (segments (abspath cwd aPath)) = j
  have inside (segment : String) (member : segment ∈ List.replicate k ".." ++ (segments (abspath cwd aPath)).drop j) :
      '/' ∉ segment.toList := by
    rcases List.mem_append.mp member with up | later
    · rw [List.eq_of_mem_replicate up]
      decide
    · exact not_mem_segments (List.mem_of_mem_drop later)
  generalize List.replicate k ".." ++ (segments (abspath cwd aPath)).drop j = list at inside
  cases list with
  | nil => exact ⟨".",rfl,by decide,rfl⟩
  | cons first rest =>
    obtain ⟨through,relative⟩ := foldl_normStep_joins true comps first inside
    exact ⟨_,rfl,relative,through⟩

/-- Exactly the same number of slashes in front and the same case as far as the paths agree. -/
theorem leads_iff (cwd aPath referencePath : String) (absolute : isabs aPath = true) (absolute' : isabs referencePath = true) :
    Leads cwd aPath referencePath ↔ initialSlashes aPath.toList = initialSlashes referencePath.toList ∧
      SameCase (segments (abspath cwd referencePath)) (segments (abspath cwd aPath)) := by
  have path := abspath_absolute cwd absolute
  have reference := abspath_absolute cwd absolute'
  have few := initialSlashes_absolute absolute
  have few' := initialSlashes_absolute absolute'
  have plain := normComps_rooted aPath.toList
  have plain' := normComps_rooted referencePath.toList
  generalize initialSlashes aPath.toList = slashes at path few
  generalize initialSlashes referencePath.toList = slashes' at reference few'
  generalize normComps true aPath.toList = comps at path plain
  generalize normComps true referencePath.toList = comps' at reference plain'
  have some : aPath ≠ "" := by
    rintro rfl
    exact absurd absolute (by decide)
  obtain ⟨rel,result,relative,through⟩ := relativePath_segments cwd some referencePath comps'
  have there := normpath_join few' plain' reference relative
  have plainThere := @foldl_normStep_rooted _ comps' (not_mem_splitOn rel.toList) plain'
  have leads : Leads cwd aPath referencePath ↔ slashes' = slashes ∧ (rel.toList.splitOn '/').foldl (normStep true) comps' = comps := by
    constructor
    · rintro ⟨other,same,leads⟩
      obtain rfl := Except.ok.inj (result.symm.trans same)
      rw [← String.toList_inj,there,path] at leads
      exact rootedText_injective few' few plainThere plain leads
    · rintro ⟨rfl,same⟩
      exact ⟨rel,result,String.toList_inj.mp (by rw [there,path,same])⟩
  rw [leads,eq_comm]
  apply and_congr_right
  rintro rfl
  rw [through,segments_rootedText plain path,segments_rootedText plain' reference,shared_replicate,sameCase_replicate,
    List.length_append,List.length_replicate,Nat.add_sub_add_left,List.drop_append,List.length_replicate,
    Nat.add_sub_cancel_left,List.drop_eq_nil_of_le (by rw [List.length_replicate]; omega),List.nil_append]
  exact reached_iff plain' plain

theorem leads_iff_sorted_buffer : Leads "/src" "/src/paralgo/mapreduce_lite/sorted_buffer" "/src/./paralgo" ↔
    initialSlashes "/src/paralgo/mapreduce_lite/sorted_buffer".toList = initialSlashes "/src/./paralgo".toList ∧
      SameCase (segments (abspath "/src" "/src/./paralgo"))
        (segments (abspath "/src" "/src/paralgo/mapreduce_lite/sorted_buffer")) :=
  leads_iff "/src" _ _ (by decide) (by decide)

theorem capital_not_leads : isabs "/src/Common" = true ∧ isabs "/src/common/base" = true ∧
    ¬Leads "/src" "/src/Common" "/src/common/base" := by
  refine ⟨by decide,by decide,?_⟩
  rintro ⟨rel,result,leads⟩
  have up : relativePath "/src" "/src/Common" "/src/common/base" = .ok ".." := by decide +kernel
  obtain rfl := Except.ok.inj (up.symm.trans result)
  exact absurd leads (by decide +kernel)

end WebSearch.RelativePath
