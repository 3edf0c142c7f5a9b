import Mathlib.Data.List.Basic
import Mathlib.Algebra.Order.BigOperators.Group.List
import Mathlib.Algebra.Order.Ring.Nat
import Mathlib.Data.List.Nodup
import Mathlib.Order.Defs.PartialOrder
import Mathlib.Order.Defs.Unbundled

/-! `ScacheManager` of `blade/build_environment.py`: which files of the scons cache are
removed when they have become too many. The weight of a file is a parameter. -/
namespace WebSearch.ScacheManager

structure CacheFile where
  path : String
  size : Nat
  atime : Int
  deriving DecidableEq

/-- What `glob` finds below the path of the cache; no path, no files. -/
structure Cache where
  cachePath : String
  files : List CacheFile
  distinct : (files.map CacheFile.path).Nodup
  named : ∀ file ∈ files, file.path ≠ ""
  rooted : cachePath = "" → files = []

/-- The loop of `get_file_list`, from an index on and with the size before it. -/
def startIndex (cacheLimit : Nat) : List CacheFile → Nat → Nat → Option Nat
  | [],_,_ => none
  | x :: rest,i,totalSz =>
    if cacheLimit ≤ totalSz + x.size then some i else startIndex cacheLimit rest (i + 1) (totalSz + x.size)

def cacheRemove (files : List CacheFile) (fileItem : String) : List CacheFile :=
  if fileItem = "" then files
  else if fileItem ∉ files.map CacheFile.path then files
  else files.filter fun file => file.path ≠ fileItem

/-- What is left, and what `console.info` prints. -/
def purge (files : List CacheFile) (fileList : List String) : List CacheFile × Option String :=
  if fileList = [] then (files,none) else (fileList.foldl cacheRemove files,some "scons cache purged")

section Weight
variable {ω : Type} [Preorder ω] [DecidableLE ω] (weight : CacheFile → ω)

/-- The heaviest first. -/
def fileStatList (files : List CacheFile) : List CacheFile := files.mergeSort fun a b => weight b ≤ weight a

/-- An index that is 0 counts as none. -/
def getFileList (cacheLimit : Nat) (cache : Cache) : List String :=
  if cache.cachePath = "" then []
  else if cache.files = [] then []
  else
    match startIndex cacheLimit (fileStatList weight cache.files) 0 0 with
    | none => []
    | some 0 => []
    | some start => ((fileStatList weight cache.files).drop start).map CacheFile.path

def remaining (cacheLimit : Nat) (cache : Cache) : List CacheFile := (purge cache.files (getFileList weight cacheLimit cache)).1

end Weight

def totalSize (files : List CacheFile) : Nat := (files.map CacheFile.size).sum

theorem totalSize_append (first second : List CacheFile) : totalSize (first ++ second) = totalSize first + totalSize second := by
  rw [totalSize,List.map_append,List.sum_append]
  rfl

theorem size_le {files : List CacheFile} {file : CacheFile} (member : file ∈ files) : file.size ≤ totalSize files := by
  obtain ⟨before,after,rfl⟩ := List.append_of_mem member
  rw [totalSize_append]
  exact Nat.le_trans (Nat.le_add_right file.size (totalSize after)) (Nat.le_add_left _ _)

theorem startIndex_cases (cacheLimit : Nat) (list : List CacheFile) (i : Nat) {totalSz : Nat} (small : totalSz < cacheLimit) :
    (startIndex cacheLimit list i totalSz = none ∧ totalSz + totalSize list < cacheLimit) ∨
    ∃ k, startIndex cacheLimit list i totalSz = some (i + k) ∧ totalSz + totalSize (list.take k) < cacheLimit ∧
      cacheLimit ≤ totalSz + totalSize (list.take (k + 1)) := by
  induction list generalizing i totalSz with
  | nil => exact .inl ⟨rfl,small⟩
  | cons x rest ih =>
    rw [startIndex]
    split
    next full => exact .inr ⟨0,rfl,small,full⟩
    next room =>
      rcases ih (i + 1) (Nat.lt_of_not_le room) with ⟨none,below⟩ | ⟨k,found,below,full⟩
      · rw [Nat.add_assoc] at below
        exact .inl ⟨none,below⟩
      · rw [Nat.add_assoc] at below full
        exact .inr ⟨k + 1,by rw [found,Nat.add_assoc,Nat.add_comm 1],below,full⟩

/-- What is removed are the files of these paths. -/
theorem foldl_cacheRemove {items : List String} (named : ∀ item ∈ items, item ≠ "") (files : List CacheFile) :
    items.foldl cacheRemove files = files.filter fun file => file.path ∉ items := by
  induction items generalizing files with
  | nil => simp
  | cons item items ih =>
    have step : cacheRemove files item = files.filter fun file => file.path ≠ item := by
      rw [cacheRemove,if_neg (named item List.mem_cons_self)]
      split
      next absent =>
        have other (file : CacheFile) (member : file ∈ files) : file.path ≠ item :=
          fun same => absent (same ▸ List.mem_map_of_mem member)
        exact (List.filter_eq_self.mpr fun file member => decide_eq_true (other file member)).symm
      next => rfl
    rw [List.foldl_cons,step,ih fun other member => named other (List.mem_cons_of_mem _ member),List.filter_filter]
    apply List.filter_congr
    intro file _
    simp [Bool.and_comm]

theorem purge_eq {items : List String} (named : ∀ item ∈ items, item ≠ "") (files : List CacheFile) :
    (purge files items).1 = files.filter fun file => file.path ∉ items := by
  rw [purge]
  split
  next none => simp [none]
  next => exact foldl_cacheRemove named files

section Heaviest
variable {ω : Type} [Preorder ω] [DecidableLE ω]

/-- The file that is first among the heaviest. -/
def Heaviest (weight : CacheFile → ω) (files : List CacheFile) (file : CacheFile) : Prop :=
  ∃ before after, files = before ++ file :: after ∧ (∀ other ∈ before, weight other < weight file) ∧
    ∀ other ∈ after, weight other ≤ weight file

/-- What is left is below the limit, what is removed is no heavier than what is left, and
nothing is removed without need. -/
structure Purged (weight : CacheFile → ω) (cacheLimit : Nat) (cache : Cache) : Prop where
  below : totalSize (remaining weight cacheLimit cache) < cacheLimit
  kept : (remaining weight cacheLimit cache).Sublist cache.files
  lighter : ∀ removed ∈ cache.files, removed ∉ remaining weight cacheLimit cache →
    ∀ file ∈ remaining weight cacheLimit cache, weight removed ≤ weight file
  unneeded : totalSize cache.files < cacheLimit → remaining weight cacheLimit cache = cache.files

theorem mem_of_pair {α : Type} {a b : α} {rest : List α} (pair : [a,b].Sublist (b :: rest)) : b ∈ rest := by
  cases pair with
  | cons _ pair => exact pair.subset (List.mem_cons_of_mem a List.mem_cons_self)
  | cons_cons _ pair => exact pair.subset List.mem_cons_self

variable (weight : CacheFile → ω)

theorem fileStatList_perm (files : List CacheFile) : (fileStatList weight files).Perm files := List.mergeSort_perm _ _

theorem trans_weight (a b c : CacheFile) (first : decide (weight b ≤ weight a) = true) (second : decide (weight c ≤ weight b) = true) :
    decide (weight c ≤ weight a) = true :=
  decide_eq_true (le_trans (of_decide_eq_true second) (of_decide_eq_true first))

/-- What is taken from the front has exactly the paths that are not removed. -/
theorem filter_perm {files sorted : List CacheFile} (perm : sorted.Perm files) (distinct : (files.map CacheFile.path).Nodup)
    (start : Nat) : (files.filter fun file => file.path ∉ (sorted.drop start).map CacheFile.path).Perm (sorted.take start) := by
  have apart := (perm.map CacheFile.path).nodup_iff.mpr distinct
  rw [← List.take_append_drop start sorted,List.map_append] at apart
  have disjoint := List.disjoint_of_nodup_append apart
  have taken : sorted.filter (fun file => file.path ∉ (sorted.drop start).map CacheFile.path) = sorted.take start := by
    conv => lhs; arg 2; rw [← List.take_append_drop start sorted]
    have front : (sorted.take start).filter (fun file => file.path ∉ (sorted.drop start).map CacheFile.path) = sorted.take start :=
      List.filter_eq_self.mpr fun file member => decide_eq_true fun removed => disjoint (List.mem_map_of_mem member) removed
    have back : (sorted.drop start).filter (fun file => file.path ∉ (sorted.drop start).map CacheFile.path) = [] :=
      List.filter_eq_nil_iff.mpr fun file member kept => of_decide_eq_true kept (List.mem_map_of_mem member)
    rw [List.filter_append,front,back,List.append_nil]
  rw [← taken]
  exact (perm.filter _).symm

theorem totalSize_perm {first second : List CacheFile} (perm : first.Perm second) : totalSize first = totalSize second :=
  (perm.map CacheFile.size).sum_nat

/-- Either nothing is removed, and the total is below the limit or the first file of the
sorted ones alone is not; or what is removed begins where the limit is reached. -/
theorem remaining_cases {cacheLimit : Nat} (positive : 0 < cacheLimit) (cache : Cache) :
    (remaining weight cacheLimit cache = cache.files ∧ (totalSize cache.files < cacheLimit ∨
      ∃ file, (fileStatList weight cache.files).head? = some file ∧ cacheLimit ≤ file.size)) ∨
    ∃ start, (remaining weight cacheLimit cache).Sublist cache.files ∧
      (remaining weight cacheLimit cache).Perm ((fileStatList weight cache.files).take start) ∧
      totalSize ((fileStatList weight cache.files).take start) < cacheLimit ∧ cacheLimit ≤ totalSize cache.files ∧
      ∀ file, (fileStatList weight cache.files).head? = some file → file.size < cacheLimit := by
  by_cases empty : cache.files = []
  · refine .inl ⟨?_,.inl (by rw [empty]; exact positive)⟩
    rw [remaining,getFileList,if_pos empty]
    split <;> rfl
  · have rooted : cache.cachePath ≠ "" := fun none => empty (cache.rooted none)
    have perm := fileStatList_perm weight cache.files
    have size := totalSize_perm perm
    rw [remaining,getFileList,if_neg rooted,if_neg empty]
    generalize fileStatList weight cache.files = sorted at perm size
    rcases startIndex_cases cacheLimit sorted 0 positive with ⟨none,below⟩ | ⟨k,found,below,full⟩
    · rw [none]
      exact .inl ⟨rfl,.inl (by omega)⟩
    · rw [Nat.zero_add] at found below full
      rw [found]
      have whole := congrArg totalSize (List.take_append_drop (k + 1) sorted)
      rw [totalSize_append] at whole
      cases k with
      | zero =>
        cases sorted with
        | nil => exact absurd full (Nat.not_le.mpr positive)
        | cons file rest => exact .inl ⟨rfl,.inr ⟨file,rfl,full⟩⟩
      | succ k =>
        have first (file : CacheFile) (begins : sorted.head? = some file) : file.size < cacheLimit := by
          obtain ⟨rest,rfl⟩ := List.head?_eq_some_iff.mp begins
          rw [List.take_succ_cons] at below
          exact Nat.lt_of_le_of_lt (Nat.le_add_right _ _) below
        have named (item : String) (member : item ∈ (sorted.drop (k + 1)).map CacheFile.path) : item ≠ "" := by
          obtain ⟨file,there,rfl⟩ := List.mem_map.mp member
          exact cache.named file (perm.mem_iff.mp (List.mem_of_mem_drop there))
        have left := purge_eq named cache.files
        refine .inr ⟨k + 1,?_,?_,below,by omega,first⟩
        · change (purge cache.files ((sorted.drop (k + 1)).map CacheFile.path)).1.Sublist cache.files
          rw [left]
          exact List.filter_sublist
        · change (purge cache.files ((sorted.drop (k + 1)).map CacheFile.path)).1.Perm (sorted.take (k + 1))
          rw [left]
          exact filter_perm perm cache.distinct (k + 1)

section Total
variable [Std.Total fun a b : ω => a ≤ b]

theorem total_weight (a b : CacheFile) : (decide (weight b ≤ weight a) || decide (weight a ≤ weight b)) = true := by
  rw [Bool.or_eq_true,decide_eq_true_eq,decide_eq_true_eq]
  exact Std.Total.total (weight b) (weight a)

theorem fileStatList_pairwise (files : List CacheFile) :
    (fileStatList weight files).Pairwise fun a b => weight b ≤ weight a :=
  (List.pairwise_mergeSort (trans_weight weight) (total_weight weight) files).imp of_decide_eq_true

/-- Sorting keeps the order of the files of one weight. -/
theorem heaviest_iff {files : List CacheFile} (distinct : files.Nodup) (file : CacheFile) :
    Heaviest weight files file ↔ (fileStatList weight files).head? = some file := by
  have perm := fileStatList_perm weight files
  have ordered := fileStatList_pairwise weight files
  have distinct' := perm.nodup_iff.mpr distinct
  have stable {a b : CacheFile} (heavier : weight b ≤ weight a) (pair : [a,b].Sublist files) :
      [a,b].Sublist (fileStatList weight files) :=
    List.pair_sublist_mergeSort (trans_weight weight) (total_weight weight) (decide_eq_true heavier) pair
  generalize fileStatList weight files = sorted at perm ordered distinct' stable
  constructor
  · rintro ⟨before,after,rfl,lighter,heavier⟩
    have member : file ∈ sorted := perm.mem_iff.mpr (List.mem_append_right before List.mem_cons_self)
    obtain ⟨first,rest,rfl⟩ := List.exists_cons_of_ne_nil (List.ne_nil_of_mem member)
    rcases List.mem_cons.mp member with same | later
    · rw [same,List.head?_cons]
    · have above : weight file ≤ weight first := (List.pairwise_cons.mp ordered).1 file later
      rcases List.mem_append.mp (perm.mem_iff.mp List.mem_cons_self) with front | back
      · exact absurd above (not_le_of_gt (lighter first front))
      · rcases List.mem_cons.mp back with same | behind
        · rw [same,List.head?_cons]
        · have pair : [file,first].Sublist (before ++ file :: after) :=
            ((List.singleton_sublist.mpr behind).cons_cons file).trans (List.sublist_append_right before _)
          exact absurd (mem_of_pair (stable (heavier first behind) pair)) (List.nodup_cons.mp distinct').1
  · intro begins
    obtain ⟨rest,rfl⟩ := List.head?_eq_some_iff.mp begins
    obtain ⟨before,after,rfl⟩ := List.append_of_mem (perm.mem_iff.mp List.mem_cons_self)
    have above (other : CacheFile) (member : other ∈ before ++ file :: after) : weight other ≤ weight file := by
      rcases List.mem_cons.mp (perm.mem_iff.mpr member) with same | later
      · rw [same]
      · exact (List.pairwise_cons.mp ordered).1 other later
    refine ⟨before,after,rfl,fun other front => ?_,fun other back => above other ?_⟩
    · refine lt_of_le_not_ge (above other (List.mem_append_left _ front)) fun heavier => ?_
      have pair : [other,file].Sublist (before ++ file :: after) :=
        (List.singleton_sublist.mpr front).append (List.singleton_sublist.mpr List.mem_cons_self)
      exact (List.nodup_cons.mp distinct').1 (mem_of_pair (stable heavier pair))
    · exact List.mem_append_right before (List.mem_cons_of_mem file back)

theorem purged_iff (cacheLimit : Nat) (cache : Cache) (positive : 0 < cacheLimit) :
    Purged weight cacheLimit cache ↔ ∀ file, Heaviest weight cache.files file → file.size < cacheLimit := by
  have distinct : cache.files.Nodup := cache.distinct.of_map
  have perm := fileStatList_perm weight cache.files
  have ordered := fileStatList_pairwise weight cache.files
  simp only [heaviest_iff weight distinct]
  rcases remaining_cases weight positive cache with ⟨same,below | ⟨file,begins,full⟩⟩ | ⟨start,kept,rest,below,full,first⟩
  · have small (file : CacheFile) (begins : (fileStatList weight cache.files).head? = some file) : file.size < cacheLimit :=
      Nat.lt_of_le_of_lt (size_le (perm.mem_iff.mp (List.mem_of_head? begins))) below
    refine iff_of_true ⟨?_,?_,?_,?_⟩ small
    · rw [same]
      exact below
    · rw [same]
    · intro removed member gone
      exact absurd member (same ▸ gone)
    · exact fun _ => same
  · refine iff_of_false (fun purged => ?_) fun small => absurd (small file begins) (Nat.not_lt.mpr full)
    have below := purged.below
    rw [same] at below
    have part := size_le (perm.mem_iff.mp (List.mem_of_head? begins))
    omega
  · refine iff_of_true ⟨?_,kept,?_,?_⟩ first
    · rw [totalSize_perm rest]
      exact below
    · intro removed member gone file there
      have split := List.take_append_drop start (fileStatList weight cache.files)
      have above := perm.mem_iff.mpr member
      rw [← split] at ordered above
      rcases List.mem_append.mp above with front | back
      · exact absurd (rest.mem_iff.mpr front) gone
      · exact (List.pairwise_append.mp ordered).2.2 file (rest.mem_iff.mp there) removed back
    · intro small
      exact absurd small (Nat.not_lt.mpr full)

end Total

end Heaviest

/-- Two files, the heavier one below the limit and both of them above it. -/
def twoFiles : Cache where
  cachePath := "/cache"
  files := [⟨"/cache/A/old",600,100⟩,⟨"/cache/B/new",500,200⟩]
  distinct := by decide
  named := by decide
  rooted := by decide

theorem twoFiles_purged : Purged (fun file => file.atime.toNat) 1000 twoFiles :=
  (purged_iff (fun file => file.atime.toNat) 1000 twoFiles (by decide)).mpr fun file heaviest => by
    have small : ∀ other ∈ twoFiles.files, other.size < 1000 := by decide
    obtain ⟨before,after,split,-⟩ := heaviest
    exact small file (split ▸ List.mem_append_right before List.mem_cons_self)

/-- One file, larger than the limit. -/
def oneFile : Cache where
  cachePath := "/cache"
  files := [⟨"/cache/A/large",2000,100⟩]
  distinct := by decide
  named := by decide
  rooted := by decide

theorem oneFile_not_purged : 0 < 1000 ∧ ¬Purged (fun file => file.atime.toNat) 1000 oneFile := by
  refine ⟨by decide,fun purged => ?_⟩
  have below := purged.below
  have sorted : fileStatList (fun file => file.atime.toNat) oneFile.files = oneFile.files := List.mergeSort_singleton _
  have left : remaining (fun file => file.atime.toNat) 1000 oneFile = oneFile.files := by
    rw [remaining,getFileList,sorted]
    rfl
  rw [left] at below
  exact absurd below (by decide)

end WebSearch.ScacheManager
