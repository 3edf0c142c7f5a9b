import Mathlib.Data.List.Infix
import Mathlib.Logic.Function.Basic

/-! Trees of directories and files, and the ways through them that paths describe. A
location is a list of names, the innermost first. -/
namespace WebSearch.Library

theorem prefix_cons_forall {α : Type*} {a : α} {l : List α} {P : List α → Prop} :
    (∀ part, part <+: a :: l → P part) ↔ P [] ∧ ∀ part, part <+: l → P (a :: part) := by
  constructor
  · exact fun all => ⟨all [] List.nil_prefix,fun part before => all _ ((List.prefix_cons_inj a).mpr before)⟩
  · rintro ⟨empty,more⟩ part before
    obtain rfl | ⟨rest,rfl,within⟩ := List.prefix_cons_iff.mp before
    · exact empty
    · exact more rest within

theorem prefix_cons_exists {α : Type*} {a : α} {l : List α} {P : List α → Prop} :
    (∃ part, part <+: a :: l ∧ P part) ↔ P [] ∨ ∃ part, part <+: l ∧ P (a :: part) := by
  rw [← not_iff_not,not_or]
  simp only [not_exists,not_and]
  exact prefix_cons_forall

inductive FileKind where
  | dir
  | file
deriving DecidableEq

inductive Component (Name : Type*) where
  | here
  | up
  | name (n : Name)

structure FileTree (Name : Type*) where
  kind : List Name → Option FileKind
  root : kind [] = some .dir
  parent : ∀ name dir, kind (name :: dir) ≠ none → kind dir = some .dir

namespace FileTree
variable {Name : Type*}

def move (loc : List Name) : Component Name → List Name
  | .here => loc
  | .up => loc.tail
  | .name n => n :: loc

/-- Where a path leads if nothing is missing. -/
def lands (loc : List Name) (comps : List (Component Name)) : List Name := comps.foldl move loc

/-- Only in a directory there is something to go on to. -/
def enter (tree : FileTree Name) (loc : List Name) (comp : Component Name) : Option (List Name) :=
  if tree.kind loc = some .dir ∧ tree.kind (move loc comp) ≠ none then some (move loc comp) else none

def walk (tree : FileTree Name) (loc : List Name) (comps : List (Component Name)) : Option (List Name) :=
  comps.foldlM tree.enter loc

theorem kind_tail {tree : FileTree Name} {loc : List Name} (dir : tree.kind loc = some .dir) :
    tree.kind loc.tail = some .dir := by
  cases loc with
  | nil => exact tree.root
  | cons name loc => exact tree.parent name loc (by rw [dir]; exact Option.some_ne_none _)

/-- What is not a directory is reached by a name only. -/
theorem move_name {tree : FileTree Name} {loc : List Name} {comp : Component Name} (dir : tree.kind loc = some .dir)
    (other : tree.kind (move loc comp) ≠ some .dir) : ∃ n, comp = .name n := by
  cases comp with
  | here => exact absurd dir other
  | up => exact absurd (kind_tail dir) other
  | name n => exact ⟨n,rfl⟩

theorem enter_of_some {tree : FileTree Name} {loc : List Name} {comp : Component Name} (dir : tree.kind loc = some .dir)
    (there : tree.kind (move loc comp) ≠ none) : tree.enter loc comp = some (move loc comp) :=
  if_pos ⟨dir,there⟩

theorem enter_of_none {tree : FileTree Name} {loc : List Name} {comp : Component Name}
    (missing : tree.kind (move loc comp) = none) : tree.enter loc comp = none :=
  if_neg fun both => both.2 missing

theorem enter_file {tree : FileTree Name} {loc : List Name} (file : tree.kind loc = some .file) (comp : Component Name) :
    tree.enter loc comp = none :=
  if_neg fun both => absurd (file.symm.trans both.1) (by decide)

theorem enter_eq_some {tree : FileTree Name} {loc next : List Name} {comp : Component Name}
    (entered : tree.enter loc comp = some next) : tree.kind loc = some .dir ∧ move loc comp = next := by
  unfold enter at entered
  split at entered
  · rename_i there
    exact ⟨there.1,Option.some.inj entered⟩
  · exact absurd entered (Option.some_ne_none _).symm

theorem walk_append (tree : FileTree Name) (loc : List Name) (comps more : List (Component Name)) :
    tree.walk loc (comps ++ more) = (tree.walk loc comps).bind fun loc => tree.walk loc more :=
  List.foldlM_append

theorem walk_singleton (tree : FileTree Name) (loc : List Name) (comp : Component Name) :
    tree.walk loc [comp] = tree.enter loc comp := by
  rw [walk,List.foldlM_cons]
  exact Option.bind_fun_some (tree.enter loc comp)

theorem walk_snoc {tree : FileTree Name} {loc dir : List Name} {comps : List (Component Name)}
    (before : tree.walk loc comps = some dir) (comp : Component Name) :
    tree.walk loc (comps ++ [comp]) = tree.enter dir comp := by
  rw [walk_append,before,Option.bind_some,walk_singleton]

theorem walk_of_dirs {tree : FileTree Name} {loc : List Name} {comps : List (Component Name)}
    (dirs : ∀ part, part <+: comps → tree.kind (lands loc part) = some .dir) :
    tree.walk loc comps = some (lands loc comps) := by
  induction comps generalizing loc with
  | nil => rfl
  | cons comp comps ih =>
    have here : tree.kind loc = some .dir := dirs [] List.nil_prefix
    have next : tree.kind (move loc comp) = some .dir := dirs [comp] (List.prefix_append [comp] comps)
    rw [walk,List.foldlM_cons,enter_of_some here (by rw [next]; exact Option.some_ne_none _)]
    exact ih fun part before => dirs (comp :: part) ((List.prefix_cons_inj comp).mpr before)

section Making
variable [DecidableEq Name]

def addDir (tree : FileTree Name) (dir : List Name) (name : Name) (there : tree.kind dir = some .dir) : FileTree Name where
  kind := Function.update tree.kind (name :: dir) (some .dir)
  root := by
    rw [Function.update_of_ne (List.cons_ne_nil name dir).symm]
    exact tree.root
  parent other loc some := by
    by_cases same : other :: loc = name :: dir
    · obtain ⟨-,rfl⟩ := List.cons.inj same
      rwa [Function.update_of_ne (List.cons_ne_self name loc).symm]
    · rw [Function.update_of_ne same] at some
      by_cases here : loc = name :: dir
      · rw [here,Function.update_self]
      · rw [Function.update_of_ne here]
        exact tree.parent other loc some

/-- A missing location below a directory becomes one. -/
def ensure (tree : FileTree Name) : List Name → FileTree Name
  | [] => tree
  | name :: dir =>
    if there : tree.kind dir = some .dir ∧ tree.kind (name :: dir) = none then tree.addDir dir name there.1 else tree

theorem ensure_of_some {tree : FileTree Name} {loc : List Name} (there : tree.kind loc ≠ none) : tree.ensure loc = tree := by
  cases loc with
  | nil => rfl
  | cons name dir => exact dif_neg fun both => there both.2

/-- The components one after another, with what is missing made, until one leads to a file. -/
def supply (tree : FileTree Name) (loc : List Name) : List (Component Name) → FileTree Name × Bool
  | [] => (tree,true)
  | comp :: comps =>
    if tree.kind (move loc comp) = some .file then (tree,false)
    else supply (tree.ensure (move loc comp)) (move loc comp) comps

variable {tree : FileTree Name} {loc : List Name}

theorem ensure_kind {comp : Component Name} (dir : tree.kind loc = some .dir)
    (other : tree.kind (move loc comp) ≠ some .file) :
    (tree.ensure (move loc comp)).kind = Function.update tree.kind (move loc comp) (some .dir) := by
  cases there : tree.kind (move loc comp) with
  | some kind =>
    have is_dir : kind = .dir := by
      cases kind with
      | dir => rfl
      | file => exact absurd there other
    rw [ensure_of_some (by rw [there]; exact Option.some_ne_none _),Function.eq_update_iff,there,is_dir]
    exact ⟨rfl,fun _ _ => rfl⟩
  | none =>
    obtain ⟨n,rfl⟩ := move_name dir (by rw [there]; exact (Option.some_ne_none _).symm)
    exact congrArg kind (dif_pos ⟨dir,there⟩)

/-- It goes through unless a file is in the way. -/
theorem supply_iff {comps : List (Component Name)} (dir : tree.kind loc = some .dir) :
    (tree.supply loc comps).2 = true ↔ ∀ part, part <+: comps → tree.kind (lands loc part) ≠ some .file := by
  induction comps generalizing tree loc with
  | nil =>
    refine iff_of_true rfl fun part before => ?_
    rw [List.prefix_nil.mp before,lands,List.foldl_nil,dir]
    decide
  | cons comp comps ih =>
    have here : tree.kind (lands loc []) ≠ some .file := by
      rw [lands,List.foldl_nil,dir]
      decide
    rw [supply,prefix_cons_forall,and_iff_right here]
    split
    · rename_i file
      exact iff_of_false Bool.false_ne_true fun all => all [] List.nil_prefix file
    · rename_i other
      have kinds := ensure_kind dir other
      rw [ih (by rw [kinds,Function.update_self]),kinds]
      refine forall₂_congr fun part before => not_congr ?_
      show Function.update _ _ _ (lands (move loc comp) part) = _ ↔ tree.kind (lands (move loc comp) part) = _
      by_cases same : lands (move loc comp) part = move loc comp
      · rw [same,Function.update_self]
        exact iff_of_false (by decide) other
      · rw [Function.update_of_ne same]

/-- What has been made is what the components lead to. -/
theorem supply_kind {comps : List (Component Name)} (dir : tree.kind loc = some .dir) (through : (tree.supply loc comps).2 = true)
    (l : List Name) :
    (tree.supply loc comps).1.kind l = some .dir ↔ tree.kind l = some .dir ∨ ∃ part, part <+: comps ∧ lands loc part = l := by
  induction comps generalizing tree loc with
  | nil =>
    rw [supply,or_iff_left_of_imp]
    rintro ⟨part,before,rfl⟩
    rwa [List.prefix_nil.mp before]
  | cons comp comps ih =>
    rw [supply] at through ⊢
    split at through
    · exact absurd through Bool.false_ne_true
    · rename_i other
      have kinds := ensure_kind dir other
      rw [if_neg other,ih (by rw [kinds,Function.update_self]) through,kinds,prefix_cons_exists]
      by_cases here : l = move loc comp
      · refine iff_of_true (Or.inl (by rw [here,Function.update_self])) (Or.inr (Or.inr ⟨[],List.nil_prefix,here.symm⟩))
      · rw [Function.update_of_ne here,← or_assoc]
        refine or_congr_left (or_iff_left_of_imp ?_).symm
        intro same
        rw [← same]
        exact dir

theorem supply_append {comps more : List (Component Name)} (through : (tree.supply loc comps).2 = true) :
    tree.supply loc (comps ++ more) = (tree.supply loc comps).1.supply (lands loc comps) more := by
  induction comps generalizing tree loc with
  | nil => rfl
  | cons comp comps ih =>
    rw [supply] at through
    split at through
    · exact absurd through Bool.false_ne_true
    · rename_i other
      rw [List.cons_append,supply,supply,if_neg other,if_neg other]
      exact ih through

/-- Nothing is made after a file. -/
theorem supply_append_blocked {comps : List (Component Name)} (blocked : (tree.supply loc comps).2 = false)
    (more : List (Component Name)) : tree.supply loc (comps ++ more) = tree.supply loc comps := by
  induction comps generalizing tree loc with
  | nil => exact absurd blocked.symm Bool.false_ne_true
  | cons comp comps ih =>
    rw [supply] at blocked
    rw [List.cons_append,supply,supply]
    split at blocked
    · rename_i file
      rw [if_pos file,if_pos file]
    · rename_i other
      rw [if_neg other,if_neg other]
      exact ih blocked

theorem supply_dir {comp : Component Name} (there : tree.kind (move loc comp) = some .dir) :
    tree.supply loc [comp] = (tree,true) := by
  have other : tree.kind (move loc comp) ≠ some .file := by
    rw [there]
    decide
  rw [supply,if_neg other,ensure_of_some (by rw [there]; exact Option.some_ne_none _),supply]

theorem supply_here {comps : List (Component Name)} (dir : tree.kind loc = some .dir) :
    tree.supply loc (comps ++ [.here]) = tree.supply loc comps := by
  cases through : (tree.supply loc comps).2 with
  | false => exact supply_append_blocked through _
  | true =>
    have last := (supply_kind dir through (lands loc comps)).mpr (Or.inr ⟨comps,List.prefix_refl comps,rfl⟩)
    rw [supply_append through,supply_dir last,← through]

end Making

section Removing
variable [DecidableEq Name]

/-- Nothing may be below what is removed. -/
def remove (tree : FileTree Name) (dir : List Name) (name : Name) (leaf : ∀ sub, tree.kind (sub :: name :: dir) = none) :
    FileTree Name where
  kind := Function.update tree.kind (name :: dir) none
  root := by
    rw [Function.update_of_ne (List.cons_ne_nil name dir).symm]
    exact tree.root
  parent other loc some := by
    by_cases same : other :: loc = name :: dir
    · rw [same,Function.update_self] at some
      exact absurd rfl some
    · rw [Function.update_of_ne same] at some
      have above : loc ≠ name :: dir := by
        rintro rfl
        exact some (leaf other)
      rw [Function.update_of_ne above]
      exact tree.parent other loc some

end Removing

/-- Only what the way visits has to be the same. -/
theorem walk_congr {tree other : FileTree Name} {loc : List Name} {comps : List (Component Name)}
    (same : ∀ part, part <+: comps → other.kind (lands loc part) = tree.kind (lands loc part)) :
    other.walk loc comps = tree.walk loc comps := by
  induction comps generalizing loc with
  | nil => rfl
  | cons comp comps ih =>
    rw [prefix_cons_forall] at same
    obtain ⟨here,more⟩ := same
    have next : other.kind (move loc comp) = tree.kind (move loc comp) := more [] List.nil_prefix
    have here : other.kind loc = tree.kind loc := here
    have entered : other.enter loc comp = tree.enter loc comp := by rw [enter,enter,here,next]
    rw [walk,walk,List.foldlM_cons,List.foldlM_cons,entered]
    unfold enter
    split
    · exact ih more
    · rfl

theorem walk_lands {tree : FileTree Name} {loc last : List Name} {comps : List (Component Name)}
    (walked : tree.walk loc comps = some last) : lands loc comps = last := by
  induction comps generalizing loc with
  | nil => exact Option.some.inj walked
  | cons comp comps ih =>
    rw [walk,List.foldlM_cons] at walked
    obtain ⟨next,entered,walked⟩ := Option.bind_eq_some_iff.mp walked
    obtain ⟨-,rfl⟩ := enter_eq_some entered
    exact ih walked

/-- Without a way up each part of the way is above its end. -/
theorem lands_suffix {comps part : List (Component Name)} (loc : List Name) (down : .up ∉ comps) (before : part <+: comps) :
    lands loc part <:+ lands loc comps := by
  obtain ⟨rest,rfl⟩ := before
  rw [lands,lands,List.foldl_append]
  replace down : .up ∉ rest := fun member => down (List.mem_append_right _ member)
  generalize part.foldl move loc = loc
  induction rest generalizing loc with
  | nil => exact List.suffix_refl loc
  | cons comp rest ih =>
    obtain ⟨first,others⟩ := not_or.mp (mt List.mem_cons.mpr down)
    have further := ih others (move loc comp)
    cases comp with
    | here => exact further
    | up => exact absurd rfl first
    | name n => exact (List.suffix_cons n loc).trans further

theorem not_cons_suffix {α : Type*} {a : α} {l : List α} : ¬a :: l <:+ l := fun inside =>
  absurd inside.length_le (Nat.not_succ_le_self l.length)

theorem exists_cons_suffix {α : Type*} {above l : List α} (inside : above <:+ l) (other : l ≠ above) :
    ∃ a, a :: above <:+ l := by
  obtain ⟨front,rfl⟩ := inside
  obtain rfl | ⟨front,a,rfl⟩ := List.eq_nil_or_concat' front
  · exact absurd (List.nil_append above) other
  · exact ⟨a,front,by rw [List.append_assoc,List.singleton_append]⟩

theorem kind_above {tree : FileTree Name} {loc above : List Name} (there : tree.kind loc ≠ none) (inside : above <:+ loc) :
    above = loc ∨ tree.kind above = some .dir := by
  obtain ⟨names,rfl⟩ := inside
  induction names with
  | nil => exact .inl rfl
  | cons name names ih =>
    right
    have next := tree.parent name (names ++ above) there
    obtain same | dir := ih (by rw [next]; exact Option.some_ne_none _)
    · rwa [← same] at next
    · exact dir

end FileTree
end WebSearch.Library
