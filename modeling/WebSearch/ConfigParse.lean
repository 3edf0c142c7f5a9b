import WebSearch.Library.Dictionary
import WebSearch.Library.Loop
import Mathlib.Data.List.Induction
import Mathlib.Logic.Function.Basic

/-! `BladeConfig.update_config` of `blade/configparse.py`. A list is an object that items
refer to: what is appended to it is seen wherever it is. What is no list is a scalar. -/
namespace WebSearch.ConfigParse
open Library

abbrev Ref := Nat

inductive Value (α : Type)
  | scalar (a : α)
  | list (r : Ref)
  deriving DecidableEq

abbrev Items (α : Type) := List (String × Value α)

structure Dict (α : Type) where
  items : Items α
  distinct : (items.map Prod.fst).Nodup

/-- The sections, and the lists: those before `next` have been made. -/
structure World (α : Type) where
  configs : List (String × Items α)
  lists : Ref → List α
  next : Ref
  made : ∀ entry ∈ configs, ∀ item ∈ entry.2, ∀ r, item.2 = .list r → r < next

/-- The argument `append`: nothing, something that is no dictionary, or a dictionary. -/
inductive Append (α : Type)
  | absent
  | other
  | dict (append : Dict α)

inductive Message
  | unknownSection
  | appendNoDict
  | notAList (key : String)
  | unknownItem (key : String)
  deriving DecidableEq

def Message.text (currentFileName sectionName : String) (message : Message) : String :=
  currentFileName ++ ": " ++ sectionName ++ ": " ++ match message with
    | .unknownSection => "unknown config section name"
    | .appendNoDict => "append must be a dict"
    | .notAList key => "config item " ++ key ++ " is not a list"
    | .unknownItem key => "unknown config item name: " ++ key

/-- The loop of `_replace_config`: what the user dictionary has become as far as the loop
has come, and whether the iterator has raised `RuntimeError`. -/
structure Replacing (α : Type) where
  lists : Ref → List α
  next : Ref
  userConfig : Items α
  messages : List Message
  raised : Bool

structure Outcome (α : Type) where
  configs : List (String × Items α)
  lists : Ref → List α
  next : Ref
  messages : List Message
  raised : Bool

section Update
variable {α : Type} (truthy : α → Bool)

/-- What is in the result of `var_to_list`. -/
def varToList (lists : Ref → List α) : Value α → List α
  | .list r => lists r
  | .scalar a => if truthy a then [a] else []

def appendItem (config : Items α) (state : (Ref → List α) × List Message) (item : String × Value α) :
    (Ref → List α) × List Message :=
  match config.lookup item.1 with
  | some (.list r) => (Function.update state.1 r (state.1 r ++ varToList truthy state.1 item.2),state.2)
  | some (.scalar _) => (state.1,state.2 ++ [.notAList item.1])
  | none => (state.1,state.2 ++ [.unknownItem item.1])

def appendConfig (config : Items α) (lists : Ref → List α) : Append α → (Ref → List α) × List Message
  | .absent => (lists,[])
  | .other => (lists,[.appendNoDict])
  | .dict append => append.items.foldl (appendItem truthy config) (lists,[])

/-- A scalar becomes a new list. -/
def Replacing.toList (loop : Replacing α) (k : String) : Value α → Replacing α
  | .list r => {loop with userConfig := loop.userConfig ++ [(k,.list r)]}
  | .scalar a => {loop with
      lists := Function.update loop.lists loop.next (varToList truthy loop.lists (.scalar a))
      next := loop.next + 1
      userConfig := loop.userConfig ++ [(k,.list loop.next)]}

/-- An item that is deleted changes the size of the dictionary, and the iterator finds that
before it finds its end. -/
def replaceItems (config : Items α) : Items α → Replacing α → Replacing α
  | [],loop => loop
  | (k,value) :: rest,loop =>
    match config.lookup k with
    | some (.list _) => replaceItems config rest (loop.toList truthy k value)
    | some (.scalar _) => replaceItems config rest {loop with userConfig := loop.userConfig ++ [(k,value)]}
    | none => {loop with messages := loop.messages ++ [.unknownItem k], raised := true}

def updateConfig (world : World α) (sectionName : String) (append : Append α) (userConfig : Dict α) : Outcome α :=
  let config := (world.configs.lookup sectionName).getD []
  if config = [] then ⟨world.configs,world.lists,world.next,[.unknownSection],false⟩
  else
    let (lists,messages) := appendConfig truthy config world.lists append
    let loop := replaceItems truthy config userConfig.items ⟨lists,world.next,[],messages,false⟩
    if loop.raised then ⟨world.configs,loop.lists,loop.next,loop.messages,true⟩
    else ⟨put sectionName (putEach config loop.userConfig) world.configs,loop.lists,loop.next,loop.messages,false⟩

end Update

/-! What is appended, and to which lists. -/

section Append
variable {α : Type} (truthy : α → Bool) (config : Items α) (lists : Ref → List α)

/-- A value that brings something when it is appended behind others: a list that was empty
may have been filled by them. -/
inductive Filled : Items α → Value α → Prop
  | scalar (before : Items α) (a : α) : Filled before (.scalar a)
  | full (before : Items α) {r : Ref} (some : lists r ≠ []) : Filled before (.list r)
  | grown (earlier : Items α) {k : String} {value : Value α} (later : Items α) {r : Ref}
    (target : config.lookup k = some (.list r)) (filled : Filled earlier value) :
    Filled (earlier ++ (k,value) :: later) (.list r)

/-- Under a key, something is appended to a list. -/
def Adds (append : Items α) (k : String) (r : Ref) : Prop :=
  ∃ before value after, append = before ++ (k,value) :: after ∧ config.lookup k = some (.list r) ∧
    Filled config lists before value

/-- No scalar for a list is one that `var_to_list` takes for nothing. -/
def Truthful (items : Items α) : Prop :=
  ∀ item ∈ items, ∀ r a, config.lookup item.1 = some (.list r) → item.2 = .scalar a → truthy a = true

def appended (append : Items α) : Ref → List α := (append.foldl (appendItem truthy config) (lists,[])).1

/-- How a list has grown, and whether it has. -/
def Grows (append : Items α) (r : Ref) (more : List α) : Prop :=
  appended truthy config lists append r = lists r ++ more ∧ (more ≠ [] ↔ ∃ k, Adds config lists append k r)

variable {truthy config lists}

@[simp] theorem forall_scalar {a : α} {P : Ref → Prop} : (∀ r, Value.scalar a = .list r → P r) ↔ True := by simp

@[simp] theorem forall_list {s : Ref} {P : Ref → Prop} : (∀ r, (.list s : Value α) = .list r → P r) ↔ P s := by simp

theorem adds_snoc {append : Items α} {k' : String} {value : Value α} {k : String} {r : Ref} :
    Adds config lists (append ++ [(k',value)]) k r ↔
      Adds config lists append k r ∨ k = k' ∧ config.lookup k = some (.list r) ∧ Filled config lists append value := by
  constructor
  · rintro ⟨before,v,after,split,target,filled⟩
    rcases snoc_split split with ⟨rfl,same,-⟩ | ⟨rest,-,rfl⟩
    · obtain ⟨rfl,rfl⟩ := Prod.mk.inj same
      exact .inr ⟨rfl,target,filled⟩
    · exact .inl ⟨before,v,rest,rfl,target,filled⟩
  · rintro (⟨before,v,after,rfl,target,filled⟩ | ⟨rfl,target,filled⟩)
    · exact ⟨before,v,after ++ [(k',value)],by rw [List.append_assoc]; rfl,target,filled⟩
    · exact ⟨append,value,[],rfl,target,filled⟩

theorem filled_list {before : Items α} {r : Ref} :
    Filled config lists before (.list r) ↔ lists r ≠ [] ∨ ∃ k, Adds config lists before k r := by
  constructor
  · intro filled
    cases filled with
    | full _ some => exact .inl some
    | grown earlier later target filled => exact .inr ⟨_,earlier,_,later,rfl,target,filled⟩
  · rintro (some | ⟨k,earlier,value,later,rfl,target,filled⟩)
    · exact .full before some
    · exact .grown earlier later target filled

theorem appended_snoc (append : Items α) (k : String) (value : Value α) :
    appended truthy config lists (append ++ [(k,value)]) = match config.lookup k with
      | some (.list r) => Function.update (appended truthy config lists append) r
          (appended truthy config lists append r ++ varToList truthy (appended truthy config lists append) value)
      | _ => appended truthy config lists append := by
  rw [appended,List.foldl_append,List.foldl_cons,List.foldl_nil,appendItem]
  cases config.lookup k with
  | none => rfl
  | some old => cases old <;> rfl

theorem Truthful.front {append : Items α} {item : String × Value α} (truthful : Truthful truthy config (append ++ [item])) :
    Truthful truthy config append := fun other member => truthful other (List.mem_append_left _ member)

theorem brings_iff {append : Items α} (grows : ∀ r, ∃ more, Grows truthy config lists append r more) {value : Value α}
    (counts : ∀ a, value = .scalar a → truthy a = true) :
    varToList truthy (appended truthy config lists append) value ≠ [] ↔ Filled config lists append value := by
  cases value with
  | scalar a =>
    rw [varToList,if_pos (counts a rfl)]
    exact iff_of_true (List.cons_ne_nil _ _) (.scalar append a)
  | list r =>
    obtain ⟨more,grown,adds⟩ := grows r
    rw [varToList,grown,filled_list,← adds,ne_eq,List.append_eq_nil_iff,Decidable.not_and_iff_not_or_not]

theorem appended_snoc_list (append : Items α) {k : String} (value : Value α) {r : Ref} (target : config.lookup k = some (.list r)) :
    appended truthy config lists (append ++ [(k,value)]) = Function.update (appended truthy config lists append) r
      (appended truthy config lists append r ++ varToList truthy (appended truthy config lists append) value) := by
  rw [appended_snoc,target]

theorem appended_snoc_ne (append : Items α) {k : String} (value : Value α) {r : Ref} (other : config.lookup k ≠ some (.list r)) :
    appended truthy config lists (append ++ [(k,value)]) r = appended truthy config lists append r := by
  rw [appended_snoc]
  split
  next r' target =>
    have apart : r ≠ r' := by
      rintro rfl
      exact other target
    rw [Function.update_of_ne apart]
  next => rfl

theorem adds_snoc_other {append : Items α} {k' : String} {value : Value α} {r : Ref} (other : config.lookup k' ≠ some (.list r))
    (k : String) : Adds config lists (append ++ [(k',value)]) k r ↔ Adds config lists append k r := by
  rw [adds_snoc]
  refine or_iff_left ?_
  rintro ⟨rfl,target,-⟩
  exact other target

/-- A list only grows, and it does where something is appended. -/
theorem appended_grows {append : Items α} (truthful : Truthful truthy config append) (r : Ref) :
    ∃ more, Grows truthy config lists append r more := by
  induction append using List.reverseRecOn generalizing r with
  | nil =>
    refine ⟨[],(List.append_nil _).symm,iff_of_false (by simp) ?_⟩
    rintro ⟨k,before,value,after,split,-⟩
    exact absurd split.symm (by simp)
  | append_singleton append item ih =>
    obtain ⟨k,value⟩ := item
    have grows := ih truthful.front
    obtain ⟨more,grown,adds⟩ := grows r
    by_cases target : config.lookup k = some (.list r)
    · have counts (a : α) (scalar : value = .scalar a) : truthy a = true :=
        truthful (k,value) (List.mem_append_right _ (List.mem_singleton_self _)) r a target scalar
      have brings := brings_iff grows counts
      refine ⟨more ++ varToList truthy (appended truthy config lists append) value,?_,?_⟩
      · rw [appended_snoc_list append value target,Function.update_self,grown,List.append_assoc]
      · simp only [adds_snoc,exists_or]
        rw [ne_eq,List.append_eq_nil_iff,Decidable.not_and_iff_not_or_not]
        refine or_congr adds (brings.trans ⟨fun filled => ⟨k,rfl,target,filled⟩,?_⟩)
        rintro ⟨_,-,-,filled⟩
        exact filled
    · refine ⟨more,?_,by simp only [adds_snoc_other target,adds]⟩
      rw [appended_snoc_ne append value target,grown]

theorem Adds.mem {append : Items α} {k : String} {r : Ref} (adds : Adds config lists append k r) : k ∈ append.map Prod.fst := by
  obtain ⟨before,value,after,rfl,-⟩ := adds
  simp

/-- The list that is appended under a key has not grown before that. -/
def Sourced (config : Items α) (lists : Ref → List α) (append : Items α) (k₀ : String) : Prop :=
  ∀ before s after, append = before ++ (k₀,.list s) :: after → ∀ k, ¬Adds config lists before k s

theorem sourced_snoc_same {append : Items α} {k₀ : String} {value : Value α} (absent : k₀ ∉ append.map Prod.fst) :
    Sourced config lists (append ++ [(k₀,value)]) k₀ ↔ ∀ s, value = .list s → ∀ k, ¬Adds config lists append k s := by
  constructor
  · rintro sourced s rfl
    exact sourced append s [] rfl
  · intro sourced before s after split
    rcases snoc_split split with ⟨rfl,same,-⟩ | ⟨rest,-,rfl⟩
    · exact sourced s (Prod.mk.inj same).2.symm
    · exact absurd (by simp) absent

theorem sourced_snoc_other {append : Items α} {k₀ k : String} {value : Value α} (other : k₀ ≠ k) :
    Sourced config lists (append ++ [(k,value)]) k₀ ↔ Sourced config lists append k₀ := by
  constructor
  · rintro sourced before s after rfl
    exact sourced before s (after ++ [(k,value)]) (by rw [List.append_assoc]; rfl)
  · intro sourced before s after split
    rcases snoc_split split with ⟨-,same,-⟩ | ⟨rest,-,rfl⟩
    · exact absurd (Prod.mk.inj same).1 other
    · exact sourced before s rest rfl

/-- What is to be appended under a key. -/
def added (truthy : α → Bool) (lists : Ref → List α) (append : Items α) (k : String) : List α :=
  ((append.lookup k).map (varToList truthy lists)).getD []

/-- What is appended is at least what is to be. -/
theorem varToList_grows {append : Items α} (grows : ∀ r, ∃ more, Grows truthy config lists append r more) (value : Value α) :
    ∃ more, varToList truthy (appended truthy config lists append) value = varToList truthy lists value ++ more ∧
      (more = [] ↔ ∀ s, value = .list s → ∀ k, ¬Adds config lists append k s) := by
  cases value with
  | scalar a => exact ⟨[],(List.append_nil _).symm,iff_of_true rfl (forall_scalar.mpr trivial)⟩
  | list r =>
    obtain ⟨more,grown,adds⟩ := grows r
    refine ⟨more,grown,?_⟩
    rw [← not_iff_not,← ne_eq,adds]
    simp

/-- What a list shows, compared with what is to be appended under a key of it. -/
structure Showing (truthy : α → Bool) (config : Items α) (lists : Ref → List α) (append : Items α) (k₀ : String) (r : Ref) : Prop where
  bound : (lists r ++ added truthy lists append k₀).length ≤ (appended truthy config lists append r).length
  equal : appended truthy config lists append r = lists r ++ added truthy lists append k₀ ↔
    (∀ k, Adds config lists append k r → k = k₀) ∧ Sourced config lists append k₀

theorem added_snoc_same {append : Items α} {k₀ : String} (value : Value α) (absent : k₀ ∉ append.map Prod.fst) :
    added truthy lists (append ++ [(k₀,value)]) k₀ = varToList truthy lists value := by
  rw [added,List.lookup_append,lookup_of_not_key absent]
  simp

theorem added_snoc_other (append : Items α) {k₀ k : String} (value : Value α) (other : k₀ ≠ k) :
    added truthy lists (append ++ [(k,value)]) k₀ = added truthy lists append k₀ := by
  have none : [(k,value)].lookup k₀ = none := by
    rw [lookup_cons_ite,if_neg other]
    rfl
  rw [added,List.lookup_append,none,Option.or_none,added]

/-- The key itself. -/
theorem showing_snoc_same {append : Items α} (grows : ∀ r, ∃ more, Grows truthy config lists append r more) {k₀ : String}
    (value : Value α) {r : Ref} (absent : k₀ ∉ append.map Prod.fst) (target : config.lookup k₀ = some (.list r)) :
    Showing truthy config lists (append ++ [(k₀,value)]) k₀ r := by
  obtain ⟨more,grown,adds⟩ := grows r
  obtain ⟨extra,brought,source⟩ := varToList_grows grows value
  have shows : appended truthy config lists (append ++ [(k₀,value)]) r =
      lists r ++ more ++ (varToList truthy lists value ++ extra) := by
    rw [appended_snoc_list append value target,Function.update_self,grown,brought]
  have alone : (∀ k, Adds config lists (append ++ [(k₀,value)]) k r → k = k₀) ↔ more = [] := by
    constructor
    · intro only
      by_contra some
      obtain ⟨k,there⟩ := adds.mp some
      exact absent (only k (adds_snoc.mpr (.inl there)) ▸ there.mem)
    · rintro none k there
      rcases adds_snoc.mp there with earlier | ⟨same,-⟩
      · exact absurd none (adds.mpr ⟨k,earlier⟩)
      · exact same
  constructor
  · rw [added_snoc_same value absent,shows]
    simp only [List.length_append]
    omega
  · rw [added_snoc_same value absent,shows,sourced_snoc_same absent,← source,alone]
    constructor
    · intro same
      have width := congrArg List.length same
      simp only [List.length_append] at width
      exact ⟨List.length_eq_zero_iff.mp (by omega),List.length_eq_zero_iff.mp (by omega)⟩
    · rintro ⟨rfl,rfl⟩
      rw [List.append_nil,List.append_nil]

/-- Another key of the same list. -/
theorem Showing.snoc_list {append : Items α} (grows : ∀ r, ∃ more, Grows truthy config lists append r more) {k₀ k : String}
    {value : Value α} {r : Ref} (showing : Showing truthy config lists append k₀ r) (other : k₀ ≠ k)
    (target : config.lookup k = some (.list r)) (counts : ∀ a, value = .scalar a → truthy a = true) :
    Showing truthy config lists (append ++ [(k,value)]) k₀ r := by
  have brings := brings_iff grows counts
  have shows := @appended_snoc_list α truthy config lists append k value r target
  generalize varToList truthy (appended truthy config lists append) value = brought at brings shows
  constructor
  · rw [added_snoc_other append value other,shows,Function.update_self]
    refine Nat.le_trans showing.bound ?_
    rw [List.length_append]
    exact Nat.le_add_right _ _
  · rw [added_snoc_other append value other,shows,Function.update_self,sourced_snoc_other other]
    constructor
    · intro now
      have width := congrArg List.length now
      have bound := showing.bound
      rw [List.length_append] at width
      obtain rfl : brought = [] := List.length_eq_zero_iff.mp (by omega)
      rw [List.append_nil] at now
      obtain ⟨only,sourced⟩ := showing.equal.mp now
      refine ⟨fun k' adds => ?_,sourced⟩
      rcases adds_snoc.mp adds with earlier | ⟨-,-,filled⟩
      · exact only k' earlier
      · exact absurd rfl (brings.mpr filled)
    · rintro ⟨only,sourced⟩
      have none : brought = [] := by
        by_contra some
        exact other (only k (adds_snoc.mpr (.inr ⟨rfl,target,brings.mp some⟩))).symm
      rw [none,List.append_nil]
      exact showing.equal.mpr ⟨fun k' adds => only k' (adds_snoc.mpr (.inl adds)),sourced⟩

/-- A key that is not one of the list. -/
theorem Showing.snoc_ne {append : Items α} {k₀ k : String} (value : Value α) {r : Ref}
    (showing : Showing truthy config lists append k₀ r) (other : k₀ ≠ k) (apart : config.lookup k ≠ some (.list r)) :
    Showing truthy config lists (append ++ [(k,value)]) k₀ r := by
  constructor
  · rw [added_snoc_other append value other,appended_snoc_ne append value apart]
    exact showing.bound
  · rw [added_snoc_other append value other,appended_snoc_ne append value apart,sourced_snoc_other other]
    simp only [adds_snoc_other apart]
    exact showing.equal

/-- A list shows exactly what is to be appended under a key of it where nothing else goes
there, and where what goes there has not grown. -/
theorem appended_showing {append : Items α} (truthful : Truthful truthy config append) (distinct : (append.map Prod.fst).Nodup)
    {k₀ : String} {r : Ref} (target : config.lookup k₀ = some (.list r)) : Showing truthy config lists append k₀ r := by
  induction append using List.reverseRecOn with
  | nil =>
    have none (k : String) : ¬Adds config lists [] k r := fun adds => absurd adds.mem (by simp)
    refine ⟨by simp [added,appended],iff_of_true (by simp [added,appended]) ⟨fun k adds => absurd adds (none k),?_⟩⟩
    intro before s after split
    exact absurd split.symm (by simp)
  | append_singleton append item ih =>
    obtain ⟨k,value⟩ := item
    rw [List.map_append] at distinct
    obtain ⟨front,-,apart⟩ := List.nodup_append.mp distinct
    have grows (s : Ref) : ∃ more, Grows truthy config lists append s more := appended_grows truthful.front s
    have showing := ih truthful.front front
    by_cases here : k₀ = k
    · subst here
      have absent : k₀ ∉ append.map Prod.fst := fun member => apart k₀ member k₀ (by simp) rfl
      exact showing_snoc_same grows value absent target
    · by_cases there : config.lookup k = some (.list r)
      · refine showing.snoc_list grows here there fun a scalar => ?_
        exact truthful (k,value) (List.mem_append_right _ (List.mem_singleton_self _)) r a there scalar
      · exact showing.snoc_ne value here there

end Append

end WebSearch.ConfigParse
