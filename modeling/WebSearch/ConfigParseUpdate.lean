import WebSearch.ConfigParse
import Mathlib.Data.List.Forall2

/-! What a call of `update_config` does to the configuration. -/
namespace WebSearch.ConfigParse
open Library

/-- What is seen of a value. -/
inductive Shown (α : Type)
  | scalar (a : α)
  | list (items : List α)

section Shown
variable {α : Type} (lists : Ref → List α)

def shown : Value α → Shown α
  | .scalar a => .scalar a
  | .list r => .list (lists r)

def showItems (items : Items α) : List (String × Shown α) := items.map fun item => (item.1,shown lists item.2)

/-- A scalar as the list of it alone. -/
def asList : Value α → List α
  | .scalar a => [a]
  | .list r => lists r

/-- What an item is to become. -/
def expected (append userConfig : Items α) (k : String) (old : Value α) : Shown α :=
  match userConfig.lookup k,old with
  | some value,.list _ => .list (asList lists value)
  | some value,.scalar _ => shown lists value
  | none,.list r => .list (lists r ++ ((append.lookup k).map (asList lists)).getD [])
  | none,.scalar a => .scalar a

end Shown

section Messages
variable {α : Type} (config : Items α)

def Append.items : Append α → Items α
  | .absent | .other => []
  | .dict append => append.items

def appendWarning (item : String × Value α) : Option Message :=
  match config.lookup item.1 with
  | some (.list _) => none
  | some (.scalar _) => some (.notAList item.1)
  | none => some (.unknownItem item.1)

def Append.warnings : Append α → List Message
  | .absent => []
  | .other => [.appendNoDict]
  | .dict append => append.items.filterMap (appendWarning config)

def unknownItems (items : Items α) : List Message :=
  (items.filter fun item => (config.lookup item.1).isNone).map fun item => .unknownItem item.1

end Messages

section Update
variable {α : Type} (truthy : α → Bool) (world : World α) (sectionName : String) (config : Items α) (append : Append α)
  (userConfig : Dict α)

/-- The section has its items and shows for each what is expected, and the other sections
show what they did. -/
structure Updated : Prop where
  quiet : (updateConfig truthy world sectionName append userConfig).raised = false
  turned : ∀ item ∈ append.items ++ userConfig.items, ∀ r, config.lookup item.1 = some (.list r) →
    varToList truthy world.lists item.2 = asList world.lists item.2
  warned : (updateConfig truthy world sectionName append userConfig).messages =
    append.warnings config ++ unknownItems config userConfig.items
  becomes : ∃ after, (updateConfig truthy world sectionName append userConfig).configs.lookup sectionName = some after ∧
    after.map Prod.fst = config.map Prod.fst ∧ ∀ k old, config.lookup k = some old →
      (after.lookup k).map (shown (updateConfig truthy world sectionName append userConfig).lists) =
        some (expected world.lists append.items userConfig.items k old)
  others : ∀ name, name ≠ sectionName →
    ((updateConfig truthy world sectionName append userConfig).configs.lookup name).map
        (showItems (updateConfig truthy world sectionName append userConfig).lists) =
      (world.configs.lookup name).map (showItems world.lists)

/-- A list that something is appended to is seen as an item that is kept, under the key it
is appended for, and nowhere else. -/
structure Separate : Prop where
  others : ∀ name, name ≠ sectionName → ∀ items, world.configs.lookup name = some items →
    ∀ item ∈ items, ∀ r, item.2 = .list r → ∀ k, ¬Adds config world.lists append.items k r
  given : ∀ item ∈ userConfig.items, ∀ r, item.2 = .list r → ∀ k, ¬Adds config world.lists append.items k r
  kept : ∀ k₀ r, config.lookup k₀ = some (.list r) → userConfig.items.lookup k₀ = none →
    (∀ k, Adds config world.lists append.items k r → k = k₀) ∧ Sourced config world.lists append.items k₀

end Update

/-! The two loops. -/

section Loops
variable {α : Type} {truthy : α → Bool} {config : Items α}

theorem appendItem_eq (lists : Ref → List α) (messages : List Message) (item : String × Value α) :
    appendItem truthy config (lists,messages) item =
      ((appendItem truthy config (lists,[]) item).1,messages ++ (appendWarning config item).toList) := by
  unfold appendItem appendWarning
  cases config.lookup item.1 with
  | none => rfl
  | some old =>
    cases old with
    | scalar => rfl
    | list => exact congrArg (Prod.mk _) (List.append_nil messages).symm

theorem foldl_appendItem (lists : Ref → List α) (messages : List Message) (items : Items α) :
    items.foldl (appendItem truthy config) (lists,messages) =
      (appended truthy config lists items,messages ++ items.filterMap (appendWarning config)) := by
  induction items using List.reverseRecOn generalizing messages with
  | nil => exact congrArg (Prod.mk _) (List.append_nil messages).symm
  | append_singleton items item ih =>
    have lists' : appended truthy config lists (items ++ [item]) =
        (appendItem truthy config (appended truthy config lists items,[]) item).1 := by
      rw [appended,List.foldl_append,ih [],List.foldl_cons,List.foldl_nil,appendItem_eq]
    rw [List.foldl_append,ih,List.foldl_cons,List.foldl_nil,appendItem_eq,lists',List.filterMap_append,List.append_assoc]
    have single : [item].filterMap (appendWarning config) = (appendWarning config item).toList := by
      cases warned : appendWarning config item <;> simp [warned]
    rw [single]

theorem appendConfig_eq (lists : Ref → List α) (append : Append α) :
    appendConfig truthy config lists append = (appended truthy config lists append.items,append.warnings config) := by
  cases append with
  | absent => rfl
  | other => rfl
  | dict append => exact foldl_appendItem lists [] append.items

/-- The loop raises exactly where a key is unknown. -/
theorem raised_iff (items : Items α) (loop : Replacing α) (quiet : loop.raised = false) :
    (replaceItems truthy config items loop).raised = false ↔ ∀ item ∈ items, (config.lookup item.1).isSome = true := by
  induction items generalizing loop with
  | nil => exact iff_of_true quiet (by simp)
  | cons item items ih =>
    obtain ⟨k,value⟩ := item
    rw [replaceItems,List.forall_mem_cons]
    cases known : config.lookup k with
    | none => simp
    | some old =>
      rw [Option.isSome_some]
      cases old with
      | scalar a =>
        exact (ih {loop with userConfig := loop.userConfig ++ [(k,value)]} quiet).trans (and_iff_right rfl).symm
      | list r =>
        have still : (loop.toList truthy k value).raised = false := by cases value <;> exact quiet
        exact (ih _ still).trans (and_iff_right rfl).symm

/-- What a value of the user dictionary is turned into. -/
def replaced (truthy : α → Bool) (config : Items α) (lists : Ref → List α) (item : String × Value α) : Shown α :=
  match config.lookup item.1 with
  | some (.list _) => .list (varToList truthy lists item.2)
  | _ => shown lists item.2

/-- The loop as far as it has come: the lists made before are as they were. -/
structure Replaced (truthy : α → Bool) (config : Items α) (items : Items α) (loop after : Replacing α) : Prop where
  grows : loop.next ≤ after.next
  same : ∀ r < loop.next, after.lists r = loop.lists r
  messages : after.messages = loop.messages
  turned : ∃ done, after.userConfig = loop.userConfig ++ done ∧
    List.Forall₂ (fun item new => new.1 = item.1 ∧ shown after.lists new.2 = replaced truthy config loop.lists item) items done

theorem shown_congr {lists lists' : Ref → List α} {bound : Ref} (same : ∀ r < bound, lists' r = lists r) {value : Value α}
    (made : ∀ r, value = .list r → r < bound) : shown lists' value = shown lists value := by
  cases value with
  | scalar a => rfl
  | list r => rw [shown,shown,same r (made r rfl)]

theorem replaced_congr {lists lists' : Ref → List α} {bound : Ref} (same : ∀ r < bound, lists' r = lists r)
    {item : String × Value α} (made : ∀ r, item.2 = .list r → r < bound) :
    replaced truthy config lists' item = replaced truthy config lists item := by
  unfold replaced
  split
  next =>
    cases value : item.2 with
    | scalar a => rfl
    | list r => rw [varToList,varToList,same r (made r value)]
  next => exact shown_congr same made

/-- One more item has been gone through. -/
theorem Replaced.cons {items : Items α} {k : String} {value value' : Value α} {loop middle after : Replacing α}
    (rest : Replaced truthy config items middle after) (grows : loop.next ≤ middle.next)
    (same : ∀ r < loop.next, middle.lists r = loop.lists r) (messages : middle.messages = loop.messages)
    (turned : middle.userConfig = loop.userConfig ++ [(k,value')]) (made : ∀ r, value' = .list r → r < middle.next)
    (shows : shown middle.lists value' = replaced truthy config loop.lists (k,value))
    (madeLater : ∀ item ∈ items, ∀ r, item.2 = .list r → r < loop.next) :
    Replaced truthy config ((k,value) :: items) loop after := by
  obtain ⟨done,all,each⟩ := rest.turned
  refine ⟨Nat.le_trans grows rest.grows,?_,rest.messages.trans messages,(k,value') :: done,?_,.cons ⟨rfl,?_⟩ ?_⟩
  · intro r before
    rw [rest.same r (Nat.lt_of_lt_of_le before grows),same r before]
  · rw [all,turned,List.append_assoc]
    rfl
  · rw [shown_congr rest.same made,shows]
  · have both := (List.forall₂_and_left items done).mpr ⟨madeLater,each⟩
    refine both.imp fun item new ⟨before,key,there⟩ => ⟨key,?_⟩
    rw [there,replaced_congr same before]

theorem replaceItems_replaced {items : Items α} {loop : Replacing α}
    (known : ∀ item ∈ items, (config.lookup item.1).isSome = true) (made : ∀ item ∈ items, ∀ r, item.2 = .list r → r < loop.next) :
    Replaced truthy config items loop (replaceItems truthy config items loop) := by
  induction items generalizing loop with
  | nil => exact ⟨Nat.le_refl _,fun _ _ => rfl,rfl,[],(List.append_nil _).symm,.nil⟩
  | cons item items ih =>
    obtain ⟨k,value⟩ := item
    obtain ⟨first,later⟩ := List.forall_mem_cons.mp known
    obtain ⟨madeFirst,madeLater⟩ := List.forall_mem_cons.mp made
    obtain ⟨old,found⟩ := Option.isSome_iff_exists.mp first
    rw [replaceItems,found]
    cases old with
    | scalar b =>
      have shows : shown loop.lists value = replaced truthy config loop.lists (k,value) := by rw [replaced,found]
      exact (@ih {loop with userConfig := loop.userConfig ++ [(k,value)]} later madeLater).cons (Nat.le_refl _) (fun _ _ => rfl)
        rfl rfl madeFirst shows madeLater
    | list s =>
      cases value with
      | list r =>
        have shows : shown loop.lists (.list r) = replaced truthy config loop.lists (k,.list r) := by rw [replaced,found]; rfl
        exact (@ih (loop.toList truthy k (.list r)) later madeLater).cons (Nat.le_refl _) (fun _ _ => rfl) rfl rfl madeFirst
          shows madeLater
      | scalar a =>
        have rest := @ih (loop.toList truthy k (.scalar a)) later fun item member r there =>
          Nat.lt_succ_of_lt (madeLater item member r there)
        refine rest.cons (Nat.le_succ _) ?_ rfl rfl ?_ ?_ madeLater
        · exact fun r before => Function.update_of_ne (Nat.ne_of_lt before) _ _
        · rintro r ⟨⟩
          exact Nat.lt_succ_self _
        · rw [replaced,found]
          exact congrArg Shown.list (Function.update_self _ _ _)

end Loops

/-! What is seen afterwards. -/

section Results
variable {α : Type} {truthy : α → Bool} {world : World α} {sectionName : String} {config : Items α} {append : Append α}
  {userConfig : Dict α}

theorem Append.distinct (append : Append α) : (append.items.map Prod.fst).Nodup := by
  cases append with
  | absent => exact List.nodup_nil
  | other => exact List.nodup_nil
  | dict append => exact append.distinct

theorem lookup_replaced {lists lists' : Ref → List α} {items done : Items α}
    (each : List.Forall₂ (fun item new => new.1 = item.1 ∧ shown lists' new.2 = replaced truthy config lists item) items done)
    (k : String) : (done.lookup k).map (shown lists') = (items.lookup k).map fun value => replaced truthy config lists (k,value) := by
  induction each with
  | nil => rfl
  | @cons item new items done here _ ih =>
    obtain ⟨key,value⟩ := item
    obtain ⟨key',value'⟩ := new
    obtain ⟨rfl,shows⟩ := here
    rw [lookup_cons_ite,lookup_cons_ite]
    split
    next same => rw [same,Option.map_some,Option.map_some,shows]
    next => exact ih

theorem keys_replaced {lists lists' : Ref → List α} {items done : Items α}
    (each : List.Forall₂ (fun item new => new.1 = item.1 ∧ shown lists' new.2 = replaced truthy config lists item) items done) :
    done.map Prod.fst = items.map Prod.fst := by
  induction each with
  | nil => rfl
  | cons here _ ih => rw [List.map_cons,List.map_cons,here.1,ih]

/-- Where the second loop begins. -/
def begun (truthy : α → Bool) (world : World α) (config : Items α) (append : Append α) : Replacing α :=
  ⟨appended truthy config world.lists append.items,world.next,[],append.warnings config,false⟩

theorem updateConfig_eq (found : world.configs.lookup sectionName = some config) (some : config ≠ []) :
    updateConfig truthy world sectionName append userConfig =
      let loop := replaceItems truthy config userConfig.items (begun truthy world config append)
      if loop.raised then ⟨world.configs,loop.lists,loop.next,loop.messages,true⟩
      else ⟨put sectionName (putEach config loop.userConfig) world.configs,loop.lists,loop.next,loop.messages,false⟩ := by
  rw [updateConfig,found,Option.getD_some,if_neg some,appendConfig_eq]
  rfl

theorem quiet_iff (found : world.configs.lookup sectionName = some config) (some : config ≠ []) :
    (updateConfig truthy world sectionName append userConfig).raised = false ↔
      ∀ item ∈ userConfig.items, (config.lookup item.1).isSome = true := by
  rw [updateConfig_eq found some,← raised_iff userConfig.items (begun truthy world config append) rfl]
  dsimp only
  split
  next raised => rw [raised]
  next quiet => exact iff_of_true rfl (Bool.not_eq_true _ ▸ quiet)

/-- The outcome where every key of the user dictionary is known. -/
theorem updateConfig_known (found : world.configs.lookup sectionName = some config) (some : config ≠ [])
    (known : ∀ item ∈ userConfig.items, (config.lookup item.1).isSome = true)
    (made : ∀ item ∈ userConfig.items, ∀ r, item.2 = .list r → r < world.next) :
    ∃ done lists next, updateConfig truthy world sectionName append userConfig =
        ⟨put sectionName (putEach config done) world.configs,lists,next,append.warnings config,false⟩ ∧
      (∀ r < world.next, lists r = appended truthy config world.lists append.items r) ∧
      List.Forall₂ (fun item new => new.1 = item.1 ∧
        shown lists new.2 = replaced truthy config (appended truthy config world.lists append.items) item) userConfig.items done := by
  have quiet := (@raised_iff α truthy config userConfig.items (begun truthy world config append) rfl).mpr known
  have after := @replaceItems_replaced α truthy config userConfig.items (begun truthy world config append) known made
  obtain ⟨done,all,each⟩ := after.turned
  refine ⟨done,(replaceItems truthy config userConfig.items (begun truthy world config append)).lists,
    (replaceItems truthy config userConfig.items (begun truthy world config append)).next,?_,after.same,each⟩
  rw [updateConfig_eq found some]
  dsimp only
  rw [quiet,all,after.messages]
  rfl

/-- A list is seen unchanged where nothing is appended to it. -/
theorem appended_same_iff (truthful : Truthful truthy config append.items) (r : Ref) :
    appended truthy config world.lists append.items r = world.lists r ↔
      ∀ k, ¬Adds config world.lists append.items k r := by
  obtain ⟨more,grown,adds⟩ := @appended_grows α truthy config world.lists append.items truthful r
  rw [grown,List.append_right_eq_self,← not_exists,← adds,not_not]

/-- What an item has become. -/
def became (truthy : α → Bool) (config : Items α) (lists : Ref → List α) (userConfig : Items α) (k : String) (old : Value α) : Shown α :=
  match userConfig.lookup k with
  | some value => replaced truthy config lists (k,value)
  | none => shown lists old

theorem turned_eq {items : Items α} (truthful : Truthful truthy config items) {lists : Ref → List α} {item : String × Value α}
    (member : item ∈ items) {r : Ref} (target : config.lookup item.1 = some (.list r)) :
    varToList truthy lists item.2 = asList lists item.2 := by
  cases value : item.2 with
  | scalar a => rw [varToList,asList,if_pos (truthful item member r a target value)]
  | list s => rfl

theorem added_eq (truthful : Truthful truthy config append.items) {lists : Ref → List α} {k : String} {r : Ref}
    (target : config.lookup k = some (.list r)) :
    added truthy lists append.items k = ((append.items.lookup k).map (asList lists)).getD [] := by
  rw [added]
  cases found : append.items.lookup k with
  | none => rfl
  | some value => exact @turned_eq α truthy config append.items truthful lists (k,value) (mem_of_lookup found) r target

/-- An item is as expected where the lists that it shows have grown by what is appended to
it and nothing else. -/
theorem became_iff (truthful : Truthful truthy config (append.items ++ userConfig.items)) {k : String} {old : Value α}
    (found : config.lookup k = some old) :
    became truthy config (appended truthy config world.lists append.items) userConfig.items k old =
        expected world.lists append.items userConfig.items k old ↔
      (∀ r, userConfig.items.lookup k = some (.list r) → ∀ k', ¬Adds config world.lists append.items k' r) ∧
        (userConfig.items.lookup k = none → ∀ r, old = .list r →
          (∀ k', Adds config world.lists append.items k' r → k' = k) ∧ Sourced config world.lists append.items k) := by
  have front : Truthful truthy config append.items := fun item member => truthful item (List.mem_append_left _ member)
  have same (r : Ref) := @appended_same_iff α truthy world config append front r
  cases given : userConfig.items.lookup k with
  | some value =>
    have member : (k,value) ∈ append.items ++ userConfig.items := List.mem_append_right _ (mem_of_lookup given)
    simp only [became,expected,given,replaced,found,Option.some.injEq,reduceCtorEq,false_implies,and_true]
    have seen (r : Ref) (list : value = .list r) :
        Shown.list (appended truthy config world.lists append.items r) = .list (world.lists r) ↔
          ∀ r, value = .list r → ∀ k', ¬Adds config world.lists append.items k' r := by
      rw [Shown.list.injEq,same,list,forall_list]
    cases old with
    | list s =>
      have turned := @turned_eq α truthy config _ truthful (appended truthy config world.lists append.items) (k,value) member s found
      dsimp only at turned ⊢
      rw [turned]
      cases value with
      | scalar a => exact iff_of_true rfl (forall_scalar.mpr trivial)
      | list r => exact seen r rfl
    | scalar b =>
      cases value with
      | scalar a => exact iff_of_true rfl (forall_scalar.mpr trivial)
      | list r => exact seen r rfl
  | none =>
    simp only [became,expected,given,reduceCtorEq,false_implies,implies_true,true_and,true_implies]
    cases old with
    | scalar a => exact iff_of_true rfl (forall_scalar.mpr trivial)
    | list r =>
      have shows := (@appended_showing α truthy config world.lists append.items front append.distinct k r found).equal
      rw [added_eq front found] at shows
      rw [shown,Shown.list.injEq,shows,forall_list]

/-- The other sections show what they did where nothing is appended to their lists. -/
theorem others_iff (truthful : Truthful truthy config append.items) {lists : Ref → List α}
    (same : ∀ r < world.next, lists r = appended truthy config world.lists append.items r) {items : Items α} {name : String}
    (found : world.configs.lookup name = some items) :
    showItems lists items = showItems world.lists items ↔
      ∀ item ∈ items, ∀ r, item.2 = .list r → ∀ k, ¬Adds config world.lists append.items k r := by
  rw [showItems,showItems,List.map_inj_left]
  refine forall₂_congr fun item member => ?_
  rw [Prod.mk.injEq,and_iff_right rfl]
  have made := world.made (name,items) (mem_of_lookup found) item member
  cases value : item.2 with
  | scalar a => exact iff_of_true rfl (forall_scalar.mpr trivial)
  | list r =>
    rw [shown,shown,Shown.list.injEq,same r (made r value),appended_same_iff truthful,forall_list]

theorem lookup_became (found : world.configs.lookup sectionName = some config) {lists : Ref → List α} {done : Items α}
    (same : ∀ r < world.next, lists r = appended truthy config world.lists append.items r)
    (each : List.Forall₂ (fun item new => new.1 = item.1 ∧
      shown lists new.2 = replaced truthy config (appended truthy config world.lists append.items) item) userConfig.items done)
    {k : String} {old : Value α} (here : config.lookup k = some old) :
    ((putEach config done).lookup k).map (shown lists) =
      some (became truthy config (appended truthy config world.lists append.items) userConfig.items k old) := by
  have distinct : (done.map Prod.fst).Nodup := keys_replaced each ▸ userConfig.distinct
  have turned := lookup_replaced each k
  rw [lookup_putEach config distinct,here,became]
  cases given : userConfig.items.lookup k with
  | none =>
    rw [given,Option.map_none,Option.map_eq_none_iff] at turned
    have made := world.made (sectionName,config) (mem_of_lookup found) (k,old) (mem_of_lookup here)
    rw [turned,Option.none_or,Option.map_some,shown_congr same made]
  | some value =>
    rw [given] at turned
    obtain ⟨new,there,shows⟩ := Option.map_eq_some_iff.mp turned
    rw [there,Option.some_or,Option.map_some,shows]

/-! Where every key is known and every scalar counts, what matters is which lists are seen
in more than one place. -/

theorem separate_of_updated (found : world.configs.lookup sectionName = some config) (some : config ≠ [])
    (made : ∀ item ∈ userConfig.items, ∀ r, item.2 = .list r → r < world.next)
    (known : ∀ item ∈ userConfig.items, (config.lookup item.1).isSome = true)
    (truthful : Truthful truthy config (append.items ++ userConfig.items))
    (updated : Updated truthy world sectionName config append userConfig) : Separate world sectionName config append userConfig := by
  obtain ⟨done,lists,next,outcome,same,each⟩ := @updateConfig_known α truthy world sectionName config append userConfig found some known made
  have front : Truthful truthy config append.items := fun item member => truthful item (List.mem_append_left _ member)
  obtain ⟨-,-,-,⟨after,there,-,becomes⟩,others⟩ := updated
  rw [outcome] at there becomes others
  dsimp only at there becomes others
  rw [lookup_put,if_pos rfl] at there
  obtain rfl := Option.some.inj there
  have shows {k : String} {old : Value α} (here : config.lookup k = Option.some old) :=
    (became_iff truthful here).mp (Option.some.inj ((lookup_became found same each here).symm.trans (becomes k old here)))
  refine ⟨fun name other items there => ?_,?_,?_⟩
  · have seen := others name other
    rw [lookup_put,if_neg other,there] at seen
    exact (others_iff front same there).mp (Option.some.inj seen)
  · rintro ⟨k,value⟩ member r rfl
    obtain ⟨old,here⟩ := Option.isSome_iff_exists.mp (known (k,.list r) member)
    exact (shows here).1 r (lookup_of_mem_nodup userConfig.distinct member)
  · exact fun k₀ r here none => (shows here).2 none r rfl

theorem unknownItems_nil {items : Items α} (known : ∀ item ∈ items, (config.lookup item.1).isSome = true) :
    unknownItems config items = [] := by
  rw [unknownItems,List.map_eq_nil_iff,List.filter_eq_nil_iff]
  intro item member
  rw [Option.isNone_iff_eq_none]
  exact fun unknown => by simpa [unknown] using known item member

theorem updated_of_separate (found : world.configs.lookup sectionName = some config) (some : config ≠ [])
    (made : ∀ item ∈ userConfig.items, ∀ r, item.2 = .list r → r < world.next)
    (known : ∀ item ∈ userConfig.items, (config.lookup item.1).isSome = true)
    (truthful : Truthful truthy config (append.items ++ userConfig.items))
    (separate : Separate world sectionName config append userConfig) : Updated truthy world sectionName config append userConfig := by
  obtain ⟨done,lists,next,outcome,same,each⟩ := @updateConfig_known α truthy world sectionName config append userConfig found some known made
  have front : Truthful truthy config append.items := fun item member => truthful item (List.mem_append_left _ member)
  refine ⟨?_,fun item member r target => turned_eq truthful member target,?_,?_,?_⟩
  · rw [outcome]
  · rw [outcome,unknownItems_nil known,List.append_nil]
  · rw [outcome]
    refine ⟨putEach config done,by rw [lookup_put,if_pos rfl],keys_putEach ?_,fun k old here => ?_⟩
    · intro new member
      have there := List.mem_map_of_mem (f := Prod.fst) member
      rw [keys_replaced each] at there
      obtain ⟨item,given,key⟩ := List.mem_map.mp there
      exact key ▸ lookup_isSome_iff_key.mp (known item given)
    · rw [lookup_became found same each here,(became_iff truthful here).mpr ?_]
      refine ⟨fun r given => separate.given _ (mem_of_lookup given) r rfl,?_⟩
      rintro none r rfl
      exact separate.kept k r here none
  · intro name other
    rw [outcome,lookup_put,if_neg other]
    cases there : world.configs.lookup name with
    | none => rfl
    | some items => exact congrArg Option.some ((others_iff front same there).mpr (separate.others name other items there))

theorem updated_iff (found : world.configs.lookup sectionName = some config) (some : config ≠ [])
    (made : ∀ item ∈ userConfig.items, ∀ r, item.2 = .list r → r < world.next) :
    Updated truthy world sectionName config append userConfig ↔
      (∀ item ∈ userConfig.items, (config.lookup item.1).isSome = true) ∧
        Truthful truthy config (append.items ++ userConfig.items) ∧ Separate world sectionName config append userConfig := by
  constructor
  · intro updated
    have known := (quiet_iff found some).mp updated.quiet
    have truthful : Truthful truthy config (append.items ++ userConfig.items) := by
      intro item member r a target scalar
      have alone := updated.turned item member r target
      rw [scalar,varToList,asList] at alone
      by_contra falsy
      rw [if_neg falsy] at alone
      exact absurd alone (by simp)
    exact ⟨known,truthful,separate_of_updated found some made known truthful updated⟩
  · rintro ⟨known,truthful,separate⟩
    exact updated_of_separate found some made known truthful separate

end Results

section Sections

/-- One section, of a list that is empty and a text. -/
def ccConfig : World String where
  configs := [("cc_config",[("extra_incs",.list 0),("cpplint",.scalar "cpplint.py")])]
  lists _ := []
  next := 1
  made := by
    rintro entry member item there r list
    obtain rfl := List.mem_singleton.mp member
    rcases List.mem_pair.mp there with rfl | rfl
    · obtain rfl := Value.list.inj list
      exact Nat.one_pos
    · exact absurd list (by simp)

def extraIncs : Dict String where
  items := [("extra_incs",.scalar "thirdparty"),("incs",.scalar "thirdparty")]
  distinct := by decide

def noCpplint : Dict String where
  items := [("cpplint",.scalar "")]
  distinct := by decide

theorem ccConfig_list {k : String} {r : Ref}
    (target : [("extra_incs",.list 0),("cpplint",.scalar "cpplint.py")].lookup k = some (.list r : Value String)) :
    k = "extra_incs" ∧ r = 0 := by
  rcases List.mem_pair.mp (mem_of_lookup target) with same | same
  · obtain ⟨rfl,list⟩ := Prod.mk.inj same
    exact ⟨rfl,Value.list.inj list⟩
  · exact absurd (Prod.mk.inj same).2 (by simp)

theorem ccConfig_updated : Updated (fun a => a ≠ "") ccConfig "cc_config"
    [("extra_incs",.list 0),("cpplint",.scalar "cpplint.py")] (.dict extraIncs) noCpplint := by
  have noList : ∀ item ∈ noCpplint.items, ∀ r, item.2 ≠ .list r := by simp [noCpplint]
  refine (updated_iff rfl (by decide) fun item member r list => absurd list (noList item member r)).mpr ⟨by decide,?_,?_,?_,?_⟩
  · intro item member r a target scalar
    obtain ⟨k,value⟩ := item
    obtain ⟨rfl,-⟩ := ccConfig_list target
    obtain rfl : value = .scalar "thirdparty" := by simpa [Append.items,extraIncs,noCpplint] using member
    obtain rfl := Value.scalar.inj scalar
    decide
  · intro name other items there
    rw [ccConfig,lookup_cons_ite,if_neg other] at there
    exact absurd there (by simp)
  · exact fun item member r list => absurd list (noList item member r)
  · intro k₀ r target kept
    obtain ⟨rfl,rfl⟩ := ccConfig_list target
    refine ⟨fun k adds => ?_,fun before s after split => ?_⟩
    · obtain ⟨before,value,after,split,there,-⟩ := adds
      exact (ccConfig_list there).1
    · have member : ("extra_incs",.list s) ∈ (Append.dict extraIncs).items := by
        rw [split]
        exact List.mem_append_right _ List.mem_cons_self
      exact absurd member (by simp [Append.items,extraIncs])

/-- A key that is misspelled. -/
def misspelled : Dict String where
  items := [("cpplnt",.scalar "")]
  distinct := by decide

theorem misspelled_not_updated : ccConfig.configs.lookup "cc_config" =
      some [("extra_incs",.list 0),("cpplint",.scalar "cpplint.py")] ∧
    ¬Updated (fun a => a ≠ "") ccConfig "cc_config" [("extra_incs",.list 0),("cpplint",.scalar "cpplint.py")] .absent misspelled := by
  refine ⟨rfl,fun updated => ?_⟩
  have known := (quiet_iff rfl (by decide)).mp updated.quiet ("cpplnt",.scalar "") (by decide)
  exact absurd known (by decide)

end Sections

end WebSearch.ConfigParse
