import WebSearch.Library.PosixPath

/-! `BinaryRunner.__check_link_name` of `blade/binary_runner.py`: whether a link can be made
next to those before it. An index that is out of range is no result. -/
namespace WebSearch.BinaryRunner
open Library.PosixPath

inductive Answer
  | ambiguous
  | incompatible (item : String)
  | valid
  deriving DecidableEq

/-- The condition of the loop. -/
def goesOn (longPath shortPath : List Char) : Option Bool :=
  if shortPath.isPrefixOf longPath then longPath[shortPath.length]?.map (· = '/') else some false

/-- The loop over the earlier names. -/
def checkItems (linkNameNorm : List Char) : List String → Option Answer
  | [] => some .valid
  | item :: rest => do
    let itemNorm := (normpath item).toList
    let (longPath,shortPath) :=
      if itemNorm.length ≤ linkNameNorm.length then (linkNameNorm,itemNorm) else (itemNorm,linkNameNorm)
    if ← goesOn longPath shortPath then return .incompatible item else checkItems linkNameNorm rest

def checkLinkName (linkName : String) (linkNameList : List String) : Option Answer :=
  if linkName ∈ linkNameList then some .ambiguous else checkItems (normpath linkName).toList linkNameList

/-- The parts of a relative name; the directory itself has none. -/
def parts (name : String) : List (List Char) := normComps false name.toList

def ProperAncestor (name other : String) : Prop := parts name <+: parts other ∧ parts name ≠ parts other

instance (name other : String) : Decidable (ProperAncestor name other) := inferInstanceAs (Decidable (_ ∧ _))

def Related (name other : String) : Prop := ProperAncestor name other ∨ ProperAncestor other name

instance (name other : String) : Decidable (Related name other) := inferInstanceAs (Decidable (_ ∨ _))

/-- There is an answer, and it says how the new name stands to the earlier ones. -/
def Answered (linkName : String) (linkNameList : List String) : Prop :=
  ∃ answer, checkLinkName linkName linkNameList = some answer ∧
    (answer = .ambiguous ↔ ∃ item ∈ linkNameList, normpath item = normpath linkName) ∧
    ((∃ item, answer = .incompatible item) ↔
      (∀ item ∈ linkNameList, normpath item ≠ normpath linkName) ∧ ∃ item ∈ linkNameList, Related item linkName) ∧
    (answer = .valid ↔
      (∀ item ∈ linkNameList, normpath item ≠ normpath linkName) ∧ ∀ item ∈ linkNameList, ¬Related item linkName)

/-! What the loop finds, by texts. -/

/-- One text goes on behind the other with a slash. -/
def Nested (first second : List Char) : Prop := ∃ rest, second = first ++ '/' :: rest

theorem Nested.shorter {first second : List Char} (nested : Nested first second) : first.length < second.length := by
  obtain ⟨rest,rfl⟩ := nested
  rw [List.length_append,List.length_cons]
  omega

theorem goesOn_self (text : List Char) : goesOn text text = none := by
  rw [goesOn,if_pos (List.isPrefixOf_iff_prefix.mpr (List.prefix_refl text)),List.getElem?_eq_none (Nat.le_refl _)]
  rfl

theorem goesOn_eq {longPath shortPath : List Char} (other : shortPath ≠ longPath) :
    ∃ found, goesOn longPath shortPath = some found ∧ (found = true ↔ Nested shortPath longPath) := by
  rw [goesOn]
  split
  next begins =>
    obtain ⟨rest,rfl⟩ := List.isPrefixOf_iff_prefix.mp begins
    cases rest with
    | nil => exact absurd (List.append_nil shortPath).symm other
    | cons c rest =>
      refine ⟨decide (c = '/'),by rw [List.getElem?_append_right (Nat.le_refl _),Nat.sub_self]; rfl,?_⟩
      rw [decide_eq_true_eq]
      constructor
      · rintro rfl
        exact ⟨rest,rfl⟩
      · rintro ⟨more,same⟩
        exact (List.cons.inj (List.append_cancel_left same)).1
  next apart =>
    refine ⟨false,rfl,iff_of_false Bool.false_ne_true ?_⟩
    rintro ⟨rest,rfl⟩
    exact apart (List.isPrefixOf_iff_prefix.mpr (List.prefix_append shortPath _))

/-- Whichever text is longer. -/
def Crossed (first second : List Char) : Prop := Nested first second ∨ Nested second first

theorem checkItems_cons {linkNameNorm : List Char} {item : String} (rest : List String)
    (other : (normpath item).toList ≠ linkNameNorm) :
    (Crossed (normpath item).toList linkNameNorm ∧ checkItems linkNameNorm (item :: rest) = some (.incompatible item)) ∨
    (¬Crossed (normpath item).toList linkNameNorm ∧
      checkItems linkNameNorm (item :: rest) = checkItems linkNameNorm rest) := by
  rw [checkItems]
  generalize (normpath item).toList = itemNorm at other
  dsimp only
  split
  next longer =>
    obtain ⟨found,outcome,nested⟩ := goesOn_eq other
    have not_above (above : Nested linkNameNorm itemNorm) : False := absurd above.shorter (Nat.not_lt.mpr longer)
    rw [outcome]
    cases found with
    | true => exact .inl ⟨.inl (nested.mp rfl),rfl⟩
    | false => exact .inr ⟨fun crossed => crossed.elim (fun below => Bool.false_ne_true (nested.mpr below)) not_above,rfl⟩
  next shorter =>
    obtain ⟨found,outcome,nested⟩ := goesOn_eq (Ne.symm other)
    have not_below (below : Nested itemNorm linkNameNorm) : False := shorter (Nat.le_of_lt below.shorter)
    rw [outcome]
    cases found with
    | true => exact .inl ⟨.inr (nested.mp rfl),rfl⟩
    | false => exact .inr ⟨fun crossed => crossed.elim not_below fun above => Bool.false_ne_true (nested.mpr above),rfl⟩

/-- Where no earlier name is the same, there is an answer. -/
theorem checkItems_cases {linkNameNorm : List Char} {items : List String}
    (other : ∀ item ∈ items, (normpath item).toList ≠ linkNameNorm) :
    (∃ item ∈ items, Crossed (normpath item).toList linkNameNorm ∧
      checkItems linkNameNorm items = some (.incompatible item)) ∨
    ((∀ item ∈ items, ¬Crossed (normpath item).toList linkNameNorm) ∧ checkItems linkNameNorm items = some .valid) := by
  induction items with
  | nil => exact .inr ⟨by simp,rfl⟩
  | cons item rest ih =>
    rcases checkItems_cons rest (other item List.mem_cons_self) with ⟨crossed,found⟩ | ⟨apart,next⟩
    · exact .inl ⟨item,List.mem_cons_self,crossed,found⟩
    · rw [next]
      rcases ih fun later member => other later (List.mem_cons_of_mem item member) with ⟨later,member,found⟩ | ⟨none,valid⟩
      · exact .inl ⟨later,List.mem_cons_of_mem item member,found⟩
      · exact .inr ⟨List.forall_mem_cons.mpr ⟨apart,none⟩,valid⟩

/-- The loop itself never finds that a name is the same. -/
theorem checkItems_ne_ambiguous (linkNameNorm : List Char) (items : List String) :
    checkItems linkNameNorm items ≠ some .ambiguous := by
  induction items with
  | nil => simp [checkItems]
  | cons item rest ih =>
    by_cases same : (normpath item).toList = linkNameNorm
    · rw [checkItems,same]
      simp [goesOn_self]
    · rcases checkItems_cons rest same with ⟨-,found⟩ | ⟨-,next⟩
      · rw [found]
        simp
      · rw [next]
        exact ih

/-! Texts and parts. -/

theorem normpath_relative {name : String} (relative : isabs name = false) :
    (normpath name).toList = if parts name = [] then ['.'] else ['/'].intercalate (parts name) := by
  have none : initialSlashes name.toList = 0 := by
    rw [← Bool.not_eq_true,isabs_iff] at relative
    cases text : name.toList with
    | nil => rfl
    | cons c rest =>
      have letter : c ≠ '/' := fun slash => relative ⟨rest,by rw [text,slash]⟩
      simp [initialSlashes,letter]
  simp only [normpath,none,ne_eq,not_true_eq_false,decide_false,List.replicate_zero,List.nil_append]
  change (if ['/'].intercalate (parts name) = [] then "." else String.ofList (['/'].intercalate (parts name))).toList = _
  by_cases here : parts name = []
  · rw [if_pos here,here]
    rfl
  · have filled : ['/'].intercalate (parts name) ≠ [] := by
      intro empty
      have read := names_intercalate here fun comp member => mem_normComps member
      rw [empty] at read
      exact here (read.symm.trans rfl)
    rw [if_neg filled,if_neg here,String.toList_ofList]

theorem nested_iff {first second : List (List Char)} (filled : first ≠ []) (filled' : second ≠ [])
    (each : ∀ comp ∈ first, '/' ∉ comp) (each' : ∀ comp ∈ second, '/' ∉ comp) :
    Nested (['/'].intercalate first) (['/'].intercalate second) ↔ first <+: second ∧ first ≠ second := by
  have read := List.splitOn_intercalate '/' each filled
  have read' := List.splitOn_intercalate '/' each' filled'
  constructor
  · rintro ⟨rest,text⟩
    have split := List.splitOn_append_cons_self (a := '/') (['/'].intercalate first) rest
    rw [← text,read,read'] at split
    refine ⟨⟨rest.splitOn '/',split.symm⟩,fun same => ?_⟩
    rw [← same] at split
    exact List.splitOn_ne_nil '/' rest (List.self_eq_append_right.mp split)
  · rintro ⟨⟨rest,rfl⟩,proper⟩
    have more : rest ≠ [] := fun none => proper (by rw [none,List.append_nil])
    have readRest := List.splitOn_intercalate '/' (fun comp member => each' comp (List.mem_append_right first member)) more
    have split := List.splitOn_append_cons_self (a := '/') (['/'].intercalate first) (['/'].intercalate rest)
    rw [read,readRest] at split
    refine ⟨['/'].intercalate rest,?_⟩
    rw [← split,List.intercalate_splitOn]

/-- The directory itself is nested with nothing by its text. -/
theorem not_nested_dot {name : String} (relative : isabs name = false) :
    ¬Crossed (normpath name).toList ['.'] := by
  rintro (⟨rest,text⟩ | ⟨rest,text⟩)
  · cases first : (normpath name).toList with
    | nil =>
      rw [first] at text
      exact absurd (List.cons.inj text).1 (by decide)
    | cons c more =>
      rw [first] at text
      exact List.cons_ne_nil '/' rest (List.append_eq_nil_iff.mp (List.cons.inj text).2.symm).2
  · rw [normpath_relative relative] at text
    split at text
    next => exact absurd (List.cons.inj text).2 (by simp)
    next filled =>
      have inside (comp : List Char) (member : comp ∈ parts name) : '/' ∉ comp := (mem_normComps member).2
      have read := List.splitOn_intercalate '/' inside filled
      have split := List.splitOn_append_cons_self (a := '/') ['.'] rest
      rw [← text,read] at split
      have member : ['.'] ∈ parts name := split ▸ List.mem_append_left _ (by decide)
      exact ne_dot_of_mem_normComps member rfl

theorem crossed_iff {item linkName : String} (relative : isabs item = false) (relative' : isabs linkName = false)
    (some : parts linkName ≠ []) :
    Crossed (normpath item).toList (normpath linkName).toList ↔ parts item ≠ [] ∧ Related item linkName := by
  by_cases here : parts item = []
  · have dot : (normpath item).toList = ['.'] := by rw [normpath_relative relative,if_pos here]
    have apart := not_nested_dot relative'
    rw [dot]
    exact iff_of_false (fun crossed => apart crossed.symm) fun both => both.1 here
  · have each (name : String) (comp : List Char) (member : comp ∈ parts name) : '/' ∉ comp := (mem_normComps member).2
    rw [normpath_relative relative,normpath_relative relative',if_neg here,if_neg some,Crossed,
      nested_iff here some (each item) (each linkName),nested_iff some here (each linkName) (each item)]
    exact (and_iff_right here).symm

theorem related_dot {item linkName : String} (other : parts item ≠ parts linkName) (dot : parts item = [] ∨ parts linkName = []) :
    Related item linkName := by
  rcases dot with here | here
  · exact .inl ⟨here ▸ List.nil_prefix,other⟩
  · exact .inr ⟨here ▸ List.nil_prefix,Ne.symm other⟩

theorem not_crossed_dot {item linkName : String} (relative : isabs item = false) (relative' : isabs linkName = false)
    (dot : parts linkName = []) : ¬Crossed (normpath item).toList (normpath linkName).toList := by
  rw [normpath_relative relative',if_pos dot]
  exact not_nested_dot relative

theorem related_of_crossed {item linkName : String} (relative : isabs item = false) (relative' : isabs linkName = false)
    (crossed : Crossed (normpath item).toList (normpath linkName).toList) : Related item linkName := by
  by_cases dot : parts linkName = []
  · exact absurd crossed (not_crossed_dot relative relative' dot)
  · exact ((crossed_iff relative relative' dot).mp crossed).2

/-- The texts show what the parts do but for the directory itself. -/
theorem crossed_of_related_iff {linkName : String} {linkNameList : List String} (relative : isabs linkName = false)
    (each : ∀ item ∈ linkNameList, isabs item = false) (apart : ∀ item ∈ linkNameList, parts item ≠ parts linkName) :
    ((∃ item ∈ linkNameList, Related item linkName) →
        ∃ item ∈ linkNameList, Crossed (normpath item).toList (normpath linkName).toList) ↔
      (parts linkName = [] → linkNameList = []) ∧
        ((∃ item ∈ linkNameList, parts item = []) → ∃ item ∈ linkNameList, parts item ≠ [] ∧ Related item linkName) := by
  by_cases dot : parts linkName = []
  · constructor
    · intro shown
      refine ⟨fun _ => List.eq_nil_iff_forall_not_mem.mpr fun item member => ?_,?_⟩
      · obtain ⟨other,there,crossed⟩ := shown ⟨item,member,related_dot (apart item member) (.inr dot)⟩
        exact not_crossed_dot (each other there) relative dot crossed
      · rintro ⟨item,member,here⟩
        exact absurd (here.trans dot.symm) (apart item member)
    · rintro ⟨empty,-⟩ ⟨item,member,-⟩
      rw [empty dot] at member
      exact absurd member List.not_mem_nil
  · constructor
    · intro shown
      refine ⟨fun here => absurd here dot,?_⟩
      rintro ⟨item,member,here⟩
      obtain ⟨other,there,crossed⟩ := shown ⟨item,member,related_dot (apart item member) (.inl here)⟩
      exact ⟨other,there,(crossed_iff (each other there) relative dot).mp crossed⟩
    · rintro ⟨-,shown⟩ ⟨item,member,related⟩
      by_cases here : parts item = []
      · obtain ⟨other,there,both⟩ := shown ⟨item,member,here⟩
        exact ⟨other,there,(crossed_iff (each other there) relative dot).mpr both⟩
      · exact ⟨item,member,(crossed_iff (each item member) relative dot).mpr ⟨here,related⟩⟩

section Fresh
variable {linkName : String} {linkNameList : List String} (relative : isabs linkName = false)
  (each : ∀ item ∈ linkNameList, isabs item = false) (fresh : ∀ item ∈ linkNameList, normpath item ≠ normpath linkName)

include fresh

theorem checkLinkName_fresh : checkLinkName linkName linkNameList = checkItems (normpath linkName).toList linkNameList :=
  if_neg fun spelled => fresh linkName spelled rfl

include relative each

theorem parts_fresh (item : String) (member : item ∈ linkNameList) : parts item ≠ parts linkName := by
  intro same
  refine fresh item member (String.toList_inj.mp ?_)
  rw [normpath_relative (each item member),normpath_relative relative,same]

/-- Where no earlier name is the same, the answer is right where the texts show a related one. -/
theorem answered_fresh_iff : Answered linkName linkNameList ↔ ((∃ item ∈ linkNameList, Related item linkName) →
    ∃ item ∈ linkNameList, Crossed (normpath item).toList (normpath linkName).toList) := by
  have other (item : String) (member : item ∈ linkNameList) : (normpath item).toList ≠ (normpath linkName).toList :=
    fun same => fresh item member (String.toList_inj.mp same)
  have none : ¬∃ item ∈ linkNameList, normpath item = normpath linkName := fun ⟨item,member,same⟩ => fresh item member same
  have checked := checkLinkName_fresh fresh
  rcases checkItems_cases other with ⟨item,member,crossed,found⟩ | ⟨apart,found⟩
  · have related := related_of_crossed (each item member) relative crossed
    refine iff_of_true ⟨_,checked.trans found,?_,?_,?_⟩ fun _ => ⟨item,member,crossed⟩
    · exact iff_of_false (by simp) none
    · exact iff_of_true ⟨item,rfl⟩ ⟨fresh,item,member,related⟩
    · exact iff_of_false (by simp) fun both => both.2 item member related
  · constructor
    · rintro ⟨answer,outcome,-,incompatible,-⟩ related
      obtain rfl := Option.some.inj (outcome.symm.trans (checked.trans found))
      obtain ⟨item,wrong⟩ := incompatible.mpr ⟨fresh,related⟩
      exact absurd wrong (by simp)
    · intro shown
      have unrelated (item : String) (member : item ∈ linkNameList) : ¬Related item linkName := by
        intro related
        obtain ⟨other,there,crossed⟩ := shown ⟨item,member,related⟩
        exact apart other there crossed
      refine ⟨.valid,checked.trans found,iff_of_false (by decide) none,?_,iff_of_true rfl ⟨fresh,unrelated⟩⟩
      exact iff_of_false (by simp) fun ⟨_,item,member,related⟩ => unrelated item member related

end Fresh

/-- The spelling of an earlier name; or no earlier name that is the same, and the directory
itself only as the first name or next to a name that is related. -/
theorem answered_iff (linkName : String) (linkNameList : List String) (relative : isabs linkName = false)
    (each : ∀ item ∈ linkNameList, isabs item = false) :
    Answered linkName linkNameList ↔ linkName ∈ linkNameList ∨
      ((∀ item ∈ linkNameList, normpath item ≠ normpath linkName) ∧ (parts linkName = [] → linkNameList = []) ∧
        ((∃ item ∈ linkNameList, parts item = []) → ∃ item ∈ linkNameList, parts item ≠ [] ∧ Related item linkName)) := by
  by_cases spelled : linkName ∈ linkNameList
  · refine iff_of_true ⟨.ambiguous,if_pos spelled,?_,?_,?_⟩ (.inl spelled)
    · exact iff_of_true rfl ⟨linkName,spelled,rfl⟩
    · exact iff_of_false (by simp) fun both => both.1 linkName spelled rfl
    · exact iff_of_false (by decide) fun both => both.1 linkName spelled rfl
  · by_cases fresh : ∀ item ∈ linkNameList, normpath item ≠ normpath linkName
    · rw [answered_fresh_iff relative each fresh,crossed_of_related_iff relative each (parts_fresh relative each fresh)]
      exact ⟨fun both => .inr ⟨fresh,both⟩,fun holds => holds.elim (fun there => absurd there spelled) And.right⟩
    · refine iff_of_false ?_ fun holds => holds.elim spelled fun both => fresh both.1
      rintro ⟨answer,outcome,ambiguous,-,-⟩
      simp only [not_forall,Decidable.not_not,exists_prop] at fresh
      rw [checkLinkName,if_neg spelled,ambiguous.mpr fresh] at outcome
      exact checkItems_ne_ambiguous _ _ outcome

theorem answered_nested : Answered "./data/words" ["conf/","data/words/en"] :=
  (answered_iff "./data/words" ["conf/","data/words/en"] (by decide) (by decide)).mpr (by decide)

theorem dot_not_answered : checkLinkName "data" [] = some .valid ∧ isabs "./data" = false ∧ ¬Answered "./data" ["data"] := by
  refine ⟨by decide,by decide,?_⟩
  rintro ⟨answer,outcome,-⟩
  have fails : checkLinkName "./data" ["data"] = none := by decide
  exact absurd (fails.symm.trans outcome) (by simp)

end WebSearch.BinaryRunner
