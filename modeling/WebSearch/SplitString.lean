import WebSearch.Base.Bytes
import Mathlib.Data.List.Basic

/-! `base/string_util.cc`: `TrimWhitespace`, `SplitString` and `JoinString` on
`std::string`. Splitting is `List.splitOn` with every piece trimmed, and joining is
`List.intercalate`. -/
namespace WebSearch.StringUtil

def kWhitespaceASCII : Bytes := [0x09,0x0A,0x0B,0x0C,0x0D,0x20]

def findFirstNotOfAny (chars s : Bytes) : Option Nat := s.findIdx? fun c => !chars.contains c

def findLastNotOfAny (chars s : Bytes) : Option Nat :=
  (s.reverse.findIdx? fun c => !chars.contains c).map (s.length - 1 - ·)

/-- What `TrimStringT` puts into `output`; the flags are the bits of `positions`. -/
def trimStringT (input trimChars : Bytes) (leading trailing : Bool) : Bytes :=
  let firstGoodChar := if leading then findFirstNotOfAny trimChars input else some 0
  let lastGoodChar := if trailing then findLastNotOfAny trimChars input else some (input.length - 1)
  if input = [] then []
  else match firstGoodChar, lastGoodChar with
    | some first, some last => (input.drop first).take (last - first + 1)
    | _, _ => []

/-- `TrimWhitespace` with `TRIM_ALL`. -/
def trimWhitespace (input : Bytes) : Bytes := trimStringT input kWhitespaceASCII true true

/-- A turn of the loop of `SplitStringT`, from `last` and what was pushed to `r`. -/
def splitStep (str : Bytes) (s : UInt8) (trim : Bool) (pieces : Nat × List Bytes) (i : Nat) : Nat × List Bytes :=
  let (last,r) := pieces
  if i = str.length ∨ str[i]? = some s then
    let tmp := (str.drop last).take (i - last)
    (i + 1,r ++ [if trim then trimWhitespace tmp else tmp])
  else (last,r)

def splitStringT (str : Bytes) (s : UInt8) (trim : Bool) (r : List Bytes) : List Bytes :=
  ((List.range (str.length + 1)).foldl (splitStep str s trim) (0,r)).2

def splitString (str : Bytes) (s : UInt8) (r : List Bytes) : List Bytes := splitStringT str s true r

def splitStringDontTrim (str : Bytes) (s : UInt8) (r : List Bytes) : List Bytes := splitStringT str s false r

def joinStringT (parts : List Bytes) (sep : UInt8) : Bytes :=
  match parts with
  | [] => []
  | first :: rest => rest.foldl (fun result part => result ++ [sep] ++ part) first

def joinString (parts : List Bytes) (sep : UInt8) : Bytes := joinStringT parts sep

/-- The last separator is cut off again. -/
def joinVector (values : List Bytes) (ch : UInt8) : Bytes :=
  if values.isEmpty then []
  else
    let str := values.foldl (fun str value => str ++ value ++ [ch]) []
    str.take (str.length - 1)

/-- The piece since `last`, when the loop has come to the end of `before`. -/
theorem pending {str before rest : Bytes} (whole : str = before ++ rest) {last : Nat} (inside : last ≤ before.length) :
    str.drop last = before.drop last ++ rest ∧ (str.drop last).take (before.length - last) = before.drop last := by
  have dropped : str.drop last = before.drop last ++ rest := by rw [whole,List.drop_append_of_le_length inside]
  refine ⟨dropped,?_⟩
  rw [dropped,← List.length_drop,List.take_left]

theorem split_loop (str : Bytes) (s : UInt8) (trim : Bool) (before rest : Bytes) (whole : str = before ++ rest)
    (last : Nat) (r : List Bytes) (inside : last ≤ before.length) (plain : s ∉ before.drop last) :
    ((List.range' before.length (rest.length + 1)).foldl (splitStep str s trim) (last,r)).2 =
      r ++ ((str.drop last).splitOn s).map fun tmp => if trim then trimWhitespace tmp else tmp := by
  induction rest generalizing before last r with
  | nil =>
    obtain ⟨dropped,piece⟩ := pending whole inside
    have ended : before.length = str.length := by rw [whole,List.append_nil]
    simp only [List.length_nil,Nat.zero_add,List.range'_one,List.foldl_cons,List.foldl_nil,splitStep,piece]
    rw [if_pos (.inl ended),dropped,List.append_nil,List.splitOn_eq_singleton plain]
    rfl
  | cons c rest ih =>
    obtain ⟨dropped,piece⟩ := pending whole inside
    have here : str[before.length]? = some c := by
      rw [whole,List.getElem?_append_right (Nat.le_refl _),Nat.sub_self,List.getElem?_cons_zero]
    have early : before.length ≠ str.length := by
      rw [whole,List.length_append,List.length_cons]
      omega
    have next : str = before ++ [c] ++ rest := by rw [whole,List.append_assoc,List.singleton_append]
    have width : (before ++ [c]).length = before.length + 1 := by rw [List.length_append,List.length_singleton]
    have later := ih (before ++ [c]) next
    rw [width] at later
    rw [List.length_cons,List.range'_succ,List.foldl_cons]
    by_cases separator : c = s
    · have turn : splitStep str s trim (last,r) before.length =
          (before.length + 1,r ++ [if trim then trimWhitespace (before.drop last) else before.drop last]) := by
        simp only [splitStep,here,separator,or_true,if_true,piece]
      have nothing : (before ++ [c]).drop (before.length + 1) = [] := List.drop_of_length_le (by omega)
      have beyond : str.drop (before.length + 1) = rest := by rw [next,← width,List.drop_left]
      rw [turn,later _ _ (Nat.le_refl _) (by simp [nothing]),beyond,dropped,separator,
        List.splitOn_append_cons_self_of_not_mem plain,List.map_cons,List.append_assoc,List.singleton_append]
    · have turn : splitStep str s trim (last,r) before.length = (last,r) := by
        simp [splitStep,here,early,separator]
      have grown : (before ++ [c]).drop last = before.drop last ++ [c] := List.drop_append_of_le_length inside
      rw [turn]
      apply later
      · omega
      · rw [grown]
        simp [plain,Ne.symm separator]

theorem splitString_eq (str : Bytes) (s : UInt8) (r : List Bytes) :
    splitString str s r = r ++ (str.splitOn s).map trimWhitespace := by
  have split := split_loop str s true [] str rfl 0 r (Nat.le_refl 0) (by simp)
  simp only [List.length_nil,← List.range_eq_range',List.drop_zero,if_true] at split
  exact split

theorem splitStringDontTrim_eq (str : Bytes) (s : UInt8) (r : List Bytes) :
    splitStringDontTrim str s r = r ++ str.splitOn s := by
  have split := split_loop str s false [] str rfl 0 r (Nat.le_refl 0) (by simp)
  simp only [List.length_nil,← List.range_eq_range',List.drop_zero,Bool.false_eq_true,if_false,List.map_id_fun',id] at split
  exact split

theorem joinString_cons (first : Bytes) (rest : List Bytes) (sep : UInt8) :
    joinString (first :: rest) sep = [sep].intercalate (first :: rest) := by
  change rest.foldl (fun result part => result ++ [sep] ++ part) first = _
  induction rest generalizing first with
  | nil => rw [List.foldl_nil,List.intercalate_singleton]
  | cons second rest ih =>
    rw [List.foldl_cons,ih,List.intercalate_cons_cons]
    cases rest with
    | nil => simp only [List.intercalate_singleton]
    | cons third rest => simp only [List.intercalate_cons_cons,List.append_assoc]

theorem joinString_eq (parts : List Bytes) (sep : UInt8) : joinString parts sep = [sep].intercalate parts := by
  cases parts with
  | nil => rfl
  | cons first rest => exact joinString_cons first rest sep

/-- Every part with its separator behind it, and no separator is left over. -/
theorem appended_eq (values : List Bytes) (ch : UInt8) (before : Bytes) :
    values.foldl (fun str value => str ++ value ++ [ch]) before =
      if values = [] then before else before ++ [ch].intercalate values ++ [ch] := by
  induction values generalizing before with
  | nil => rfl
  | cons first rest ih =>
    rw [List.foldl_cons,ih,if_neg (List.cons_ne_nil _ _)]
    cases rest with
    | nil => rw [if_pos rfl,List.intercalate_singleton]
    | cons second rest =>
      rw [if_neg (List.cons_ne_nil _ _),List.intercalate_cons_cons]
      simp only [List.append_assoc]

theorem joinVector_eq (values : List Bytes) (ch : UInt8) : joinVector values ch = [ch].intercalate values := by
  cases values with
  | nil => rfl
  | cons first rest =>
    have appended := appended_eq (first :: rest) ch []
    rw [if_neg (List.cons_ne_nil _ _),List.nil_append] at appended
    simp only [joinVector,List.isEmpty_cons,Bool.false_eq_true,if_false,appended,List.length_append,List.length_singleton,
      Nat.add_sub_cancel,List.take_left]

theorem split_join (c : UInt8) :
    (∀ parts r, parts ≠ [] → (∀ part ∈ parts, c ∉ part) → splitStringDontTrim (joinString parts c) c r = r ++ parts) ∧
    (∀ s, joinString (splitStringDontTrim s c []) c = s) ∧
    ∀ parts, joinVector parts c = joinString parts c := by
  refine ⟨?_,?_,?_⟩
  · intro parts r some plain
    rw [splitStringDontTrim_eq,joinString_eq,List.splitOn_intercalate c plain some]
  · intro s
    rw [splitStringDontTrim_eq,joinString_eq,List.nil_append,List.intercalate_splitOn]
  · intro parts
    rw [joinVector_eq,joinString_eq]

/-- Empty parts at both ends are kept. -/
theorem split_join_commas : splitStringDontTrim (joinString [[],[97],[]] 44) 44 [[98]] = [[98],[],[97],[]] :=
  (split_join 44).1 [[],[97],[]] [[98]] (List.cons_ne_nil _ _) (by decide)

/-- A string that neither begins nor ends with whitespace. -/
def Trimmed (s : Bytes) : Prop := (∀ c ∈ s.head?, c ∉ kWhitespaceASCII) ∧ ∀ c ∈ s.getLast?, c ∉ kWhitespaceASCII

/-- The search from the front stops at once exactly for such a beginning. -/
theorem findFirstNotOfAny_cases (chars s : Bytes) :
    (findFirstNotOfAny chars s = none ∧ ∀ c ∈ s, c ∈ chars) ∨
    ∃ first, findFirstNotOfAny chars s = some first ∧ first < s.length ∧ (∃ c ∈ s, c ∉ chars) ∧
      (first = 0 ↔ ∀ c ∈ s.head?, c ∉ chars) := by
  cases found : findFirstNotOfAny chars s with
  | none =>
    refine .inl ⟨rfl,fun c member => ?_⟩
    simpa using List.findIdx?_eq_none_iff.mp found c member
  | some first =>
    obtain ⟨inside,good,earlier⟩ := List.findIdx?_eq_some_iff_getElem.mp found
    have outside : s[first] ∉ chars := by simpa using good
    refine .inr ⟨first,rfl,inside,⟨_,List.getElem_mem inside,outside⟩,?_⟩
    have head : s.head? = some s[0] := by rw [List.head?_eq_getElem?,List.getElem?_eq_getElem]
    rw [head]
    constructor
    · intro start c same
      obtain rfl := Option.some.inj same
      subst start
      exact outside
    · intro front
      by_contra later
      have inner := earlier 0 (Nat.pos_of_ne_zero later)
      simp only [Bool.not_eq_true,Bool.not_eq_false',List.contains_iff_mem] at inner
      exact front _ rfl inner

theorem trimWhitespace_eq_self_iff (s : Bytes) : trimWhitespace s = s ↔ Trimmed s := by
  by_cases empty : s = []
  · simp [empty,trimWhitespace,trimStringT,Trimmed]
  · have positive := List.length_pos_of_ne_nil empty
    have last : s.getLast? = s.reverse.head? := (List.head?_reverse ..).symm
    simp only [trimWhitespace,trimStringT,if_true,if_neg empty,Trimmed,last]
    obtain ⟨nothing,all⟩ | ⟨first,found,inside,⟨c,member,outside⟩,front⟩ := findFirstNotOfAny_cases kWhitespaceASCII s
    · obtain ⟨c,rest,rfl⟩ := List.exists_cons_of_ne_nil empty
      simp only [nothing]
      constructor
      · intro wrong
        exact absurd wrong.symm empty
      · intro trimmed
        exact absurd (all c List.mem_cons_self) (trimmed.1 c rfl)
    · obtain ⟨_,all⟩ | ⟨skipped,located,within,_,back⟩ := findFirstNotOfAny_cases kWhitespaceASCII s.reverse
      · exact absurd (all c (List.mem_reverse.mpr member)) outside
      · change s.reverse.findIdx? _ = some skipped at located
        rw [List.length_reverse] at within
        simp only [found,findLastNotOfAny,located,Option.map_some,← front,← back]
        constructor
        · intro same
          have long := congrArg List.length same
          rw [List.length_take,List.length_drop] at long
          omega
        · intro both
          have width : s.length - 1 - skipped - first + 1 = s.length := by omega
          rw [width,both.1,List.drop_zero,List.take_length]

end WebSearch.StringUtil
