import WebSearch.TldCleanup
import WebSearch.Library.Loop
import Mathlib.Data.List.Induction
import Mathlib.Data.List.TakeWhile

/-! Which rules `NormalizeFile` writes for which lines. -/
namespace WebSearch.TldCleanup
open Library StringUtil

/-! A rule and its lines. -/

/-- Without one dot in front and one at the end. -/
def undotted (text : Bytes) : Bytes :=
  let domain := if text.head? = some dot then text.tail else text
  if domain.getLast? = some dot then domain.dropLast else domain

def mark (domain : Bytes) : Rule := ⟨domain.head? = some bang,[star,dot].isPrefixOf domain⟩

/-- What follows the mark. -/
def body (domain : Bytes) : Bytes :=
  if domain.head? = some bang then domain.drop 1 else if [star,dot].isPrefixOf domain then domain.drop 2 else domain

/-- The rule that a text stands for; none where it is ignored. -/
def ruleOf (gurl : Bytes → Gurl) (text : Bytes) : Option (Bytes × Rule) :=
  if body (undotted text) = [] then none
  else (gurl (scheme ++ body (undotted text))).host.map fun host => (host,mark (undotted text))

/-- The lines that are not empty. -/
def lines (data : Bytes) : List Bytes := wordsOf (fun c => lineBreaks.contains c) data

def isComment (line : Bytes) : Bool := [slash,slash].isPrefixOf line

/-- A line up to the first whitespace, or up to a NUL. -/
def ruleText (line : Bytes) : Bytes := cString (line.takeWhile fun c => !spaces.contains c)

def namedRules (gurl : Bytes → Gurl) (lines : List Bytes) : List (Bytes × Rule) :=
  (lines.filter fun line => !isComment line).filterMap fun line => ruleOf gurl (ruleText line)

/-- What is written is, once each, the given rules, and the last labels for which there is
no rule. -/
structure Written (header : Bytes) (given : List (Bytes × Rule)) (output : Output) : Prop where
  written : output.text = writeRules header output.rules
  once : (output.rules.map Prod.fst).Nodup
  rules : ∀ name rule, (name,rule) ∈ output.rules ↔ (name,rule) ∈ given ∨
    rule = ⟨false,false⟩ ∧ (∀ entry ∈ given, entry.1 ≠ name) ∧ ∃ entry ∈ given, trueTld entry.1 = some name

structure Cleaned (gurl : Bytes → Gurl) (header : Bytes) (lines : List Bytes) (output : Output) : Prop
    extends Written header (namedRules gurl lines) output where
  named : ∀ entry ∈ output.rules, entry.1 ≠ []

/-- The file does not begin with a line break. A line that is no comment has no NUL in a line
before it, something of its rule is left without dots and mark, and `GURL` does not take its
host for empty. -/
structure Clean (gurl : Bytes → Gurl) (data : Bytes) : Prop where
  begins : ∀ c ∈ data.head?, lineBreaks.contains c = false
  reads : ∀ before line after, lines data = before ++ line :: after → isComment line = false →
    (∀ earlier ∈ before, 0 ∉ earlier) ∧ body (undotted (ruleText line)) ≠ [] ∧
      (gurl (scheme ++ body (undotted (ruleText line)))).host ≠ some []

/-! `NormalizeRule`. -/

/-- What is added for a text: ignored rules that are empty have an entry. -/
def entryOf (gurl : Bytes → Gurl) (text : Bytes) : Option (Bytes × Rule) :=
  if body (undotted text) = [] then some ([],mark (undotted text)) else ruleOf gurl text

section Rule
variable {gurl : Bytes → Gurl}

theorem stripMark_eq (domain : Bytes) : stripMark gurl domain ⟨false,false⟩ =
    if body domain = [] then ignoredEmpty [] (mark domain) else canonicalize gurl (body domain) (mark domain) := by
  have empty (domain : Bytes) (rule : Rule) : (if domain.length = 0 then ignoredEmpty domain rule else canonicalize gurl domain rule) =
      if domain = [] then ignoredEmpty [] rule else canonicalize gurl domain rule := by
    cases domain <;> rfl
  rw [stripMark,body,mark]
  by_cases marked : domain.head? = some bang
  · have plain : [star,dot].isPrefixOf domain = false := by
      cases domain with
      | nil => rfl
      | cons c rest =>
        obtain rfl : c = bang := Option.some.inj marked
        rfl
    rw [if_pos marked,if_pos marked,plain,decide_eq_true marked]
    exact empty (domain.drop 1) ⟨true,false⟩
  · rw [if_neg marked,if_neg marked,decide_eq_false marked]
    cases [star,dot].isPrefixOf domain with
    | true => exact empty (domain.drop 2) ⟨false,true⟩
    | false => exact empty domain ⟨false,false⟩

theorem normalizeRule_eq {text : Bytes} (some : text ≠ []) : normalizeRule gurl text ⟨false,false⟩ =
    .ok (if body (undotted text) = [] then ignoredEmpty [] (mark (undotted text))
      else canonicalize gurl (body (undotted text)) (mark (undotted text))) := by
  cases text with
  | nil => exact absurd rfl some
  | cons first rest =>
    have front : (if first = dot then rest else first :: rest) =
        if (first :: rest).head? = Option.some dot then (first :: rest).tail else first :: rest := by
      simp only [List.head?_cons,Option.some.injEq,List.tail_cons]
    rw [normalizeRule,front,undotted]
    generalize (if (first :: rest).head? = Option.some dot then (first :: rest).tail else first :: rest) = domain
    cases domain with
    | nil => rfl
    | cons c domain =>
      dsimp only
      rw [if_neg (by simp)]
      generalize (if (c :: domain).getLast? = Option.some dot then (c :: domain).dropLast else c :: domain) = domain
      cases domain with
      | nil => rfl
      | cons c domain => rw [if_neg (by simp),stripMark_eq]

/-- An error is what leaves a text without an entry. -/
theorem canonicalize_entry (domain : Bytes) (rule : Rule) :
    (canonicalize gurl domain rule).result = .error ∧ (gurl (scheme ++ domain)).host.map (fun host => (host,rule)) = none ∨
      (canonicalize gurl domain rule).result ≠ .error ∧ (gurl (scheme ++ domain)).host.map (fun host => (host,rule)) =
        some ((canonicalize gurl domain rule).domain,(canonicalize gurl domain rule).rule) := by
  unfold canonicalize
  dsimp only
  cases (gurl (scheme ++ domain)).host with
  | none => exact .inl ⟨rfl,rfl⟩
  | some host =>
    refine .inr ⟨?_,rfl⟩
    dsimp only
    split <;> decide

theorem addRule_eq {text : Bytes} (some : text ≠ []) (state : Cleaning) : ∃ result log,
    addRule gurl text state = match entryOf gurl text with
      | none => .ok {state with result,log}
      | Option.some (name,rule) =>
        if (state.rules.lookup name).isSome then .error .check
        else .ok ({state with rules := put name rule state.rules,result,log}.insertTld name) := by
  rw [addRule,normalizeRule_eq some,entryOf,ruleOf]
  by_cases empty : body (undotted text) = []
  · rw [if_pos empty,if_pos empty]
    exact ⟨_,_,rfl⟩
  · rw [if_neg empty,if_neg empty,if_neg empty]
    obtain ⟨failed,entry⟩ | ⟨kept,entry⟩ := @canonicalize_entry gurl (body (undotted text)) (mark (undotted text))
    · rw [entry]
      exact ⟨_,_,if_pos failed⟩
    · rw [entry]
      exact ⟨_,_,if_neg kept⟩

theorem mem_insertTld {state : Cleaning} {name label : Bytes} :
    label ∈ (state.insertTld name).extraRules ↔ label ∈ state.extraRules ∨ trueTld name = some label := by
  unfold Cleaning.insertTld
  cases trueTld name with
  | none => simp
  | some other =>
    rw [List.mem_insert_iff,Option.some.injEq,or_comm,eq_comm]

theorem insertTld_rules (state : Cleaning) (name : Bytes) : (state.insertTld name).rules = state.rules := by
  unfold Cleaning.insertTld
  cases trueTld name <;> rfl

/-- What a text that goes through adds. -/
structure Added (gurl : Bytes → Gurl) (text : Bytes) (state next : Cleaning) : Prop where
  some : text ≠ []
  rules : next.rules = state.rules ++ (entryOf gurl text).toList
  fresh : ∀ entry ∈ entryOf gurl text, entry.1 ∉ state.rules.map Prod.fst
  extra : ∀ label, label ∈ next.extraRules ↔ label ∈ state.extraRules ∨ ∃ entry ∈ entryOf gurl text, trueTld entry.1 = Option.some label

theorem addRule_fresh {text : Bytes} (some : text ≠ []) {state : Cleaning}
    (fresh : ∀ entry ∈ entryOf gurl text, entry.1 ∉ state.rules.map Prod.fst) :
    ∃ next, addRule gurl text state = .ok next ∧ Added gurl text state next := by
  obtain ⟨result,log,added⟩ := addRule_eq some state
  cases entry : entryOf gurl text with
  | none =>
    rw [entry] at added
    refine ⟨_,added,some,?_,?_,fun label => ?_⟩
    · rw [entry]
      exact (List.append_nil _).symm
    · simp [entry]
    · simp [entry]
  | some pair =>
    obtain ⟨name,rule⟩ := pair
    rw [entry] at added fresh
    have absent : name ∉ state.rules.map Prod.fst := fresh (name,rule) rfl
    have unseen : ¬(state.rules.lookup name).isSome = true := by rwa [lookup_isSome_iff_key]
    dsimp only at added
    rw [if_neg unseen] at added
    refine ⟨_,added,some,?_,?_,fun label => ?_⟩
    · rw [entry,insertTld_rules]
      exact put_absent rule absent
    · rw [entry]
      exact fresh
    · rw [mem_insertTld,entry]
      simp

theorem addRule_ok {text : Bytes} {state next : Cleaning} (called : addRule gurl text state = .ok next) :
    Added gurl text state next := by
  by_cases none : text = []
  · subst none
    exact absurd called (by simp [addRule,normalizeRule,bind,Except.bind])
  by_cases fresh : ∀ entry ∈ entryOf gurl text, entry.1 ∉ state.rules.map Prod.fst
  · obtain ⟨other,here,added⟩ := addRule_fresh none fresh
    rw [here] at called
    exact Except.ok.inj called ▸ added
  · obtain ⟨result,log,added⟩ := addRule_eq none state
    obtain ⟨⟨name,rule⟩,entry,taken⟩ : ∃ entry ∈ entryOf gurl text, entry.1 ∈ state.rules.map Prod.fst := by
      simpa only [not_forall,not_not,exists_prop] using fresh
    rw [called,entry] at added
    dsimp only at added
    rw [if_pos (lookup_isSome_iff_key.mpr taken)] at added
    cases added

end Rule

/-! The loop over the file takes line by line. -/

section Lines
variable {gurl : Bytes → Gurl}

def lineTurn (gurl : Bytes → Gurl) (seen : Bool) (line : Bytes) (state : Cleaning) : Except Failure Cleaning :=
  if isComment line then .ok state else if seen then .error .outOfRange else addRule gurl (ruleText line) state

/-- Before a line it is known whether there has been a NUL. -/
def lineStep (gurl : Bytes → Gurl) (position : Bool × Cleaning) (line : Bytes) : Except Failure (Bool × Cleaning) :=
  (lineTurn gurl position.1 line position.2).map fun state => (position.1 || line.contains 0,state)

theorem space_of_break {c : UInt8} (leading : lineBreaks.contains c = true) : spaces.contains c = true :=
  List.contains_iff_mem.mpr (List.mem_append_left [32,9] (List.contains_iff_mem.mp leading))

theorem assignFrom_eq (before rest : Bytes) (count : Nat) : assignFrom (before ++ rest) before.length count =
    if before.contains 0 then .error .outOfRange else .ok (cString (rest.take count)) := by
  unfold assignFrom
  cases nul : before.contains 0 with
  | true =>
    have short : (cString (before ++ rest)).length < before.length := by
      obtain ⟨front,behind,rfl,noNul⟩ := List.eq_append_cons_of_mem (List.contains_iff_mem.mp nul)
      rw [List.append_assoc,List.cons_append,cString_cut noNul,List.length_append,List.length_cons]
      omega
    rw [if_neg (Nat.not_le.mpr short),if_pos rfl]
  | false =>
    have noNul : 0 ∉ before := fun member => Bool.false_ne_true (nul.symm.trans (List.contains_iff_mem.mpr member))
    rw [cString_append noNul,if_pos (by simp),List.drop_left,if_neg Bool.false_ne_true,cString,List.take_takeWhile,cString]

/-- A test that fails behind a text stops there. -/
theorem takeWhile_stops {q : UInt8 → Bool} (line : Bytes) {behind : Bytes} (ends : ∀ c ∈ behind.head?, q c = false) :
    (line ++ behind).takeWhile q = line.takeWhile q := by
  induction line with
  | nil =>
    cases behind with
    | nil => rfl
    | cons c behind => exact List.takeWhile_cons_of_neg (by simp [ends c rfl])
  | cons c line ih => rw [List.cons_append,List.takeWhile_cons,List.takeWhile_cons,ih]

/-- The parts of a text around its first line. -/
structure FirstLine (text line gap after : Bytes) : Prop where
  whole : text = line ++ (gap ++ after)
  some : line ≠ []
  letters : ∀ c ∈ line, lineBreaks.contains c = false
  breaks : ∀ c ∈ gap, lineBreaks.contains c = true
  begins : ∀ c ∈ after.head?, lineBreaks.contains c = false
  last : gap = [] → after = []
  lines : lines text = line :: lines after

theorem exists_firstLine {c : UInt8} (letter : lineBreaks.contains c = false) (text : Bytes) :
    ∃ line gap after, FirstLine (c :: text) line gap after := by
  obtain ⟨line,gap,after,whole,some,letters,breaks,begins,last,words⟩ := exists_word letter text
  exact ⟨line,gap,after,whole,some,letters,breaks,begins,last,words⟩

variable {text line gap after : Bytes}

theorem FirstLine.ends (cut : FirstLine text line gap after) : ∀ c ∈ (gap ++ after).head?, lineBreaks.contains c = true := by
  cases gap with
  | nil => simp [cut.last rfl]
  | cons c gap => simpa using cut.breaks c List.mem_cons_self

theorem FirstLine.comment_iff (cut : FirstLine text line gap after) (before : Bytes) :
    (before ++ text)[before.length]? = Option.some slash ∧ (before ++ text)[before.length + 1]? = Option.some slash ↔
      isComment line = true := by
  have other (c : UInt8) (first : c ∈ (gap ++ after).head?) : c ≠ slash := by
    rintro rfl
    exact absurd (cut.ends slash first) (by decide)
  rw [List.getElem?_append_right (Nat.le_refl _),List.getElem?_append_right (Nat.le_add_right _ 1),Nat.sub_self,
    Nat.add_sub_cancel_left,cut.whole,isComment,List.isPrefixOf_iff_prefix]
  generalize gap ++ after = behind at other
  cases line with
  | nil => exact absurd rfl cut.some
  | cons c line =>
    cases line with
    | nil =>
      cases behind with
      | nil => simp
      | cons d behind => simpa using fun _ => other d rfl
    | cons d line => simp [List.cons_prefix_cons,eq_comm]

theorem FirstLine.lineEnd_eq (cut : FirstLine text line gap after) (before chars : Bytes) (stops : ∀ c, lineBreaks.contains c = true → chars.contains c = true) :
    (findFirstOf (before ++ text) chars before.length).getD (before ++ text).length =
      before.length + (line.takeWhile fun c => !chars.contains c).length := by
  rw [findFirstOf_getD,cut.whole,takeWhile_stops]
  intro c first
  rw [stops c (cut.ends c first)]
  rfl

theorem FirstLine.nextStart_eq (cut : FirstLine text line gap after) (before : Bytes) {width : Nat} (within : width ≤ line.length) :
    (findFirstNotOf (before ++ text) lineBreaks ((findFirstOf (before ++ text) lineBreaks (before.length + width)).getD
      (before ++ text).length)).getD (before ++ text).length = (before ++ line ++ gap).length := by
  have inside : before ++ text = (before ++ line.take width) ++ (line.drop width ++ (gap ++ after)) := by
    rw [cut.whole,List.append_assoc before,← List.append_assoc (line.take width),List.take_append_drop]
  have behind : before ++ text = (before ++ line) ++ (gap ++ after) := by rw [cut.whole,List.append_assoc]
  have here : before.length + width = (before ++ line.take width).length := by rw [List.length_append,List.length_take_of_le within]
  have left : ∀ c ∈ line.drop width, (!lineBreaks.contains c) = true := by
    intro c member
    rw [cut.letters c (List.mem_of_mem_drop member)]
    rfl
  have line_end : (findFirstOf (before ++ text) lineBreaks (before.length + width)).getD (before ++ text).length = (before ++ line).length := by
    rw [here,inside,findFirstOf_getD,takeWhile_stops,List.takeWhile_eq_self_iff.mpr left,← List.length_append,List.append_assoc,
      List.take_append_drop]
    intro c first
    rw [cut.ends c first]
    rfl
  rw [line_end,behind,findFirstNotOf_getD,takeWhile_stops gap cut.begins,List.takeWhile_eq_self_iff.mpr cut.breaks]
  exact List.length_append.symm

theorem FirstLine.contains_zero (cut : FirstLine text line gap after) (before : Bytes) :
    (before ++ line ++ gap).contains 0 = (before.contains 0 || line.contains 0) := by
  have noNul : gap.contains 0 = false := by
    rw [← Bool.not_eq_true,List.contains_iff_mem]
    intro member
    exact absurd (cut.breaks 0 member) (by decide)
  rw [List.contains_append,List.contains_append,noNul,Bool.or_false]

/-- One turn of the loop. -/
theorem FirstLine.turn (cut : FirstLine text line gap after) (before : Bytes) (fuel : Nat) (state : Cleaning) :
    normalizeLoop gurl (before ++ text) (fuel + 1) before.length state =
      lineTurn gurl (before.contains 0) line state >>= normalizeLoop gurl (before ++ text) fuel (before ++ line ++ gap).length := by
  have inside : before.length < (before ++ text).length := by
    have some := List.length_pos_of_ne_nil cut.some
    rw [cut.whole,List.length_append,List.length_append]
    omega
  rw [normalizeLoop,if_pos inside,lineTurn]
  by_cases comment : isComment line = true
  · have found := (cut.comment_iff before).mpr comment
    have line_end := cut.lineEnd_eq before lineBreaks fun _ => id
    have next := cut.nextStart_eq before (List.takeWhile_prefix fun c => !lineBreaks.contains c).length_le
    simp only [if_pos found,if_pos comment,line_end,next]
    rfl
  · have missing := fun found => comment ((cut.comment_iff before).mp found)
    have line_end := cut.lineEnd_eq before spaces fun _ => space_of_break
    have next := cut.nextStart_eq before (List.takeWhile_prefix fun c => !spaces.contains c).length_le
    simp only [if_neg missing,if_neg comment,line_end,next,Nat.add_sub_cancel_left,assignFrom_eq]
    have taken : text.take (line.takeWhile fun c => !spaces.contains c).length = line.takeWhile fun c => !spaces.contains c := by
      refine (List.prefix_iff_eq_take.mp ((List.takeWhile_prefix _).trans ?_)).symm
      exact cut.whole ▸ List.prefix_append line (gap ++ after)
    rw [taken,ruleText]
    cases before.contains 0 <;> rfl

theorem loop_lines {data : Bytes} {fuel : Nat} {before rest : Bytes} (whole : data = before ++ rest)
    (begins : ∀ c ∈ rest.head?, lineBreaks.contains c = false) (enough : rest.length < fuel) (state : Cleaning) :
    normalizeLoop gurl data fuel before.length state =
      ((lines rest).foldlM (lineStep gurl) (before.contains 0,state)).map Prod.snd := by
  induction fuel generalizing before rest state with
  | zero => exact absurd enough (Nat.not_lt_zero _)
  | succ fuel ih =>
    cases rest with
    | nil =>
      rw [normalizeLoop,if_neg (by simp [whole])]
      rfl
    | cons c text =>
      obtain ⟨line,gap,after,cut⟩ := exists_firstLine (begins c rfl) text
      have split : data = (before ++ line ++ gap) ++ after := by
        rw [whole,cut.whole,List.append_assoc,List.append_assoc]
      have shorter : after.length < fuel := by
        have some := List.length_pos_of_ne_nil cut.some
        rw [cut.whole,List.length_append,List.length_append] at enough
        omega
      rw [whole,cut.turn,← whole,cut.lines,List.foldlM_cons]
      rw [lineStep]
      cases lineTurn gurl (before.contains 0) line state with
      | error failure => rfl
      | ok next =>
        have later := ih split cut.begins shorter next
        rw [cut.contains_zero] at later
        exact later

end Lines

/-! What has been read. -/

section Reading
variable {gurl : Bytes → Gurl}

def entries (gurl : Bytes → Gurl) (lines : List Bytes) : List (Bytes × Rule) :=
  (lines.filter fun line => !isComment line).filterMap fun line => entryOf gurl (ruleText line)

theorem entries_append (first second : List Bytes) : entries gurl (first ++ second) = entries gurl first ++ entries gurl second := by
  rw [entries,List.filter_append,List.filterMap_append]
  rfl

theorem entries_concat (done : List Bytes) (line : Bytes) : entries gurl (done ++ [line]) =
    entries gurl done ++ if isComment line then [] else (entryOf gurl (ruleText line)).toList := by
  have last : entries gurl [line] = if isComment line then [] else (entryOf gurl (ruleText line)).toList := by
    rw [entries,List.filter_singleton]
    cases isComment line with
    | true => rfl
    | false => cases entry : entryOf gurl (ruleText line) <;> simp [entry]
  rw [entries_append,last]

/-- The loop after some lines. -/
structure Read (gurl : Bytes → Gurl) (done : List Bytes) (position : Bool × Cleaning) : Prop where
  seen : position.1 = done.any fun line => line.contains 0
  rules : position.2.rules = entries gurl done
  extra : ∀ label, label ∈ position.2.extraRules ↔ ∃ entry ∈ entries gurl done, trueTld entry.1 = some label
  once : ((entries gurl done).map Prod.fst).Nodup
  reads : ∀ before line after, done = before ++ line :: after → isComment line = false →
    (∀ earlier ∈ before, 0 ∉ earlier) ∧ ruleText line ≠ []

theorem not_seen {done : List Bytes} : (done.any fun line => line.contains 0) = false ↔ ∀ line ∈ done, 0 ∉ line := by
  simp

variable {done : List Bytes} {position : Bool × Cleaning} {line : Bytes}

theorem Read.seen_next (read : Read gurl done position) :
    (position.1 || line.contains 0) = (done ++ [line]).any fun line => line.contains 0 := by
  rw [read.seen,List.any_append,List.any_cons,List.any_nil,Bool.or_false]

theorem Read.comment (read : Read gurl done position) (comment : isComment line = true) :
    Read gurl (done ++ [line]) (position.1 || line.contains 0,position.2) := by
  have same : entries gurl (done ++ [line]) = entries gurl done := by rw [entries_concat,if_pos comment,List.append_nil]
  refine ⟨read.seen_next,read.rules.trans same.symm,same ▸ read.extra,same ▸ read.once,?_⟩
  intro before other after split plain
  obtain ⟨-,rfl,-⟩ | ⟨rest,-,earlier⟩ := snoc_split split
  · rw [comment] at plain
    cases plain
  · exact read.reads before other rest earlier plain

theorem Read.rule (read : Read gurl done position) (plain : ¬isComment line = true) (unseen : position.1 = false) {state : Cleaning}
    (added : Added gurl (ruleText line) position.2 state) : Read gurl (done ++ [line]) (position.1 || line.contains 0,state) := by
  have grown : entries gurl (done ++ [line]) = entries gurl done ++ (entryOf gurl (ruleText line)).toList := by
    rw [entries_concat,if_neg plain]
  refine ⟨read.seen_next,?_,fun label => ?_,?_,?_⟩
  · rw [grown,← read.rules]
    exact added.rules
  · rw [grown,added.extra,read.extra]
    simp only [List.mem_append,Option.mem_toList,Option.mem_def,or_and_right,exists_or]
  · rw [grown,List.map_append]
    have fresh := added.fresh
    rw [read.rules] at fresh
    refine List.nodup_append.mpr ⟨read.once,?_,?_⟩
    · cases entryOf gurl (ruleText line) <;> simp
    · rintro name taken other there rfl
      obtain ⟨entry,member,rfl⟩ := List.mem_map.mp there
      exact fresh entry (Option.mem_toList.mp member) taken
  · intro before other after split plain
    obtain ⟨rfl,rfl,-⟩ | ⟨rest,-,earlier⟩ := snoc_split split
    · exact ⟨not_seen.mp (read.seen.symm.trans unseen),added.some⟩
    · exact read.reads before other rest earlier plain

theorem Read.step (read : Read gurl done position) {next : Bool × Cleaning} (stepped : lineStep gurl position line = .ok next) :
    Read gurl (done ++ [line]) next := by
  unfold lineStep at stepped
  cases turn : lineTurn gurl position.1 line position.2 with
  | error failure =>
    rw [turn] at stepped
    cases stepped
  | ok state =>
    rw [turn] at stepped
    obtain rfl : (position.1 || line.contains 0,state) = next := Except.ok.inj stepped
    unfold lineTurn at turn
    split at turn
    next comment =>
      obtain rfl : position.2 = state := Except.ok.inj turn
      exact read.comment comment
    next plain =>
      split at turn
      next => cases turn
      next unseen => exact read.rule plain (Bool.not_eq_true _ ▸ unseen) (addRule_ok turn)

/-- A line that can be read, and whose name is new, is read. -/
theorem Read.goes (read : Read gurl done position)
    (reads : isComment line = false → (∀ earlier ∈ done, 0 ∉ earlier) ∧ ruleText line ≠ [])
    (once : ((entries gurl (done ++ [line])).map Prod.fst).Nodup) : ∃ next, lineStep gurl position line = .ok next := by
  rw [lineStep,lineTurn]
  cases comment : isComment line with
  | true => exact ⟨_,rfl⟩
  | false =>
    obtain ⟨noNul,some⟩ := reads comment
    rw [entries_concat,comment,if_neg Bool.false_ne_true,List.map_append] at once
    have fresh : ∀ entry ∈ entryOf gurl (ruleText line), entry.1 ∉ position.2.rules.map Prod.fst := by
      rw [read.rules]
      intro entry there taken
      exact (List.nodup_append.mp once).2.2 _ taken _ (List.mem_map_of_mem (Option.mem_toList.mpr there)) rfl
    obtain ⟨next,called,_⟩ := addRule_fresh some fresh
    rw [if_neg Bool.false_ne_true,read.seen,not_seen.mpr noNul,if_neg Bool.false_ne_true,called]
    exact ⟨_,rfl⟩

end Reading

/-! The rules that are written. -/

section Writing
variable {gurl : Bytes → Gurl}

theorem trueTld_ne_nil {domain label : Bytes} (found : trueTld domain = some label) : label ≠ [] := by
  unfold trueTld at found
  dsimp only at found
  split at found
  next there => exact Option.some.inj found ▸ List.ne_nil_of_length_pos there.2
  next => cases found

theorem addTld_eq (rules : List (Bytes × Rule)) (label : Bytes) :
    addTld rules label = if label ∈ rules.map Prod.fst then rules else rules ++ [(label,⟨false,false⟩)] := by
  unfold addTld
  by_cases present : label ∈ rules.map Prod.fst
  · have found : ¬(rules.lookup label).isNone = true := by
      rw [Option.isNone_iff_eq_none,← Option.not_isSome_iff_eq_none,not_not]
      exact lookup_isSome_iff_key.mpr present
    rw [if_pos present,if_neg found]
  · rw [if_neg present,lookup_of_not_key present,put_absent _ present]
    rfl

theorem mem_addTlds {labels : List Bytes} {rules : List (Bytes × Rule)} {name : Bytes} {rule : Rule} :
    (name,rule) ∈ labels.foldl addTld rules ↔
      (name,rule) ∈ rules ∨ rule = ⟨false,false⟩ ∧ name ∉ rules.map Prod.fst ∧ name ∈ labels := by
  induction labels generalizing rules with
  | nil => simp
  | cons label labels ih =>
    rw [List.foldl_cons,ih,addTld_eq]
    by_cases present : label ∈ rules.map Prod.fst
    · rw [if_pos present,List.mem_cons]
      have other (absent : name ∉ rules.map Prod.fst) : name ≠ label := fun same => absent (same ▸ present)
      tauto
    · rw [if_neg present,List.mem_append,List.mem_singleton,Prod.mk.injEq,List.map_append,List.mem_append,List.map_singleton,
        List.mem_singleton,List.mem_cons]
      by_cases same : name = label
      · subst same
        tauto
      · tauto

theorem nodup_addTlds (labels : List Bytes) {rules : List (Bytes × Rule)} (once : (rules.map Prod.fst).Nodup) :
    ((labels.foldl addTld rules).map Prod.fst).Nodup := by
  induction labels generalizing rules with
  | nil => exact once
  | cons label labels ih =>
    rw [List.foldl_cons]
    apply ih
    rw [addTld_eq]
    split
    · exact once
    next absent =>
      rw [List.map_append]
      refine List.nodup_append.mpr ⟨once,List.pairwise_singleton _ _,?_⟩
      rintro name taken other there rfl
      have same : name = label := List.mem_singleton.mp there
      exact absent (same ▸ taken)

/-- Lines that have all been read give a file. -/
theorem Read.written {read : List Bytes} {seen : Bool} {state : Cleaning} (done : Read gurl read (seen,state)) (header : Bytes)
    {data : Bytes} (looped : normalizeLoop gurl data (data.length + 1) 0 ⟨[],[],.success,[]⟩ = .ok state) :
    ∃ output, normalizeFile gurl header data = .ok output ∧ Written header (entries gurl read) output := by
  rw [normalizeFile,looped]
  refine ⟨_,rfl,rfl,?_,fun name rule => ?_⟩
  · refine (((List.mergeSort_perm _ byName).map Prod.fst).nodup_iff).mpr (nodup_addTlds _ ?_)
    rw [done.rules]
    exact done.once
  · have keys : name ∉ (entries gurl read).map Prod.fst ↔ ∀ entry ∈ entries gurl read, entry.1 ≠ name := by
      simp only [List.mem_map,not_exists,not_and]
    rw [List.mem_mergeSort,mem_addTlds,List.mem_mergeSort,done.rules,done.extra,keys]

theorem entries_eq {lines : List Bytes}
    (filled : ∀ line ∈ lines, isComment line = false → body (undotted (ruleText line)) ≠ []) :
    entries gurl lines = namedRules gurl lines := by
  apply List.filterMap_congr
  intro line member
  obtain ⟨there,plain⟩ := List.mem_filter.mp member
  exact if_neg (filled line there (Bool.not_eq_true' _ ▸ plain))

/-- A line break in front gives an empty text. -/
theorem loop_begins {c : UInt8} (leading : lineBreaks.contains c = true) (text : Bytes) (fuel : Nat) (state : Cleaning) :
    normalizeLoop gurl (c :: text) (fuel + 1) 0 state = .error .outOfRange := by
  have other : ¬((c :: text)[0]? = some slash ∧ (c :: text)[0 + 1]? = some slash) := by
    rintro ⟨same,-⟩
    obtain rfl : c = slash := Option.some.inj same
    exact absurd leading (by decide)
  have line_end : (findFirstOf (c :: text) spaces 0).getD (c :: text).length = 0 := by
    refine (findFirstOf_getD [] (c :: text) spaces).trans ?_
    rw [List.takeWhile_cons,space_of_break leading]
    rfl
  have cut : assignFrom (c :: text) 0 0 = .ok [] := assignFrom_eq [] (c :: text) 0
  rw [normalizeLoop,if_pos (List.length_pos_of_ne_nil (List.cons_ne_nil c text))]
  simp only [if_neg other,line_end,Nat.sub_self,cut]
  rfl

theorem read_nothing : Read gurl [] (false,⟨[],[],.success,[]⟩) :=
  ⟨rfl,rfl,fun label => by simp [entries],List.nodup_nil,fun before line after split => by simp at split⟩

theorem loop_file {data : Bytes} (begins : ∀ c ∈ data.head?, lineBreaks.contains c = false) :
    normalizeLoop gurl data (data.length + 1) 0 ⟨[],[],.success,[]⟩ =
      ((lines data).foldlM (lineStep gurl) (false,⟨[],[],.success,[]⟩)).map Prod.snd :=
  @loop_lines gurl data (data.length + 1) [] data rfl begins (Nat.lt_succ_self _) _

theorem clean_of_cleaned {header data : Bytes} {output : Output} (ran : normalizeFile gurl header data = .ok output)
    (named : ∀ entry ∈ output.rules, entry.1 ≠ []) : Clean gurl data := by
  have begins : ∀ c ∈ data.head?, lineBreaks.contains c = false := by
    rintro c first
    obtain ⟨text,rfl⟩ := List.head?_eq_some_iff.mp first
    rw [← Bool.not_eq_true]
    intro leading
    rw [normalizeFile,List.length_cons,loop_begins leading] at ran
    cases ran
  have looped := @loop_file gurl data begins
  cases folded : (lines data).foldlM (lineStep gurl) (false,⟨[],[],.success,[]⟩) with
  | error failure =>
    rw [normalizeFile,looped,folded] at ran
    cases ran
  | ok position =>
    have read : Read gurl (lines data) position :=
      foldlM_except (Read gurl) (fun _ _ _ _ _ _ read stepped => read.step stepped) read_nothing folded
    rw [folded] at looped
    obtain ⟨other,here,written⟩ := read.written header looped
    obtain rfl : other = output := Except.ok.inj (here.symm.trans ran)
    refine ⟨begins,fun before line after split plain => ?_⟩
    obtain ⟨noNul,-⟩ := read.reads before line after split plain
    have unnamed (rule : Rule) : entryOf gurl (ruleText line) ≠ some ([],rule) := by
      intro entry
      have present : ([],rule) ∈ entries gurl (lines data) := by
        refine List.mem_filterMap.mpr ⟨line,List.mem_filter.mpr ⟨?_,?_⟩,entry⟩
        · rw [split]
          exact List.mem_append_right _ List.mem_cons_self
        · rw [plain]
          rfl
      exact named ([],rule) ((written.rules [] rule).mpr (.inl present)) rfl
    have filled : body (undotted (ruleText line)) ≠ [] := fun empty => unnamed _ (if_pos empty)
    refine ⟨noNul,filled,fun host => unnamed (mark (undotted (ruleText line))) ?_⟩
    rw [entryOf,if_neg filled,ruleOf,if_neg filled,host]
    rfl

theorem cleaned_of_clean {header data : Bytes} (distinct : ((namedRules gurl (lines data)).map Prod.fst).Nodup)
    (clean : Clean gurl data) : ∃ output, normalizeFile gurl header data = .ok output ∧ Cleaned gurl header (lines data) output := by
  have reads (line : Bytes) (member : line ∈ lines data) (plain : isComment line = false) :
      body (undotted (ruleText line)) ≠ [] ∧ (gurl (scheme ++ body (undotted (ruleText line)))).host ≠ some [] := by
    obtain ⟨before,after,split⟩ := List.append_of_mem member
    exact (clean.reads before line after split plain).2
  have same := @entries_eq gurl (lines data) fun line member plain => (reads line member plain).1
  have step (done : List Bytes) (line : Bytes) (rest : List Bytes) (position : Bool × Cleaning)
      (split : lines data = done ++ line :: rest) (read : Read gurl done position) :
      ∃ next, lineStep gurl position line = .ok next ∧ Read gurl (done ++ [line]) next := by
    have once : ((entries gurl (done ++ [line])).map Prod.fst).Nodup := by
      have whole : entries gurl (lines data) = entries gurl (done ++ [line]) ++ entries gurl rest := by
        rw [split,List.append_cons,entries_append]
      rw [← same,whole,List.map_append] at distinct
      exact (List.nodup_append.mp distinct).1
    have readable (plain : isComment line = false) : (∀ earlier ∈ done, 0 ∉ earlier) ∧ ruleText line ≠ [] := by
      obtain ⟨noNul,filled,_⟩ := clean.reads done line rest split plain
      refine ⟨noNul,fun empty => filled ?_⟩
      rw [empty]
      rfl
    obtain ⟨next,stepped⟩ := read.goes readable once
    exact ⟨next,stepped,read.step stepped⟩
  obtain ⟨position,folded,read⟩ := foldlM_ok (Read gurl) step read_nothing
  have looped := @loop_file gurl data clean.begins
  rw [folded] at looped
  obtain ⟨output,ran,written⟩ := read.written header looped
  rw [same] at written
  refine ⟨output,ran,written,?_⟩
  rintro ⟨name,rule⟩ member rfl
  obtain given | ⟨-,-,entry,-,label⟩ := (written.rules [] rule).mp member
  · obtain ⟨line,there,entry⟩ := List.mem_filterMap.mp given
    obtain ⟨inside,plain⟩ := List.mem_filter.mp there
    obtain ⟨filled,host⟩ := reads line inside (Bool.not_eq_true' _ ▸ plain)
    rw [ruleOf,if_neg filled] at entry
    obtain ⟨name,found,pair⟩ := Option.map_eq_some_iff.mp entry
    exact host (found.trans (congrArg some (congrArg Prod.fst pair)))
  · exact trueTld_ne_nil label rfl

theorem cleaned_iff (gurl : Bytes → Gurl) (header data : Bytes) (distinct : ((namedRules gurl (lines data)).map Prod.fst).Nodup) :
    (∃ output, normalizeFile gurl header data = .ok output ∧ Cleaned gurl header (lines data) output) ↔ Clean gurl data := by
  apply Iff.intro
  · rintro ⟨output,ran,cleaned⟩
    exact clean_of_cleaned ran cleaned.named
  · exact cleaned_of_clean distinct

/-- `GURL` on letters and dots. -/
def lettersGurl (url : Bytes) : Gurl := ⟨some (url.drop scheme.length),true⟩

/-- A comment, and `!b.a.` in the next line. -/
theorem cleaned_exception : ∃ output, normalizeFile lettersGurl [] [47,47,32,97,10,33,98,46,97,46] = .ok output ∧
    Cleaned lettersGurl [] (lines [47,47,32,97,10,33,98,46,97,46]) output := by
  refine (cleaned_iff lettersGurl [] [47,47,32,97,10,33,98,46,97,46] (by decide)).mpr
    ⟨fun c first => Option.some.inj first ▸ rfl,?_⟩
  intro before line after split plain
  have two : lines [47,47,32,97,10,33,98,46,97,46] = [[47,47,32,97]] ++ [[33,98,46,97,46]] := by decide
  rw [two] at split
  obtain ⟨rfl,rfl,-⟩ | ⟨rest,-,first⟩ := snoc_split split
  · decide
  · obtain ⟨-,rfl,-⟩ | ⟨_,-,none⟩ := @snoc_split _ [] _ _ _ _ first
    · cases plain
    · simp at none

/-- A line that begins with a space, and a single dot. -/
theorem space_not_cleaned :
    (((namedRules lettersGurl (lines [32,97])).map Prod.fst).Nodup ∧ ¬∃ output, normalizeFile lettersGurl [] [32,97] = .ok output ∧
      Cleaned lettersGurl [] (lines [32,97]) output) ∧
    (((namedRules lettersGurl (lines [46])).map Prod.fst).Nodup ∧ ¬∃ output, normalizeFile lettersGurl [] [46] = .ok output ∧
      Cleaned lettersGurl [] (lines [46]) output) := by
  refine ⟨⟨by decide,?_⟩,by decide,?_⟩
  · rintro ⟨output,ran,-⟩
    cases ran
  · rintro ⟨output,ran,cleaned⟩
    have clean := clean_of_cleaned ran cleaned.named
    exact absurd rfl (clean.reads [] [46] [] (by decide) rfl).2.1

end Writing

end WebSearch.TldCleanup
