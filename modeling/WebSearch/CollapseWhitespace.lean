import WebSearch.Library.Runs
import Mathlib.Data.List.TakeDrop
import Mathlib.Order.Basic
import Mathlib.Algebra.Ring.Int.Defs
import Mathlib.Algebra.GroupWithZero.Nat

/-! `base/string_util.cc`: `CollapseWhitespace` for the three kinds of strings. The write
index is an `int`; a write outside the result, or one that takes the index behind the
largest `int`, is none. -/
namespace WebSearch.StringUtil
open Library

def kWhitespaceWide : List UInt32 :=
  [0x0009,0x000A,0x000B,0x000C,0x000D,0x0020,0x0085,0x00A0,0x1680,0x180E,0x2000,0x2001,0x2002,0x2003,0x2004,0x2005,0x2006,
    0x2007,0x2008,0x2009,0x200A,0x200C,0x2028,0x2029,0x202F,0x205F,0x3000]

/-- `wcschr` finds the terminator as well. -/
def isWhitespace (c : UInt32) : Bool := (kWhitespaceWide ++ [0]).contains c

/-- The characters of a string, and how they become `wchar_t`. -/
class CodeUnit (α : Type) where
  wide : α → UInt32
  nul : α
  space : α
  lineFeed : α
  carriageReturn : α
  space_blank : isWhitespace (wide space) = true
  space_ne_lineFeed : space ≠ lineFeed
  space_ne_carriageReturn : space ≠ carriageReturn

/-- `wchar_t`. -/
instance wideUnit : CodeUnit UInt32 := ⟨id,0,32,10,13,by decide,by decide,by decide⟩

/-- `char16`. -/
instance utf16Unit : CodeUnit UInt16 := ⟨UInt16.toUInt32,0,32,10,13,by decide,by decide,by decide⟩

/-- `char` has a sign. -/
instance charUnit : CodeUnit UInt8 := ⟨fun c => c.toInt8.toInt32.toUInt32,0,32,10,13,by decide,by decide,by decide⟩

variable {α : Type}

structure Collapsing (α : Type) where
  result : List α
  inWhitespace : Bool
  alreadyTrimmed : Bool
  charsWritten : Int

/-- `result[chars_written++] = c`. -/
def Collapsing.put (state : Collapsing α) (c : α) : Option (Collapsing α) :=
  if 0 ≤ state.charsWritten ∧ state.charsWritten < state.result.length ∧ state.charsWritten + 1 < 2^31 then
    some {state with result := state.result.set state.charsWritten.toNat c, charsWritten := state.charsWritten + 1}
  else none

theorem put_length {state state' : Collapsing α} {c : α} (put : state.put c = some state') :
    state'.result.length = state.result.length := by
  unfold Collapsing.put at put
  split at put
  · rw [← Option.some.inj put]
    exact List.length_set
  · exact absurd put (by simp)

/-- What is written in front of the index, and what is behind it. -/
def buffer (inWhitespace alreadyTrimmed : Bool) (written rest : List α) : Collapsing α :=
  ⟨written ++ rest,inWhitespace,alreadyTrimmed,written.length⟩

theorem put_buffer (inWhitespace alreadyTrimmed : Bool) (written rest : List α) (d c : α) :
    (buffer inWhitespace alreadyTrimmed written (d :: rest)).put c =
      if written.length + 1 < 2^31 then some (buffer inWhitespace alreadyTrimmed (written ++ [c]) rest) else none := by
  have inside : (0 : Int) ≤ written.length ∧ (written.length : Int) < (written ++ d :: rest).length := by
    rw [List.length_append,List.length_cons]
    exact ⟨by omega,by omega⟩
  by_cases small : written.length + 1 < 2^31
  · rw [if_pos small]
    refine (if_pos ⟨inside.1,inside.2,?_⟩).trans (by simp [buffer])
    change (written.length : Int) + 1 < 2^31
    omega
  · rw [if_neg small]
    refine if_neg ?_
    rintro ⟨-,-,fits⟩
    change (written.length : Int) + 1 < 2^31 at fits
    omega

/-- The last character is taken back. -/
theorem buffer_back (inWhitespace : Bool) (written rest : List α) (c : α) :
    (⟨written ++ [c] ++ rest,inWhitespace,true,((written ++ [c]).length : Int) - 1⟩ : Collapsing α) =
      buffer inWhitespace true written (c :: rest) := by
  simp [buffer]

variable [CodeUnit α]

theorem resize_written (written rest : List α) (n : Int) (length : n = written.length) :
    (if 0 ≤ n then some ((written ++ rest).takeD n.toNat CodeUnit.nul) else none) = some written := by
  subst length
  rw [if_pos (Int.natCast_nonneg _),Int.toNat_natCast,List.takeD_left]

def blank (c : α) : Bool := isWhitespace (CodeUnit.wide c)

variable [DecidableEq α]

def lineBreak (c : α) : Bool := c = CodeUnit.lineFeed || c = CodeUnit.carriageReturn

def collapseStep (trim : Bool) (state : Collapsing α) (c : α) : Option (Collapsing α) := do
  if blank c then
    let state ← (if state.inWhitespace then some state else Collapsing.put {state with inWhitespace := true} CodeUnit.space)
    if trim && !state.alreadyTrimmed && lineBreak c then
      return {state with alreadyTrimmed := true, charsWritten := state.charsWritten - 1}
    return state
  else Collapsing.put {state with inWhitespace := false, alreadyTrimmed := false} c

/-- `result` is resized, and the flags pretend to be in a trimmed sequence. -/
def start (text : List α) : Collapsing α := ⟨List.replicate text.length CodeUnit.nul,true,true,0⟩

def collapseWhitespaceT (text : List α) (trim : Bool) : Option (List α) := do
  let state ← text.foldlM (collapseStep trim) (start text)
  let charsWritten := if state.inWhitespace && !state.alreadyTrimmed then state.charsWritten - 1 else state.charsWritten
  if 0 ≤ charsWritten then return state.result.takeD charsWritten.toNat CodeUnit.nul else none

def collapseWhitespace (text : List UInt32) (trim : Bool) : Option (List UInt32) := collapseWhitespaceT text trim

def collapseWhitespace16 (text : List UInt16) (trim : Bool) : Option (List UInt16) := collapseWhitespaceT text trim

def collapseWhitespaceASCII (text : List UInt8) (trim : Bool) : Option (List UInt8) := collapseWhitespaceT text trim

/-! Words and the gaps between them. -/

/-- Gaps that contain a line break are eliminated entirely. -/
def dropped (trim : Bool) (gap : List α) : Bool := trim && gap.any lineBreak

/-- What stands for a gap between two words. -/
def gapText (trim : Bool) (gap : List α) : List α := if dropped trim gap then [] else [CodeUnit.space]

def spelled (trim : Bool) (pieces : List (List α × List α)) : List α :=
  pieces.flatMap fun piece => piece.1 ++ gapText trim piece.2

/-- The gap behind the last word is left out. -/
def joined (trim : Bool) (pieces : List (List α × List α)) : List α :=
  spelled trim pieces.dropLast ++ (pieces.getLast?.map Prod.fst).getD []

/-- The most characters that are ever written: a gap at the end is a space for a while. -/
def extent (trim : Bool) (pieces : List (List α × List α)) : Nat :=
  (joined trim pieces).length + if pieces.getLast?.all (·.2 = []) then 0 else 1

theorem joined_snoc (trim : Bool) (pieces : List (List α × List α)) (word gap : List α) :
    joined trim (pieces ++ [(word,gap)]) = spelled trim pieces ++ word := by
  rw [joined,List.dropLast_concat,List.getLast?_concat]
  rfl

theorem extent_snoc (trim : Bool) (pieces : List (List α × List α)) (word gap : List α) :
    extent trim (pieces ++ [(word,gap)]) = (spelled trim pieces ++ word).length + if gap = [] then 0 else 1 := by
  rw [extent,joined_snoc,List.getLast?_concat]
  simp

theorem spelled_snoc (trim : Bool) (pieces : List (List α × List α)) (word gap : List α) :
    spelled trim (pieces ++ [(word,gap)]) = spelled trim pieces ++ word ++ gapText trim gap := by
  simp [spelled]

theorem dropped_snoc (trim : Bool) (gap : List α) (c : α) :
    dropped trim (gap ++ [c]) = (dropped trim gap || trim && lineBreak c) := by
  simp [dropped,Bool.and_or_distrib_left]

/-! The loop. -/

/-- The state of the loop, from the runs of what it has gone over. -/
inductive Reached (trim : Bool) (rest : List α) : List (List α × List α) → Collapsing α → Prop
  | start : Reached trim rest [] (buffer true true [] rest)
  | word (pieces : List (List α × List α)) (word : List α) :
    Reached trim rest (pieces ++ [(word,[])]) (buffer false false (spelled trim pieces ++ word) rest)
  | gap (pieces : List (List α × List α)) (word gap : List α) (some : gap ≠ []) :
    Reached trim rest (pieces ++ [(word,gap)])
      (buffer true (dropped trim gap) (spelled trim (pieces ++ [(word,gap)])) rest)

theorem collapseStep_letter (trim inWhitespace alreadyTrimmed : Bool) (written rest : List α) (d c : α) (letter : blank c = false) :
    collapseStep trim (buffer inWhitespace alreadyTrimmed written (d :: rest)) c =
      if written.length + 1 < 2^31 then some (buffer false false (written ++ [c]) rest) else none := by
  simp only [collapseStep,letter,Bool.false_eq_true,if_false]
  exact put_buffer false false written rest d c

theorem collapseStep_first (trim : Bool) (written rest : List α) (d c : α) (separator : blank c = true) :
    collapseStep trim (buffer false false written (d :: rest)) c =
      if written.length + 1 < 2^31 then
        some (if dropped trim [c] then buffer true true written (CodeUnit.space :: rest)
          else buffer true false (written ++ [CodeUnit.space]) rest)
      else none := by
  have put := put_buffer true false written rest d CodeUnit.space
  simp only [buffer] at put
  simp only [collapseStep,separator,if_true,buffer,Bool.false_eq_true,if_false,put]
  by_cases small : written.length + 1 < 2^31
  · simp only [if_pos small,Option.bind_eq_bind,Option.bind_some]
    have same : dropped trim [c] = (trim && lineBreak c) := by simp [dropped]
    cases broken : dropped trim [c] with
    | true =>
      rw [same] at broken
      simp only [Bool.not_false,Bool.and_true,broken,if_true]
      exact congrArg some (buffer_back true written rest CodeUnit.space)
    | false =>
      rw [same] at broken
      simp only [Bool.not_false,Bool.and_true,broken,Bool.false_eq_true,if_false]
      rfl
  · simp only [if_neg small]
    rfl

theorem collapseStep_more (trim alreadyTrimmed : Bool) (written rest : List α) (c : α) (separator : blank c = true) :
    collapseStep trim (buffer true alreadyTrimmed written rest) c =
      some (if trim && !alreadyTrimmed && lineBreak c then
        ⟨written ++ rest,true,true,(written.length : Int) - 1⟩ else buffer true alreadyTrimmed written rest) := by
  simp only [collapseStep,separator,if_true,buffer,Option.bind_eq_bind,Option.bind_some]
  split <;> rfl

section Step
variable {trim : Bool} {before leading : List α} {pieces : List (List α × List α)} {state : Collapsing α} {c d : α} {rest : List α}

/-- What a turn makes of a state: the runs of the longer beginning are not shorter, and the
turn goes through where they fit. -/
structure Turn (trim : Bool) (pieces : List (List α × List α)) (state : Collapsing α) (c : α) (room : Nat)
    (pieces' : List (List α × List α)) : Prop where
  grows : extent trim pieces ≤ extent trim pieces'
  reached : ∃ state' rest', Reached trim rest' pieces' state' ∧ room ≤ rest'.length ∧
    (extent trim pieces' < 2^31 → collapseStep trim state c = some state')
  overflows : extent trim pieces < 2^31 → 2^31 ≤ extent trim pieces' → collapseStep trim state c = none

/-- A letter behind what is written, where the runs grow by it. -/
theorem Turn.letter {written : List α} {inWhitespace alreadyTrimmed : Bool} {pieces' : List (List α × List α)}
    (letter : blank c = false) (grows : extent trim pieces ≤ extent trim pieces')
    (length : extent trim pieces' = written.length + 1)
    (reached : Reached trim rest pieces' (buffer false false (written ++ [c]) rest)) :
    Turn trim pieces (buffer inWhitespace alreadyTrimmed written (d :: rest)) c rest.length pieces' := by
  have step := collapseStep_letter trim inWhitespace alreadyTrimmed written rest d c letter
  refine ⟨grows,⟨_,rest,reached,Nat.le_refl _,?_⟩,?_⟩
  · intro small
    rw [length] at small
    exact step.trans (if_pos small)
  · intro _ large
    rw [length] at large
    exact step.trans (if_neg (Nat.not_lt.mpr large))

theorem turn_letter (letter : blank c = false) (cut : Runs blank before leading pieces)
    (reached : Reached trim (d :: rest) pieces state) :
    ∃ pieces', Runs blank (before ++ [c]) leading pieces' ∧ Turn trim pieces state c rest.length pieces' := by
  cases reached with
  | start => exact ⟨[([c],[])],cut.snoc_piece (by simp) letter,.letter letter (Nat.zero_le _) rfl (.word [] [c])⟩
  | word pieces word =>
    have longer := extent_snoc trim pieces (word ++ [c]) []
    have shorter := extent_snoc trim pieces word []
    have whole : Reached trim rest _ _ := Reached.word pieces (word ++ [c])
    rw [← List.append_assoc] at longer whole
    rw [List.length_append,List.length_singleton] at longer
    refine ⟨pieces ++ [(word ++ [c],[])],cut.snoc_word letter,.letter letter ?_ longer whole⟩
    rw [longer,shorter]
    exact Nat.le_succ _
  | gap pieces word gap some =>
    have longer := extent_snoc trim (pieces ++ [(word,gap)]) [c] []
    have shorter := extent_snoc trim pieces word gap
    rw [List.length_append,List.length_singleton] at longer
    refine ⟨pieces ++ [(word,gap)] ++ [([c],[])],cut.snoc_piece (cut.apart_snoc some) letter,
      .letter letter ?_ longer (.word _ [c])⟩
    rw [longer,shorter,spelled_snoc,if_neg some]
    simp only [List.length_append]
    omega

/-- Whitespace in a gap that is there already: a line break takes the space back. -/
theorem collapseStep_gap {word gap : List α} (separator : blank c = true) :
    ∃ rest', collapseStep trim (buffer true (dropped trim gap) (spelled trim (pieces ++ [(word,gap)])) rest) c =
      some (buffer true (dropped trim (gap ++ [c])) (spelled trim (pieces ++ [(word,gap ++ [c])])) rest') ∧
      rest.length ≤ rest'.length := by
  have step := collapseStep_more trim (dropped trim gap) (spelled trim (pieces ++ [(word,gap)])) rest c separator
  have stopped := dropped_snoc trim gap c
  rw [step,spelled_snoc,spelled_snoc,gapText,gapText]
  cases before : dropped trim gap with
  | true =>
    rw [before,Bool.true_or] at stopped
    simp only [stopped,Bool.not_true,Bool.and_false,Bool.false_and,Bool.false_eq_true,if_false]
    exact ⟨rest,rfl,Nat.le_refl _⟩
  | false =>
    rw [before,Bool.false_or] at stopped
    rw [Bool.not_false,Bool.and_true,← stopped]
    cases dropped trim (gap ++ [c]) with
    | true =>
      simp only [if_true,Bool.false_eq_true,if_false,List.append_nil]
      exact ⟨CodeUnit.space :: rest,congrArg some (buffer_back true _ rest CodeUnit.space),Nat.le_succ _⟩
    | false =>
      simp only [Bool.false_eq_true,if_false]
      exact ⟨rest,rfl,Nat.le_refl _⟩

theorem turn_blank (separator : blank c = true) (cut : Runs blank before leading pieces)
    (reached : Reached trim (d :: rest) pieces state) :
    ∃ leading' pieces', Runs blank (before ++ [c]) leading' pieces' ∧ Turn trim pieces state c rest.length pieces' := by
  cases reached with
  | start =>
    have step := collapseStep_more trim true [] (d :: rest) c separator
    rw [Bool.not_true,Bool.and_false,Bool.false_and,if_neg Bool.false_ne_true] at step
    refine ⟨leading ++ [c],[],cut.snoc_leading separator,Nat.le_refl _,?_,?_⟩
    · exact ⟨_,d :: rest,.start,Nat.le_succ _,fun _ => step⟩
    · intro small large
      exact absurd small (Nat.not_lt.mpr large)
  | word pieces word =>
    have step := collapseStep_first trim (spelled trim pieces ++ word) rest d c separator
    have longer := extent_snoc trim pieces word [c]
    have shorter := extent_snoc trim pieces word []
    have reached (rest : List α) : Reached trim rest _ _ := Reached.gap pieces word [c] (List.cons_ne_nil _ _)
    rw [if_neg (List.cons_ne_nil _ _)] at longer
    rw [if_pos rfl] at shorter
    refine ⟨leading,pieces ++ [(word,[c])],cut.snoc_gap separator,?_,?_,?_⟩
    · rw [longer,shorter]
      exact Nat.le_succ _
    · rw [longer]
      simp only [spelled_snoc,gapText] at reached
      cases stopped : dropped trim [c] with
      | true =>
        simp only [stopped,if_true,List.append_nil] at step reached
        exact ⟨_,_,reached (CodeUnit.space :: rest),Nat.le_succ _,fun small => step.trans (if_pos small)⟩
      | false =>
        simp only [stopped,Bool.false_eq_true,if_false] at step reached
        exact ⟨_,_,reached rest,Nat.le_refl _,fun small => step.trans (if_pos small)⟩
    · intro _ large
      rw [longer] at large
      exact step.trans (if_neg (Nat.not_lt.mpr large))
  | gap pieces word gap some =>
    obtain ⟨rest',step,room⟩ := @collapseStep_gap α _ _ trim pieces c (d :: rest) word gap separator
    have same : extent trim (pieces ++ [(word,gap ++ [c])]) = extent trim (pieces ++ [(word,gap)]) := by
      rw [extent_snoc,extent_snoc,if_neg some,if_neg (List.concat_ne_nil _ _)]
    refine ⟨leading,_,cut.snoc_gap separator,Nat.le_of_eq same.symm,?_,?_⟩
    · exact ⟨_,rest',.gap pieces word _ (List.concat_ne_nil _ _),Nat.le_of_succ_le room,fun _ => step⟩
    · intro small large
      exact absurd small (Nat.not_lt.mpr (same ▸ large))

theorem turn (cut : Runs blank before leading pieces) (reached : Reached trim (d :: rest) pieces state) :
    ∃ leading' pieces', Runs blank (before ++ [c]) leading' pieces' ∧ Turn trim pieces state c rest.length pieces' := by
  cases kind : blank c with
  | true => exact turn_blank kind cut reached
  | false => exact ⟨leading,turn_letter kind cut reached⟩

/-- The loop goes through exactly where the runs fit, and is then where they say. -/
theorem loop_reached (text : List α) (cut : Runs blank before leading pieces) (reached : Reached trim rest pieces state)
    (room : text.length ≤ rest.length) :
    ∃ leading' pieces', Runs blank (before ++ text) leading' pieces' ∧ extent trim pieces ≤ extent trim pieces' ∧
      (∃ state' rest', Reached trim rest' pieces' state' ∧
        (extent trim pieces' < 2^31 → text.foldlM (collapseStep trim) state = some state')) ∧
      (extent trim pieces < 2^31 → 2^31 ≤ extent trim pieces' → text.foldlM (collapseStep trim) state = none) := by
  induction text generalizing before leading pieces state rest with
  | nil =>
    rw [List.append_nil]
    refine ⟨leading,pieces,cut,Nat.le_refl _,⟨state,rest,reached,fun _ => rfl⟩,?_⟩
    intro small large
    exact absurd small (Nat.not_lt.mpr large)
  | cons c text ih =>
    cases rest with
    | nil => exact absurd room (Nat.not_succ_le_zero _)
    | cons d rest =>
      obtain ⟨leading₁,pieces₁,cut₁,grows₁,⟨state₁,rest₁,reached₁,room₁,fits₁⟩,overflows₁⟩ := turn cut reached (c := c)
      obtain ⟨leading₂,pieces₂,cut₂,grows₂,⟨state₂,rest₂,reached₂,fits₂⟩,overflows₂⟩ :=
        ih cut₁ reached₁ (Nat.le_trans (Nat.le_of_succ_le_succ room) room₁)
      rw [List.append_assoc,List.singleton_append] at cut₂
      refine ⟨leading₂,pieces₂,cut₂,Nat.le_trans grows₁ grows₂,⟨state₂,rest₂,reached₂,?_⟩,?_⟩
      · intro small
        rw [List.foldlM_cons,fits₁ (Nat.lt_of_le_of_lt grows₂ small)]
        exact fits₂ small
      · intro small large
        rw [List.foldlM_cons]
        by_cases first : extent trim pieces₁ < 2^31
        · rw [fits₁ first]
          exact overflows₂ first large
        · rw [overflows₁ small (Nat.not_lt.mp first)]
          rfl

end Step

/-- The last decrement and the last `resize`. -/
def finish (state : Collapsing α) : Option (List α) :=
  let charsWritten := if state.inWhitespace && !state.alreadyTrimmed then state.charsWritten - 1 else state.charsWritten
  if 0 ≤ charsWritten then some (state.result.takeD charsWritten.toNat CodeUnit.nul) else none

theorem finish_reached {trim : Bool} {rest : List α} {pieces : List (List α × List α)} {state : Collapsing α}
    (reached : Reached trim rest pieces state) : finish state = some (joined trim pieces) := by
  cases reached with
  | start => exact resize_written [] rest 0 rfl
  | word pieces word =>
    rw [joined_snoc]
    exact resize_written _ rest _ rfl
  | gap pieces word gap some =>
    rw [joined_snoc,spelled_snoc,gapText]
    cases dropped trim gap with
    | true =>
      rw [if_pos rfl,List.append_nil]
      exact resize_written _ rest _ rfl
    | false =>
      have longer : (spelled trim pieces ++ word ++ [CodeUnit.space]).length = (spelled trim pieces ++ word).length + 1 :=
        List.length_append
      have resized := resize_written (spelled trim pieces ++ word) (CodeUnit.space :: rest) _
        (by omega : ((spelled trim pieces ++ word ++ [CodeUnit.space]).length : Int) - 1 = (spelled trim pieces ++ word).length)
      rw [if_neg Bool.false_ne_true,finish,buffer,List.append_assoc _ _ rest]
      exact resized

/-- The state behind a beginning of the text. -/
theorem loop_start (trim : Bool) {text before : List α} (begins : before <+: text) :
    ∃ leading pieces, Runs blank before leading pieces ∧
      (∃ state rest, Reached trim rest pieces state ∧
        (extent trim pieces < 2^31 → before.foldlM (collapseStep trim) (start text) = some state)) ∧
      (2^31 ≤ extent trim pieces → before.foldlM (collapseStep trim) (start text) = none) := by
  have first : Runs blank ([] : List α) [] [] := ⟨rfl,by simp,by simp,by simp,by simp⟩
  have room : before.length ≤ (List.replicate text.length (CodeUnit.nul : α)).length :=
    Nat.le_trans begins.length_le (Nat.le_of_eq List.length_replicate.symm)
  obtain ⟨leading,pieces,cut,_,reached,overflows⟩ := loop_reached before first (Reached.start : Reached trim _ [] _) room
  exact ⟨leading,pieces,cut,reached,overflows (Nat.two_pow_pos 31)⟩

theorem collapseWhitespaceT_eq (trim : Bool) {text leading : List α} {pieces : List (List α × List α)}
    (cut : Runs blank text leading pieces) :
    collapseWhitespaceT text trim = if extent trim pieces < 2^31 then some (joined trim pieces) else none := by
  obtain ⟨leading',pieces',cut',⟨state,rest,reached,fits⟩,overflows⟩ := loop_start trim (List.prefix_refl text)
  have same := cut.eq_runs.symm.trans cut'.eq_runs
  obtain ⟨rfl,rfl⟩ := Prod.mk.inj same
  change (text.foldlM (collapseStep trim) (start text)).bind finish = _
  by_cases small : extent trim pieces < 2^31
  · rw [if_pos small,fits small]
    exact finish_reached reached
  · rw [if_neg small,overflows (Nat.not_lt.mp small)]
    rfl

theorem collapseStep_length {trim : Bool} {state state' : Collapsing α} {c : α} (step : collapseStep trim state c = some state') :
    state'.result.length = state.result.length := by
  unfold collapseStep at step
  split at step
  · obtain ⟨between,first,second⟩ := Option.bind_eq_some_iff.mp step
    have same : between.result.length = state.result.length := by
      split at first
      · rw [Option.some.inj first]
      · exact (put_length first).trans rfl
    split at second
    · rw [← Option.some.inj second]
      exact same
    · rw [← Option.some.inj second]
      exact same
  · exact (put_length step).trans rfl

theorem loop_length {trim : Bool} {text : List α} {state state' : Collapsing α}
    (loop : text.foldlM (collapseStep trim) state = some state') : state'.result.length = state.result.length := by
  induction text generalizing state with
  | nil => rw [Option.some.inj loop]
  | cons c text ih =>
    rw [List.foldlM_cons] at loop
    obtain ⟨between,first,rest⟩ := Option.bind_eq_some_iff.mp loop
    rw [ih rest,collapseStep_length first]

/-- The write index after every turn. -/
def IndexInside (trim : Bool) (text : List α) : Prop := ∀ before, before <+: text →
  ∃ state, before.foldlM (collapseStep trim) (start text) = some state ∧
    0 ≤ state.charsWritten ∧ state.charsWritten ≤ text.length

theorem Reached.inside {trim : Bool} {rest : List α} {pieces : List (List α × List α)} {state : Collapsing α}
    (reached : Reached trim rest pieces state) : 0 ≤ state.charsWritten ∧ state.charsWritten ≤ state.result.length := by
  have inside (inWhitespace alreadyTrimmed : Bool) (written : List α) :
      0 ≤ (buffer inWhitespace alreadyTrimmed written rest).charsWritten ∧
        (buffer inWhitespace alreadyTrimmed written rest).charsWritten ≤
          (buffer inWhitespace alreadyTrimmed written rest).result.length := by
    simp only [buffer,List.length_append]
    omega
  cases reached <;> exact inside _ _ _

theorem indexInside_of_some {trim : Bool} {text result : List α} (collapsed : collapseWhitespaceT text trim = some result) :
    IndexInside trim text := by
  rintro before ⟨after,rfl⟩
  obtain ⟨last,loop,-⟩ := Option.bind_eq_some_iff.mp collapsed
  rw [List.foldlM_append] at loop
  obtain ⟨state,first,-⟩ := Option.bind_eq_some_iff.mp loop
  obtain ⟨_,pieces,_,⟨reached_state,rest,reached,fits⟩,overflows⟩ := loop_start trim (List.prefix_append before after)
  have length := loop_length first
  rw [start,List.length_replicate] at length
  by_cases small : extent trim pieces < 2^31
  · rw [fits small,Option.some.injEq] at first
    subst first
    exact ⟨_,fits small,reached.inside.1,length ▸ reached.inside.2⟩
  · rw [overflows (Nat.not_lt.mp small)] at first
    exact absurd first (by simp)

/-! What has been collapsed stays as it is. -/

/-- Words that have one space between them. -/
def Tidy (text : List α) : Prop := text = [] ∨ ∃ words last, (∀ word ∈ words ++ [last], word ≠ [] ∧ ∀ c ∈ word, blank c = false) ∧
  text = words.flatMap (· ++ [CodeUnit.space]) ++ last

theorem tidy_spelled (trim : Bool) (pieces : List (List α × List α)) (last : List α)
    (letters : ∀ word ∈ pieces.map Prod.fst ++ [last], word ≠ [] ∧ ∀ c ∈ word, blank c = false) :
    ∃ words last', (∀ word ∈ words ++ [last'], word ≠ [] ∧ ∀ c ∈ word, blank c = false) ∧
      spelled trim pieces ++ last = words.flatMap (· ++ [CodeUnit.space]) ++ last' := by
  induction pieces with
  | nil => exact ⟨[],last,letters,rfl⟩
  | cons piece pieces ih =>
    obtain ⟨word,gap⟩ := piece
    obtain ⟨⟨some,word_letters⟩,rest⟩ := List.forall_mem_cons.mp letters
    obtain ⟨words,last',letters',same⟩ := ih rest
    have text : spelled trim ((word,gap) :: pieces) ++ last = word ++ gapText trim gap ++ (spelled trim pieces ++ last) :=
      List.append_assoc ..
    rw [text,same,gapText]
    cases dropped trim gap with
    | false =>
      refine ⟨word :: words,last',List.forall_mem_cons.mpr ⟨⟨some,word_letters⟩,letters'⟩,?_⟩
      exact (List.append_assoc ..).symm
    | true =>
      rw [if_pos rfl,List.append_nil]
      have grown (next : List α) (next_letters : next ≠ [] ∧ ∀ c ∈ next, blank c = false) :
          word ++ next ≠ [] ∧ ∀ c ∈ word ++ next, blank c = false :=
        ⟨List.append_ne_nil_of_left_ne_nil some next,List.forall_mem_append.mpr ⟨word_letters,next_letters.2⟩⟩
      obtain ⟨first,others⟩ := List.forall_mem_append.mp letters'
      cases words with
      | nil =>
        refine ⟨[],word ++ last',?_,rfl⟩
        rw [List.nil_append,List.forall_mem_singleton] at letters' ⊢
        exact grown last' letters'
      | cons next words =>
        rw [List.cons_append] at letters'
        obtain ⟨next_letters,rest'⟩ := List.forall_mem_cons.mp letters'
        refine ⟨(word ++ next) :: words,last',List.forall_mem_cons.mpr ⟨grown next next_letters,rest'⟩,?_⟩
        simp only [List.flatMap_cons,List.append_assoc]

theorem tidy_joined (trim : Bool) {text leading : List α} {pieces : List (List α × List α)} (cut : Runs blank text leading pieces) :
    Tidy (joined trim pieces) := by
  obtain rfl | ⟨pieces,⟨word,gap⟩,rfl⟩ := List.eq_nil_or_concat' pieces
  · exact .inl rfl
  · have letters : ∀ other ∈ (pieces ++ [(word,gap)]).map Prod.fst, other ≠ [] ∧ ∀ c ∈ other, blank c = false :=
      List.forall_mem_map.mpr cut.words
    rw [List.map_append,List.map_singleton] at letters
    rw [joined_snoc]
    exact .inr (tidy_spelled trim pieces word letters)

theorem gapText_space (trim : Bool) : gapText trim [(CodeUnit.space : α)] = [CodeUnit.space] := by
  have kept : lineBreak (CodeUnit.space : α) = false := by
    simp [lineBreak,CodeUnit.space_ne_lineFeed,CodeUnit.space_ne_carriageReturn]
  simp [gapText,dropped,kept]

/-- Its own runs. -/
theorem Tidy.cut (trim : Bool) {text : List α} (tidy : Tidy text) :
    ∃ pieces, Runs blank text [] pieces ∧ joined trim pieces = text ∧ extent trim pieces = text.length := by
  obtain rfl | ⟨words,last,letters,rfl⟩ := tidy
  · exact ⟨[],⟨rfl,by simp,by simp,by simp,by simp⟩,rfl,rfl⟩
  · have text : spelled trim (words.map fun word => (word,[CodeUnit.space])) = words.flatMap (· ++ [CodeUnit.space]) := by
      simp only [spelled,List.flatMap_map,gapText_space]
    obtain ⟨words_letters,last_letters⟩ := List.forall_mem_append.mp letters
    rw [List.forall_mem_singleton] at last_letters
    refine ⟨(words.map fun word => (word,[CodeUnit.space])) ++ [(last,[])],⟨?_,?_,?_,?_,?_⟩,?_,?_⟩
    · simp [List.flatMap_map]
    · exact fun c none => absurd none List.not_mem_nil
    · refine List.forall_mem_append.mpr ⟨List.forall_mem_map.mpr words_letters,?_⟩
      rw [List.forall_mem_singleton]
      exact last_letters
    · refine List.forall_mem_append.mpr ⟨List.forall_mem_map.mpr fun word _ => ?_,?_⟩
      · exact List.forall_mem_singleton.mpr CodeUnit.space_blank
      · rw [List.forall_mem_singleton]
        exact fun c none => absurd none List.not_mem_nil
    · rw [List.map_append,List.map_singleton,List.dropLast_concat,List.map_map]
      exact List.forall_mem_map.mpr fun word _ => List.cons_ne_nil _ _
    · rw [joined_snoc,text]
    · rw [extent_snoc,text]
      rfl

omit [DecidableEq α] in
theorem Tidy.ends {text : List α} (tidy : Tidy text) :
    (∀ c ∈ text.head?, blank c = false) ∧ ∀ c ∈ text.getLast?, blank c = false := by
  obtain rfl | ⟨words,last,letters,rfl⟩ := tidy
  · exact ⟨by simp,by simp⟩
  · obtain ⟨words_letters,last_letters⟩ := List.forall_mem_append.mp letters
    obtain ⟨some,last_letters⟩ := last_letters last (List.mem_singleton_self _)
    refine ⟨?_,?_⟩
    · intro c first
      cases words with
      | nil => exact last_letters c (List.mem_of_mem_head? first)
      | cons word words =>
        obtain ⟨begun,word_letters⟩ := words_letters word List.mem_cons_self
        rw [List.flatMap_cons,List.append_assoc,List.append_assoc,List.head?_append_of_ne_nil _ begun] at first
        exact word_letters c (List.mem_of_mem_head? first)
    · intro c ends
      rw [List.getLast?_append_of_ne_nil _ some] at ends
      exact last_letters c (List.mem_of_mem_getLast? ends)

/-- The words of the text in order, with a space between two of them, or nothing where the
flag is set and the gap contains a line break; neither end is whitespace, collapsing again
changes nothing, and the write index stays inside. -/
def Collapsed (collapse : List α → Bool → Option (List α)) (trim : Bool) (text : List α) : Prop :=
  ∃ result, collapse text trim = some result ∧
    (∃ leading pieces, Runs blank text leading pieces ∧ result = joined trim pieces) ∧
    (∀ c ∈ result.head?, blank c = false) ∧ (∀ c ∈ result.getLast?, blank c = false) ∧
    collapse result trim = some result ∧ IndexInside trim text

/-- What is written at the most is below the largest `int`. -/
def Fits (trim : Bool) (text : List α) : Prop := extent trim (runs blank text).2 < 2^31

theorem collapsed_of_fits {trim : Bool} {text : List α} (small : Fits trim text) : Collapsed collapseWhitespaceT trim text := by
  have cut := runs_cut blank text
  have tidy := tidy_joined trim cut
  obtain ⟨pieces,own,same,length⟩ := tidy.cut trim
  have shorter : extent trim pieces < 2^31 := by
    rw [length]
    exact Nat.lt_of_le_of_lt (Nat.le_add_right _ _) small
  have again := collapseWhitespaceT_eq trim own
  rw [if_pos shorter,same] at again
  have collapse := (collapseWhitespaceT_eq trim cut).trans (if_pos small)
  exact ⟨_,collapse,⟨_,_,cut,rfl⟩,tidy.ends.1,tidy.ends.2,again,indexInside_of_some collapse⟩

theorem fits_of_collapsed {trim : Bool} {text : List α} (collapsed : Collapsed collapseWhitespaceT trim text) : Fits trim text := by
  obtain ⟨result,whole,-⟩ := collapsed
  by_contra large
  have missing := (collapseWhitespaceT_eq trim (runs_cut blank text)).trans (if_neg large)
  exact absurd (whole.symm.trans missing) (by simp)

theorem collapsed_iff (trim : Bool) :
    (∀ text : List UInt32, Collapsed collapseWhitespace trim text ↔ Fits trim text) ∧
    (∀ text : List UInt16, Collapsed collapseWhitespace16 trim text ↔ Fits trim text) ∧
    ∀ text : List UInt8, Collapsed collapseWhitespaceASCII trim text ↔ Fits trim text :=
  ⟨fun _ => ⟨fits_of_collapsed,collapsed_of_fits⟩,fun _ => ⟨fits_of_collapsed,collapsed_of_fits⟩,
    fun _ => ⟨fits_of_collapsed,collapsed_of_fits⟩⟩

theorem extent_word (trim : Bool) {word : List α} (some : word ≠ []) (letters : ∀ c ∈ word, blank c = false) :
    extent trim (runs blank word).2 = word.length := by
  have cut : Runs blank word [] [(word,[])] := by
    refine ⟨by simp,by simp,?_,by simp,by simp⟩
    rw [List.forall_mem_singleton]
    exact ⟨some,letters⟩
  rw [cut.eq_runs]
  exact extent_snoc trim [] word []

/-- The index does not get over as many letters. -/
theorem letters_not_collapsed : ¬Collapsed collapseWhitespaceASCII false (List.replicate (2^31) 97) := by
  intro collapsed
  have small := fits_of_collapsed collapsed
  have long : (List.replicate (2^31) (97 : UInt8)).length = 2^31 := List.length_replicate
  have letters : ∀ c ∈ List.replicate (2^31) (97 : UInt8), blank c = false := fun c member => by
    rw [List.eq_of_mem_replicate member]
    decide
  generalize List.replicate (2^31) (97 : UInt8) = text at small long letters
  have some : text ≠ [] := List.ne_nil_of_length_pos (by omega)
  rw [Fits,extent_word false some letters] at small
  omega

/-- A line break takes the gap with it. -/
example : collapseWhitespaceASCII [32,97,9,32,98,32,10,99,32] true = some [97,32,98,99] := by decide

end WebSearch.StringUtil
