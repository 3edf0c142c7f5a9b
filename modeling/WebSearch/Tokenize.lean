import WebSearch.Base.Bytes
import WebSearch.Library.Runs

/-! `base/string_util.cc`: `Tokenize` and `SplitStringAlongWhitespace` for the three kinds of
strings. An index that is none is `npos`. -/
namespace WebSearch.StringUtil
open Library

theorem findIdx?_getD {α : Type} (q : α → Bool) (text : List α) : (text.findIdx? q).getD text.length = (text.takeWhile fun c => !q c).length := by
  induction text with
  | nil => rfl
  | cons c text ih =>
    rw [List.findIdx?_cons,List.takeWhile_cons]
    cases here : q c with
    | true => rfl
    | false =>
      rw [Bool.not_false,if_pos rfl,List.length_cons,List.length_cons,← ih,if_neg Bool.false_ne_true]
      cases text.findIdx? q <;> rfl

theorem findIdx?_cut {α : Type} {q : α → Bool} {text : List α} {k : Nat} (found : text.findIdx? q = some k) :
    ∃ front c rest, text = front ++ c :: rest ∧ front.length = k ∧ (∀ d ∈ front, q d = false) ∧ q c = true := by
  induction text generalizing k with
  | nil => exact absurd found (by simp)
  | cons d text ih =>
    rw [List.findIdx?_cons] at found
    cases here : q d with
    | true =>
      rw [here,if_pos rfl] at found
      exact ⟨[],d,text,rfl,Option.some.inj found,by simp,here⟩
    | false =>
      rw [here,if_neg (by decide)] at found
      obtain ⟨k',later,rfl⟩ := Option.map_eq_some_iff.mp found
      obtain ⟨front,c,rest,rfl,length,front_all,there⟩ := ih later
      exact ⟨d :: front,c,rest,rfl,congrArg (· + 1) length,List.forall_mem_cons.mpr ⟨here,front_all⟩,there⟩

section Find
variable {α : Type} [DecidableEq α]

/-- The first index from `pos` on with one of these characters. -/
def findFirstOf (str chars : List α) (pos : Nat) : Option Nat :=
  ((str.drop pos).findIdx? fun c => chars.contains c).map (pos + ·)

def findFirstNotOf (str chars : List α) (pos : Nat) : Option Nat :=
  ((str.drop pos).findIdx? fun c => !chars.contains c).map (pos + ·)

/-- Where such a character is missing, the end of the text is taken. -/
theorem findFirstOf_getD (before rest chars : List α) :
    (findFirstOf (before ++ rest) chars before.length).getD (before ++ rest).length =
      before.length + (rest.takeWhile fun c => !chars.contains c).length := by
  rw [findFirstOf,List.drop_left,List.length_append,← findIdx?_getD]
  exact Option.getD_map (before.length + ·) rest.length _

theorem findFirstNotOf_getD (before rest chars : List α) :
    (findFirstNotOf (before ++ rest) chars before.length).getD (before ++ rest).length =
      before.length + (rest.takeWhile fun c => chars.contains c).length := by
  have width := findIdx?_getD (fun c => !chars.contains c) rest
  simp only [Bool.not_not] at width
  rw [findFirstNotOf,List.drop_left,List.length_append,← width]
  exact Option.getD_map (before.length + ·) rest.length _

/-- What lies in front of the first of the characters. -/
theorem findFirstOf_cases (before rest chars : List α) :
    (findFirstOf (before ++ rest) chars before.length = none ∧ ∀ c ∈ rest, chars.contains c = false) ∨
      ∃ front c more, rest = front ++ c :: more ∧ findFirstOf (before ++ rest) chars before.length = some (before.length + front.length) ∧
        (∀ d ∈ front, chars.contains d = false) ∧ chars.contains c = true := by
  rw [findFirstOf,List.drop_left]
  cases found : rest.findIdx? fun c => chars.contains c with
  | none => exact .inl ⟨rfl,by simpa using List.findIdx?_eq_none_iff.mp found⟩
  | some k =>
    obtain ⟨front,c,more,rfl,rfl,letters,blank⟩ := findIdx?_cut found
    exact .inr ⟨front,c,more,rfl,rfl,letters,blank⟩

theorem findFirstNotOf_cases (before rest chars : List α) :
    (findFirstNotOf (before ++ rest) chars before.length = none ∧ ∀ c ∈ rest, chars.contains c = true) ∨
      ∃ front c more, rest = front ++ c :: more ∧ findFirstNotOf (before ++ rest) chars before.length = some (before.length + front.length) ∧
        (∀ d ∈ front, chars.contains d = true) ∧ chars.contains c = false := by
  rw [findFirstNotOf,List.drop_left]
  cases found : rest.findIdx? fun c => !chars.contains c with
  | none => exact .inl ⟨rfl,by simpa using List.findIdx?_eq_none_iff.mp found⟩
  | some k =>
    obtain ⟨front,c,more,rfl,rfl,blank,letter⟩ := findIdx?_cut found
    simp only [Bool.not_eq_eq_eq_not,Bool.not_true,Bool.not_false] at blank letter
    exact .inr ⟨front,c,more,rfl,rfl,blank,letter⟩

end Find

section Tokenize
variable {α : Type} [DecidableEq α]

def tokenizeLoop (str delimiters : List α) : Nat → Option Nat → List (List α) → List (List α)
  | 0,_,tokens => tokens
  | _ + 1,none,tokens => tokens
  | fuel + 1,some start,tokens => match findFirstOf str delimiters (start + 1) with
    | none => tokens ++ [str.drop start]
    | some stop =>
      tokenizeLoop str delimiters fuel (findFirstNotOf str delimiters (stop + 1)) (tokens ++ [(str.drop start).take (stop - start)])

/-- What was in `tokens` before is cleared. -/
def tokenizeT (str delimiters : List α) (_tokens : List (List α)) : List (List α) × Nat :=
  let tokens := tokenizeLoop str delimiters (str.length + 1) (findFirstNotOf str delimiters 0) []
  (tokens,tokens.length)

/-- The loop of `SplitStringAlongWhitespaceT`. -/
structure Splitting (α : Type) where
  result : List (List α)
  lastWasWs : Bool
  lastNonWsStart : Nat

def alongStep (whitespace str : List α) (state : Splitting α) (i : Nat) : Splitting α :=
  if str[i]?.any fun c => whitespace.contains c then
    if state.lastWasWs then state
    else if 0 < i then {state with
      result := state.result ++ [(str.drop state.lastNonWsStart).take (i - state.lastNonWsStart)]
      lastWasWs := true}
    else {state with lastWasWs := true}
  else if state.lastWasWs then {state with lastWasWs := false, lastNonWsStart := i}
  else state

def alongEnd (str : List α) (state : Splitting α) : List (List α) :=
  if state.lastWasWs then state.result
  else state.result ++ [(str.drop state.lastNonWsStart).take (str.length - state.lastNonWsStart)]

def splitStringAlongWhitespaceT (whitespace str : List α) (result : List (List α)) : List (List α) :=
  if str.length = 0 then result
  else alongEnd str ((List.range str.length).foldl (alongStep whitespace str) ⟨result,false,0⟩)

end Tokenize

/-- Space, tab, LF, VT, FF and CR. -/
def html5WhitespaceWide : List UInt32 := [32,9,10,11,12,13]
def html5Whitespace16 : List UInt16 := [32,9,10,11,12,13]
def html5Whitespace : List UInt8 := [32,9,10,11,12,13]

def tokenizeWide (str delimiters : List UInt32) (tokens : List (List UInt32)) : List (List UInt32) × Nat :=
  tokenizeT str delimiters tokens

def tokenize16 (str delimiters : List UInt16) (tokens : List (List UInt16)) : List (List UInt16) × Nat :=
  tokenizeT str delimiters tokens

def tokenize (str delimiters : Bytes) (tokens : List Bytes) : List Bytes × Nat := tokenizeT str delimiters tokens

def splitStringAlongWhitespaceWide (str : List UInt32) (result : List (List UInt32)) : List (List UInt32) :=
  splitStringAlongWhitespaceT html5WhitespaceWide str result

def splitStringAlongWhitespace16 (str : List UInt16) (result : List (List UInt16)) : List (List UInt16) :=
  splitStringAlongWhitespaceT html5Whitespace16 str result

def splitStringAlongWhitespace (str : Bytes) (result : List Bytes) : List Bytes :=
  splitStringAlongWhitespaceT html5Whitespace str result

/-! The find-first loop. -/

section Words
variable {α : Type} [DecidableEq α]

theorem tokenizeLoop_eq (str delimiters : List α) {fuel : Nat} {before rest : List α} (whole : str = before ++ rest)
    (enough : rest.length < fuel) (tokens : List (List α)) :
    tokenizeLoop str delimiters fuel (findFirstNotOf str delimiters before.length) tokens =
      tokens ++ wordsOf (fun c => delimiters.contains c) rest := by
  induction fuel generalizing before rest tokens with
  | zero => exact absurd enough (Nat.not_lt_zero _)
  | succ fuel ih =>
    obtain ⟨none,blank⟩ | ⟨gap,c,text,rfl,start,gap_blank,letter⟩ := findFirstNotOf_cases before rest delimiters
    · have nothing := wordsOf_blank blank []
      rw [List.append_nil] at nothing
      rw [whole,none,nothing,tokenizeLoop]
      exact (List.append_nil tokens).symm
    · have begins : str = (before ++ gap) ++ c :: text := by rw [whole,List.append_assoc]
      have behind : str = (before ++ gap ++ [c]) ++ text := by rw [begins,List.append_assoc _ [c],List.singleton_append]
      have first : str.drop (before.length + gap.length) = c :: text := by rw [begins,← List.length_append,List.drop_left]
      have position : (before ++ gap ++ [c]).length = before.length + gap.length + 1 := by
        rw [List.length_append,List.length_append,List.length_singleton]
      rw [← whole] at start
      rw [start,tokenizeLoop,wordsOf_blank gap_blank,first,← position]
      obtain ⟨none,letters⟩ | ⟨word,b,more,rfl,stop,word_letters,blank⟩ := findFirstOf_cases (before ++ gap ++ [c]) text delimiters
      · rw [← behind] at none
        rw [none,wordsOf_last (List.cons_ne_nil _ _) (List.forall_mem_cons.mpr ⟨letter,letters⟩)]
      · have letters : ∀ d ∈ c :: word, delimiters.contains d = false := List.forall_mem_cons.mpr ⟨letter,word_letters⟩
        have split : str = (before ++ gap ++ c :: word ++ [b]) ++ more := by rw [begins]; simp
        have width : (before ++ gap ++ [c]).length + word.length + 1 = (before ++ gap ++ c :: word ++ [b]).length := by
          simp only [List.length_append,List.length_cons,List.length_nil]
          omega
        have token : (c :: (word ++ b :: more)).take ((before ++ gap ++ [c]).length + word.length - (before.length + gap.length)) =
            c :: word := by
          rw [position,show before.length + gap.length + 1 + word.length - (before.length + gap.length) = (c :: word).length by
            rw [List.length_cons]; omega,← List.cons_append,List.take_left]
        have shorter : more.length < fuel := by
          simp only [List.length_append,List.length_cons] at enough
          omega
        rw [← behind] at stop
        rw [stop]
        dsimp only
        rw [token,width,ih split shorter,← List.cons_append,wordsOf_word (List.cons_ne_nil _ _) letters blank,List.append_assoc]
        rfl

theorem tokenizeT_eq (str delimiters : List α) (tokens : List (List α)) :
    (tokenizeT str delimiters tokens).1 = wordsOf (fun c => delimiters.contains c) str :=
  @tokenizeLoop_eq α _ str delimiters (str.length + 1) [] str rfl (Nat.lt_succ_self _) []

/-! The state machine. -/

section Along
variable (whitespace : List α) {str : List α}

theorem alongStep_gap {i : Nat} {c : α} (here : str[i]? = some c) (blank : whitespace.contains c = true) (result : List (List α))
    (last : Nat) : alongStep whitespace str ⟨result,true,last⟩ i = ⟨result,true,last⟩ := by
  simp only [alongStep,here,Option.any_some,blank,if_true]

theorem alongStep_ends {i : Nat} {c : α} (here : str[i]? = some c) (blank : whitespace.contains c = true) (positive : 0 < i)
    (result : List (List α)) (last : Nat) : alongStep whitespace str ⟨result,false,last⟩ i =
      ⟨result ++ [(str.drop last).take (i - last)],true,last⟩ := by
  simp only [alongStep,here,Option.any_some,blank,if_true,Bool.false_eq_true,if_false,positive]

theorem alongStep_begins {i : Nat} {c : α} (here : str[i]? = some c) (letter : whitespace.contains c = false)
    (result : List (List α)) (last : Nat) : alongStep whitespace str ⟨result,true,last⟩ i = ⟨result,false,i⟩ := by
  simp only [alongStep,here,Option.any_some,letter,Bool.false_eq_true,if_true,if_false]

theorem alongStep_letter {i : Nat} {c : α} (here : str[i]? = some c) (letter : whitespace.contains c = false)
    (result : List (List α)) (last : Nat) : alongStep whitespace str ⟨result,false,last⟩ i = ⟨result,false,last⟩ := by
  simp only [alongStep,here,Option.any_some,letter,Bool.false_eq_true,if_false]

/-- Behind whitespace the rest is split by itself. Inside a word, what has been read of it
belongs to the rest. -/
theorem along_eq {before rest : List α} (whole : str = before ++ rest) (result : List (List α)) (last : Nat) :
    alongEnd str ((List.range' before.length rest.length).foldl (alongStep whitespace str) ⟨result,true,last⟩) =
        result ++ wordsOf (fun c => whitespace.contains c) rest ∧
    ∀ front word, before = front ++ word → last = front.length → word ≠ [] → (∀ c ∈ word, whitespace.contains c = false) →
      alongEnd str ((List.range' before.length rest.length).foldl (alongStep whitespace str) ⟨result,false,last⟩) =
        result ++ wordsOf (fun c => whitespace.contains c) (word ++ rest) := by
  induction rest generalizing before result last with
  | nil =>
    apply And.intro
    · exact (List.append_nil result).symm
    · rintro front word rfl rfl some letters
      rw [List.append_nil] at whole ⊢
      rw [wordsOf_last some letters,whole]
      simp [alongEnd]
  | cons c rest ih =>
    have here : str[before.length]? = Option.some c := by
      rw [whole,List.getElem?_append_right (Nat.le_refl _),Nat.sub_self,List.getElem?_cons_zero]
    have next : str = (before ++ [c]) ++ rest := by rw [whole,List.append_assoc,List.singleton_append]
    have later := @ih (before ++ [c]) next
    rw [List.length_append,List.length_singleton] at later
    rw [List.length_cons,List.range'_succ,List.foldl_cons,List.foldl_cons]
    cases blank : whitespace.contains c with
    | true =>
      apply And.intro
      · rw [alongStep_gap whitespace here blank,(later result last).1,← List.singleton_append,wordsOf_blank (by simpa using blank)]
      · rintro front word rfl rfl some letters
        have token : (str.drop front.length).take ((front ++ word).length - front.length) = word := by
          rw [whole,List.append_assoc,List.drop_left,List.length_append,Nat.add_sub_cancel_left,List.take_left]
        have positive : 0 < (front ++ word).length := List.length_pos_of_ne_nil (List.append_ne_nil_of_right_ne_nil _ some)
        rw [alongStep_ends whitespace here blank positive,token,(later _ _).1,wordsOf_word some letters blank,List.append_assoc,
          List.singleton_append]
    | false =>
      apply And.intro
      · rw [alongStep_begins whitespace here blank,
          (later result before.length).2 before [c] rfl rfl (List.cons_ne_nil _ _) (by simpa using blank)]
        rfl
      · rintro front word rfl rfl some letters
        have longer : ∀ d ∈ word ++ [c], whitespace.contains d = false :=
          List.forall_mem_append.mpr ⟨letters,List.forall_mem_singleton.mpr blank⟩
        rw [alongStep_letter whitespace here blank,
          (later result front.length).2 front (word ++ [c]) (List.append_assoc ..) rfl (List.concat_ne_nil _ _) longer,List.append_assoc]
        rfl

theorem splitStringAlongWhitespaceT_eq (str : List α) (result : List (List α)) :
    splitStringAlongWhitespaceT whitespace str result = result ++ wordsOf (fun c => whitespace.contains c) str := by
  cases str with
  | nil => exact (List.append_nil result).symm
  | cons c rest =>
    rw [splitStringAlongWhitespaceT,if_neg (by simp),List.length_cons,List.range_eq_range',List.range'_succ,List.foldl_cons]
    obtain ⟨behind,inside⟩ := @along_eq α _ whitespace (c :: rest) [c] rest rfl result 0
    cases blank : whitespace.contains c with
    | true =>
      -- there is no word in front of the first character
      have turn : alongStep whitespace (c :: rest) ⟨result,false,0⟩ 0 = ⟨result,true,0⟩ := by
        simp only [alongStep,List.getElem?_cons_zero,Option.any_some,blank,if_true,Bool.false_eq_true,if_false,Nat.lt_irrefl]
      rw [turn,← List.singleton_append,wordsOf_blank (by simpa using blank)]
      exact behind
    | false =>
      rw [alongStep_letter whitespace List.getElem?_cons_zero blank]
      exact inside [] [c] rfl rfl (List.cons_ne_nil _ _) (by simpa using blank)

end Along

/-- Both give the longest parts without delimiters, in order, and none of these is empty. -/
structure SameTokens (split : List α → List (List α) → List (List α))
    (tokenize : List α → List α → List (List α) → List (List α) × Nat) (delimiters s : List α) : Prop where
  same : ∀ result tokens, split s result = result ++ (tokenize s delimiters tokens).1
  maximal : ∀ tokens, ∃ leading pieces, Runs (fun c => delimiters.contains c) s leading pieces ∧
    (tokenize s delimiters tokens).1 = pieces.map Prod.fst
  nonempty : ∀ tokens, ∀ token ∈ (tokenize s delimiters tokens).1, token ≠ []
  counted : ∀ tokens, (tokenize s delimiters tokens).2 = (tokenize s delimiters tokens).1.length

theorem sameTokens (whitespace : List α) {delimiters : List α} (same : ∀ c, c ∈ delimiters ↔ c ∈ whitespace) (s : List α) :
    SameTokens (splitStringAlongWhitespaceT whitespace) tokenizeT delimiters s := by
  have cut := runs_cut (fun c => delimiters.contains c) s
  have tokens_eq (tokens : List (List α)) : (tokenizeT s delimiters tokens).1 =
      (runs (fun c => delimiters.contains c) s).2.map Prod.fst := (tokenizeT_eq s delimiters tokens).trans cut.wordsOf_eq
  have delimiter : (fun c => whitespace.contains c) = fun c => delimiters.contains c := by
    funext c
    rw [Bool.eq_iff_iff,List.contains_iff_mem,List.contains_iff_mem,same]
  refine ⟨fun result tokens => ?_,fun tokens => ⟨_,_,cut,tokens_eq tokens⟩,fun tokens token member => ?_,fun tokens => rfl⟩
  · rw [splitStringAlongWhitespaceT_eq,tokenizeT_eq,delimiter]
  · rw [tokens_eq] at member
    obtain ⟨piece,there,rfl⟩ := List.mem_map.mp member
    exact (cut.words piece there).1

end Words

theorem split_tokens :
    (∀ delimiters s : List UInt32, (∀ c, c ∈ delimiters ↔ c ∈ html5WhitespaceWide) →
      SameTokens splitStringAlongWhitespaceWide tokenizeWide delimiters s) ∧
    (∀ delimiters s : List UInt16, (∀ c, c ∈ delimiters ↔ c ∈ html5Whitespace16) →
      SameTokens splitStringAlongWhitespace16 tokenize16 delimiters s) ∧
    ∀ delimiters s : Bytes, (∀ c, c ∈ delimiters ↔ c ∈ html5Whitespace) → SameTokens splitStringAlongWhitespace tokenize delimiters s :=
  ⟨fun _ s same => sameTokens html5WhitespaceWide same s,fun _ s same => sameTokens html5Whitespace16 same s,
    fun _ s same => sameTokens html5Whitespace same s⟩

/-- The delimiters in another order. -/
theorem split_tokens_letters : SameTokens splitStringAlongWhitespace tokenize [9,10,11,12,13,32] [32,97,98,32,9,99] ∧
    splitStringAlongWhitespace [32,97,98,32,9,99] [] = [[97,98],[99]] := by
  refine ⟨split_tokens.2.2 [9,10,11,12,13,32] [32,97,98,32,9,99] fun c => ?_,by decide⟩
  simp only [html5Whitespace,List.mem_cons,List.not_mem_nil,or_false]
  tauto

end WebSearch.StringUtil
