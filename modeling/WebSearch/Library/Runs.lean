import Mathlib.Data.List.Basic

/-! A text as what separates its words in front, and its words with what separates them
from the next one. -/
namespace WebSearch.Library
variable {α : Type} {p : α → Bool}

/-- The cut of a text at its separators: no word is empty, and between two words there is
a separator. -/
structure Runs (p : α → Bool) (text : List α) (leading : List α) (pieces : List (List α × List α)) : Prop where
  whole : text = leading ++ pieces.flatMap fun piece => piece.1 ++ piece.2
  front : ∀ c ∈ leading, p c = true
  words : ∀ piece ∈ pieces, piece.1 ≠ [] ∧ ∀ c ∈ piece.1, p c = false
  gaps : ∀ piece ∈ pieces, ∀ c ∈ piece.2, p c = true
  apart : ∀ gap ∈ (pieces.map Prod.snd).dropLast, gap ≠ []

/-- A letter in front of a text that has been cut. -/
def addLetter (c : α) : List α × List (List α × List α) → List α × List (List α × List α)
  | ([],(word,gap) :: pieces) => ([],(c :: word,gap) :: pieces)
  | (leading,pieces) => ([],([c],leading) :: pieces)

def runs (p : α → Bool) : List α → List α × List (List α × List α)
  | [] => ([],[])
  | c :: text => if p c then (c :: (runs p text).1,(runs p text).2) else addLetter c (runs p text)

theorem runs_blank {leading : List α} (front : ∀ c ∈ leading, p c = true) (text : List α) :
    runs p (leading ++ text) = (leading ++ (runs p text).1,(runs p text).2) := by
  induction leading with
  | nil => rfl
  | cons c leading ih =>
    rw [List.cons_append,runs,if_pos (front c List.mem_cons_self),ih fun d member => front d (List.mem_cons_of_mem _ member)]
    rfl

theorem runs_word {word : List α} (some : word ≠ []) (letters : ∀ c ∈ word, p c = false) {text : List α}
    (ends : (runs p text).1 ≠ [] ∨ (runs p text).2 = []) :
    runs p (word ++ text) = ([],(word,(runs p text).1) :: (runs p text).2) := by
  induction word with
  | nil => exact absurd rfl some
  | cons c word ih =>
    have letter : ¬p c = true := by rw [letters c List.mem_cons_self]; decide
    rw [List.cons_append,runs,if_neg letter]
    cases word with
    | nil =>
      rw [List.nil_append]
      generalize runs p text = cut at ends
      obtain ⟨leading,pieces⟩ := cut
      obtain gap | none := ends
      · cases leading with
        | nil => exact absurd rfl gap
        | cons d leading => rfl
      · subst none
        cases leading <;> rfl
    | cons d word =>
      rw [ih (List.cons_ne_nil _ _) fun e member => letters e (List.mem_cons_of_mem _ member)]
      rfl

theorem Runs.tail {text leading : List α} {piece : List α × List α} {pieces : List (List α × List α)}
    (cut : Runs p text leading (piece :: pieces)) :
    Runs p (piece.2 ++ pieces.flatMap fun piece => piece.1 ++ piece.2) piece.2 pieces where
  whole := rfl
  front := cut.gaps piece List.mem_cons_self
  words other member := cut.words other (List.mem_cons_of_mem _ member)
  gaps other member := cut.gaps other (List.mem_cons_of_mem _ member)
  apart other member := by
    refine cut.apart other ?_
    cases pieces with
    | nil => exact absurd member List.not_mem_nil
    | cons next pieces => exact List.mem_cons_of_mem _ member

/-- There is one cut. -/
theorem Runs.eq_runs {text leading : List α} {pieces : List (List α × List α)} (cut : Runs p text leading pieces) :
    runs p text = (leading,pieces) := by
  induction pieces generalizing text leading with
  | nil =>
    have text_eq : text = leading ++ [] := cut.whole
    rw [text_eq,runs_blank cut.front]
    simp [runs]
  | cons piece pieces ih =>
    have rest := ih cut.tail
    obtain ⟨some,letters⟩ := cut.words piece List.mem_cons_self
    have ends : (runs p (piece.2 ++ pieces.flatMap fun piece => piece.1 ++ piece.2)).1 ≠ [] ∨
        (runs p (piece.2 ++ pieces.flatMap fun piece => piece.1 ++ piece.2)).2 = [] := by
      rw [rest]
      cases pieces with
      | nil => exact .inr rfl
      | cons next pieces => exact .inl (cut.apart piece.2 List.mem_cons_self)
    rw [cut.whole,List.flatMap_cons,runs_blank cut.front,List.append_assoc,runs_word some letters ends,rest,List.append_nil]

theorem runs_letter {text leading : List α} {pieces : List (List α × List α)} {c : α} (letter : p c = false)
    (cut : Runs p text leading pieces) : Runs p (c :: text) (addLetter c (leading,pieces)).1 (addLetter c (leading,pieces)).2 := by
  have single : [c] ≠ [] ∧ ∀ d ∈ [c], p d = false :=
    ⟨List.cons_ne_nil _ _,fun d member => List.mem_singleton.mp member ▸ letter⟩
  rcases leading with - | ⟨d,leading⟩
  · rcases pieces with - | ⟨⟨word,gap⟩,pieces⟩
    · have none : text = [] := cut.whole
      subst none
      exact ⟨rfl,cut.front,List.forall_mem_cons.mpr ⟨single,cut.words⟩,List.forall_mem_cons.mpr ⟨cut.front,cut.gaps⟩,cut.apart⟩
    · obtain ⟨⟨_,letters⟩,words⟩ := List.forall_mem_cons.mp cut.words
      exact ⟨congrArg (c :: ·) cut.whole,cut.front,
        List.forall_mem_cons.mpr ⟨⟨List.cons_ne_nil _ _,List.forall_mem_cons.mpr ⟨letter,letters⟩⟩,words⟩,
        List.forall_mem_cons.mpr (List.forall_mem_cons.mp cut.gaps),cut.apart⟩
  · refine ⟨congrArg (c :: ·) cut.whole,by simp [addLetter],List.forall_mem_cons.mpr ⟨single,cut.words⟩,
      List.forall_mem_cons.mpr ⟨cut.front,cut.gaps⟩,?_⟩
    cases pieces with
    | nil => exact cut.apart
    | cons piece pieces => exact List.forall_mem_cons.mpr ⟨List.cons_ne_nil _ _,cut.apart⟩

theorem runs_cut (p : α → Bool) (text : List α) : Runs p text (runs p text).1 (runs p text).2 := by
  induction text with
  | nil => exact ⟨rfl,by simp [runs],by simp [runs],by simp [runs],by simp [runs]⟩
  | cons c text ih =>
    cases blank : p c with
    | true =>
      rw [runs,if_pos blank]
      exact ⟨congrArg (c :: ·) ih.whole,List.forall_mem_cons.mpr ⟨blank,ih.front⟩,ih.words,ih.gaps,ih.apart⟩
    | false =>
      rw [runs,if_neg (by rw [blank]; decide)]
      exact runs_letter blank ih

/-! The words alone. -/

section Words

def wordsOf (p : α → Bool) (text : List α) : List (List α) := (runs p text).2.map Prod.fst

theorem Runs.wordsOf_eq {text leading : List α} {pieces : List (List α × List α)} (cut : Runs p text leading pieces) :
    wordsOf p text = pieces.map Prod.fst := by rw [wordsOf,cut.eq_runs]

theorem wordsOf_blank {leading : List α} (front : ∀ c ∈ leading, p c = true) (text : List α) :
    wordsOf p (leading ++ text) = wordsOf p text := by rw [wordsOf,runs_blank front,wordsOf]

theorem wordsOf_word {word : List α} (some : word ≠ []) (letters : ∀ c ∈ word, p c = false) {c : α} (blank : p c = true)
    (text : List α) : wordsOf p (word ++ c :: text) = word :: wordsOf p text := by
  have ends : (runs p (c :: text)).1 ≠ [] := by
    rw [runs,if_pos blank]
    exact List.cons_ne_nil _ _
  rw [wordsOf,runs_word some letters (.inl ends),List.map_cons,runs,if_pos blank,wordsOf]

theorem wordsOf_last {word : List α} (some : word ≠ []) (letters : ∀ c ∈ word, p c = false) : wordsOf p word = [word] := by
  have whole := @runs_word α p word some letters [] (.inr rfl)
  rw [List.append_nil] at whole
  rw [wordsOf,whole]
  rfl

/-- The first word, what separates it from the rest, and the rest. -/
theorem exists_word {c : α} (letter : p c = false) (text : List α) : ∃ word gap rest, c :: text = word ++ (gap ++ rest) ∧
    word ≠ [] ∧ (∀ d ∈ word, p d = false) ∧ (∀ d ∈ gap, p d = true) ∧ (∀ d ∈ rest.head?, p d = false) ∧
    (gap = [] → rest = []) ∧ wordsOf p (c :: text) = word :: wordsOf p rest := by
  have cut := runs_cut p (c :: text)
  generalize (runs p (c :: text)).1 = leading,(runs p (c :: text)).2 = pieces at cut
  cases leading with
  | cons d leading =>
    have same : c = d := (List.cons.inj cut.whole).1
    have blank := cut.front d List.mem_cons_self
    rw [← same,letter] at blank
    exact absurd blank Bool.false_ne_true
  | nil =>
    cases pieces with
    | nil => exact absurd cut.whole (List.cons_ne_nil _ _)
    | cons piece pieces =>
      obtain ⟨word,gap⟩ := piece
      have rest_words := cut.tail.wordsOf_eq
      rw [wordsOf_blank cut.tail.front] at rest_words
      obtain ⟨some,letters⟩ := cut.words _ List.mem_cons_self
      refine ⟨word,gap,pieces.flatMap fun piece => piece.1 ++ piece.2,?_,some,letters,cut.tail.front,?_,?_,?_⟩
      · have whole := cut.whole
        rw [List.nil_append,List.flatMap_cons,List.append_assoc] at whole
        exact whole
      · cases pieces with
        | nil => simp
        | cons next pieces =>
          obtain ⟨filled,letters⟩ := cut.words next (by simp)
          obtain ⟨d,word,first⟩ := List.exists_cons_of_ne_nil filled
          rw [first] at letters
          simpa [first] using letters d List.mem_cons_self
      · intro none
        cases pieces with
        | nil => rfl
        | cons next pieces => exact absurd none (cut.apart gap (by simp))
      · rw [rest_words]
        exact cut.wordsOf_eq

theorem wordsOf_append {c : α} (blank : p c = true) (text rest : List α) :
    wordsOf p (text ++ c :: rest) = wordsOf p text ++ wordsOf p rest := by
  induction length : text.length using Nat.strongRecOn generalizing text with
  | ind n ih =>
    have nothing : wordsOf p [] = [] := rfl
    have skip (d : α) (blank : p d = true) (text : List α) : wordsOf p (d :: text) = wordsOf p text :=
      @wordsOf_blank α p [d] (List.forall_mem_singleton.mpr blank) text
    cases text with
    | nil => rw [List.nil_append,skip c blank,nothing,List.nil_append]
    | cons d text =>
      cases letter : p d with
      | true => rw [List.cons_append,skip d letter,skip d letter,ih text.length (by simp [← length]) text rfl]
      | false =>
        obtain ⟨word,gap,more,cut,some,letters,gaps,-,last,words⟩ := exists_word letter text
        rw [words,cut]
        cases gap with
        | nil =>
          rw [last rfl,List.append_nil,List.append_nil,wordsOf_word some letters blank]
          rfl
        | cons e gap =>
          have shorter : (gap ++ more).length < n := by
            have size := congrArg List.length cut
            rw [length,List.length_append,List.cons_append,List.length_cons] at size
            omega
          rw [List.append_assoc,List.cons_append,List.cons_append,wordsOf_word some letters (gaps e List.mem_cons_self),
            ih _ shorter _ rfl,wordsOf_blank fun d member => gaps d (List.mem_cons_of_mem _ member)]
          rfl

theorem wordsOf_none {text : List α} (blank : ∀ c ∈ text, p c = true) : wordsOf p text = [] := by
  have words := @wordsOf_blank α p text blank []
  rw [List.append_nil] at words
  rw [words]
  rfl

end Words

/-! One more character at the end. -/

section Snoc
variable {text leading word gap : List α} {pieces : List (List α × List α)} {c : α}

theorem Runs.snoc_leading (cut : Runs p text leading []) (blank : p c = true) : Runs p (text ++ [c]) (leading ++ [c]) [] where
  whole := by
    have text_eq : text = leading ++ [] := cut.whole
    rw [text_eq,List.append_nil]
    exact (List.append_nil _).symm
  front := List.forall_mem_append.mpr ⟨cut.front,List.forall_mem_singleton.mpr blank⟩
  words := cut.words
  gaps := cut.gaps
  apart := cut.apart

theorem Runs.snoc_gap (cut : Runs p text leading (pieces ++ [(word,gap)])) (blank : p c = true) :
    Runs p (text ++ [c]) leading (pieces ++ [(word,gap ++ [c])]) where
  whole := by
    rw [cut.whole]
    simp
  front := cut.front
  words := by
    obtain ⟨words,last⟩ := List.forall_mem_append.mp cut.words
    refine List.forall_mem_append.mpr ⟨words,?_⟩
    rw [List.forall_mem_singleton] at last ⊢
    exact last
  gaps := by
    obtain ⟨gaps,last⟩ := List.forall_mem_append.mp cut.gaps
    have longer := List.forall_mem_append.mpr ⟨List.forall_mem_singleton.mp last,List.forall_mem_singleton.mpr blank⟩
    exact List.forall_mem_append.mpr ⟨gaps,List.forall_mem_singleton.mpr longer⟩
  apart := by
    have apart := cut.apart
    rw [List.map_append,List.map_singleton,List.dropLast_concat] at apart ⊢
    exact apart

theorem Runs.snoc_word (cut : Runs p text leading (pieces ++ [(word,[])])) (letter : p c = false) :
    Runs p (text ++ [c]) leading (pieces ++ [(word ++ [c],[])]) where
  whole := by
    rw [cut.whole]
    simp
  front := cut.front
  words := by
    obtain ⟨words,last⟩ := List.forall_mem_append.mp cut.words
    obtain ⟨_,letters⟩ := List.forall_mem_singleton.mp last
    have longer := List.forall_mem_append.mpr ⟨letters,List.forall_mem_singleton.mpr letter⟩
    exact List.forall_mem_append.mpr ⟨words,List.forall_mem_singleton.mpr ⟨List.concat_ne_nil _ _,longer⟩⟩
  gaps := by
    obtain ⟨gaps,last⟩ := List.forall_mem_append.mp cut.gaps
    exact List.forall_mem_append.mpr ⟨gaps,List.forall_mem_singleton.mpr (List.forall_mem_singleton.mp last)⟩
  apart := by
    have apart := cut.apart
    rw [List.map_append,List.map_singleton,List.dropLast_concat] at apart ⊢
    exact apart

theorem Runs.snoc_piece (cut : Runs p text leading pieces) (apart : ∀ gap ∈ pieces.map Prod.snd, gap ≠ [])
    (letter : p c = false) : Runs p (text ++ [c]) leading (pieces ++ [([c],[])]) where
  whole := by
    rw [cut.whole]
    simp
  front := cut.front
  words := List.forall_mem_append.mpr
    ⟨cut.words,List.forall_mem_singleton.mpr ⟨List.cons_ne_nil _ _,List.forall_mem_singleton.mpr letter⟩⟩
  gaps := List.forall_mem_append.mpr ⟨cut.gaps,List.forall_mem_singleton.mpr fun _ none => absurd none List.not_mem_nil⟩
  apart := by
    rw [List.map_append,List.map_singleton,List.dropLast_concat]
    exact apart

theorem Runs.apart_snoc (cut : Runs p text leading (pieces ++ [(word,gap)])) (some : gap ≠ []) :
    ∀ other ∈ (pieces ++ [(word,gap)]).map Prod.snd, other ≠ [] := by
  have apart := cut.apart
  rw [List.map_append,List.map_singleton,List.dropLast_concat] at apart
  rw [List.map_append]
  exact List.forall_mem_append.mpr ⟨apart,List.forall_mem_singleton.mpr some⟩

end Snoc

end WebSearch.Library
