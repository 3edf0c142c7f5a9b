import WebSearch.StringUtil
import Mathlib.Computability.Language

/-! `base/string_util.cc`: a string against a pattern with wildcards and escapes, for
characters of any width. -/
namespace WebSearch.StringUtil

section Matching
variable {CHAR : Type} [DecidableEq CHAR] (code : CHAR → Nat)

def isWildcard (character : CHAR) : Bool := code character = 42 || code character = 63

/-- The pattern and the string from where they differ on. While `escaped`, there is the
place of the escape to go back to. -/
def eatSameChars (escaped : Option (List CHAR)) : List CHAR → List CHAR → List CHAR × List CHAR
  | [], string => ([],string)
  | p :: pattern, [] => (p :: pattern,[])
  | p :: pattern, c :: string =>
    if escaped = none ∧ isWildcard code p then (p :: pattern,c :: string)
    else if escaped = none ∧ code p = 92 then eatSameChars (some (p :: pattern)) pattern (c :: string)
    else if p = c then eatSameChars none pattern string
    else (escaped.getD (p :: pattern),c :: string)

def eatWildcard (pattern : List CHAR) : List CHAR := pattern.dropWhile (isWildcard code)

/-- The loop for `*`, and whether only wildcards are left at the end of the string. -/
def starLoop (visit : List CHAR → Bool) (pattern : List CHAR) : List CHAR → Bool
  | [] => (eatWildcard code pattern).isEmpty
  | c :: eval => visit (c :: eval) || starLoop visit pattern eval

/-- With `kMaxDepth - depth + 1` for the number. -/
def matchPatternT : Nat → List CHAR → List CHAR → Bool
  | 0, _, _ => false
  | left + 1, eval, pattern =>
    let eaten := eatSameChars code none pattern eval
    if eaten.2 = [] then (eatWildcard code eaten.1).isEmpty
    else
      match eaten.1 with
      | [] => false
      | p :: pattern =>
        if code p = 63 ∧ (matchPatternT left eaten.2 pattern || matchPatternT left eaten.2.tail pattern) then true
        else if code p = 42 then starLoop code (fun eval => matchPatternT left eval pattern) (p :: pattern) eaten.2
        else false

def kMaxDepth : Nat := 16

/-- `c_str()`. -/
def chars (string : List CHAR) : List CHAR := string.takeWhile (code · ≠ 0)

def isStringASCII (string : List CHAR) : Bool := string.all (code · ≤ 0x7F)

end Matching

/-- `wchar_t` has 32 bits. -/
def matchPatternWide (eval pattern : List UInt32) : Bool :=
  matchPatternT UInt32.toNat (kMaxDepth + 1) (chars UInt32.toNat eval) (chars UInt32.toNat pattern)

/-- The `DCHECK` ends a debug build. -/
def matchPatternASCII (debug : Bool) (eval pattern : Bytes) : Option Bool :=
  if debug && !(isStringASCII UInt8.toNat eval && isStringASCII UInt8.toNat pattern) then none
  else some (matchPatternT UInt8.toNat (kMaxDepth + 1) (chars UInt8.toNat eval) (chars UInt8.toNat pattern))

/-! What a pattern says. -/

section Meaning
variable {CHAR : Type} (code : CHAR → Nat)

def atMostOne : Language CHAR := {s : List CHAR | s.length ≤ 1}

/-- `*` is any sequence, `?` at most one character, and after an escape there is the
character itself, which must not be missing. -/
def language (escaped : Bool) : List CHAR → Language CHAR
  | [] => if escaped then 0 else 1
  | p :: pattern =>
    if escaped then {[p]} * language false pattern
    else if code p = 42 then ⊤ * language false pattern
    else if code p = 63 then atMostOne * language false pattern
    else if code p = 92 then language true pattern
    else {[p]} * language false pattern

def wildcards (escaped : Bool) : List CHAR → Nat
  | [] => 0
  | p :: pattern =>
    if escaped then wildcards false pattern
    else if isWildcard code p then wildcards false pattern + 1
    else wildcards (code p = 92) pattern

variable {code} {p c : CHAR} {pattern string : List CHAR}

theorem language_star (star : code p = 42) : language code false (p :: pattern) = ⊤ * language code false pattern := by
  rw [language,if_neg Bool.false_ne_true,if_pos star]

theorem language_question (question : code p = 63) :
    language code false (p :: pattern) = atMostOne * language code false pattern := by
  rw [language,if_neg Bool.false_ne_true,if_neg (by omega),if_pos question]

theorem language_escape (escape : code p = 92) : language code false (p :: pattern) = language code true pattern := by
  rw [language,if_neg Bool.false_ne_true,if_neg (by omega),if_neg (by omega),if_pos escape]

theorem language_escaped : language code true (p :: pattern) = {[p]} * language code false pattern := by
  rw [language,if_pos rfl]

theorem language_char (plain : isWildcard code p = false) (other : code p ≠ 92) :
    language code false (p :: pattern) = {[p]} * language code false pattern := by
  have no_wildcard : ¬(code p = 42 ∨ code p = 63) := by simpa [isWildcard] using plain
  rw [language,if_neg Bool.false_ne_true,if_neg (by omega),if_neg (by omega),if_neg other]

theorem mem_char_mul {l : Language CHAR} : string ∈ ({[c]} : Language CHAR) * l ↔ ∃ rest ∈ l, string = c :: rest := by
  rw [Language.mem_mul]
  constructor
  · rintro ⟨front,rfl,rest,member,rfl⟩
    exact ⟨rest,member,rfl⟩
  · rintro ⟨rest,member,rfl⟩
    exact ⟨[c],rfl,rest,member,rfl⟩

theorem cons_mem_char_mul {l : Language CHAR} {d : CHAR} :
    d :: string ∈ ({[c]} : Language CHAR) * l ↔ c = d ∧ string ∈ l := by
  rw [mem_char_mul]
  constructor
  · rintro ⟨rest,member,same⟩
    obtain ⟨rfl,rfl⟩ := List.cons.inj same
    exact ⟨rfl,member⟩
  · rintro ⟨rfl,member⟩
    exact ⟨string,member,rfl⟩

theorem mem_star_mul {l : Language CHAR} : string ∈ (⊤ : Language CHAR) * l ↔ ∃ rest, rest <:+ string ∧ rest ∈ l := by
  rw [Language.mem_mul]
  constructor
  · rintro ⟨front,-,rest,member,rfl⟩
    exact ⟨rest,List.suffix_append front rest,member⟩
  · rintro ⟨rest,⟨front,rfl⟩,member⟩
    exact ⟨front,trivial,rest,member,rfl⟩

theorem cons_mem_question_mul {l : Language CHAR} : c :: string ∈ atMostOne * l ↔ c :: string ∈ l ∨ string ∈ l := by
  rw [Language.mem_mul]
  constructor
  · rintro ⟨front,short,rest,member,same⟩
    cases front with
    | nil => exact Or.inl (same ▸ member)
    | cons d front =>
      obtain rfl : front = [] := List.eq_nil_of_length_eq_zero (Nat.le_zero.mp (Nat.le_of_succ_le_succ short))
      obtain ⟨rfl,rfl⟩ := List.cons.inj same
      exact Or.inr member
  · rintro (member | member)
    · exact ⟨[],Nat.zero_le 1,c :: string,member,rfl⟩
    · exact ⟨[c],Nat.le_refl 1,string,member,rfl⟩

theorem nil_mem_mul {l m : Language CHAR} : [] ∈ l * m ↔ [] ∈ l ∧ [] ∈ m := by
  rw [Language.mem_mul]
  constructor
  · rintro ⟨front,first,rest,second,same⟩
    obtain ⟨rfl,rfl⟩ := List.append_eq_nil_iff.mp same
    exact ⟨first,second⟩
  · rintro ⟨first,second⟩
    exact ⟨[],first,[],second,rfl⟩

theorem nil_not_mem_char_mul {l : Language CHAR} : [] ∉ ({[c]} : Language CHAR) * l := by
  rw [mem_char_mul]
  rintro ⟨rest,-,same⟩
  exact List.cons_ne_nil c rest same.symm

theorem nil_not_mem_escaped : [] ∉ language code true pattern := by
  cases pattern with
  | nil => exact Language.notMem_zero _
  | cons c pattern =>
    rw [language_escaped]
    exact nil_not_mem_char_mul

/-- Only wildcards can stand for nothing. -/
theorem nil_mem_language : [] ∈ language code false pattern ↔ eatWildcard code pattern = [] := by
  induction pattern with
  | nil => exact iff_of_true rfl rfl
  | cons p pattern ih =>
    rw [eatWildcard,List.dropWhile_cons]
    by_cases star : code p = 42
    · rw [language_star star,nil_mem_mul,if_pos (by simp [isWildcard,star])]
      exact (and_iff_right trivial).trans ih
    · by_cases question : code p = 63
      · rw [language_question question,nil_mem_mul,if_pos (by simp [isWildcard,question])]
        exact (and_iff_right (Nat.zero_le 1)).trans ih
      · have plain : isWildcard code p = false := by simp [isWildcard,star,question]
        rw [plain,if_neg Bool.false_ne_true]
        refine iff_of_false ?_ (List.cons_ne_nil p pattern)
        by_cases escape : code p = 92
        · rw [language_escape escape]
          exact nil_not_mem_escaped
        · rw [language_char plain escape]
          exact nil_not_mem_char_mul

theorem wildcards_escape (escape : code p = 92) : wildcards code false (p :: pattern) = wildcards code true pattern := by
  have plain : isWildcard code p = false := by simp [isWildcard,escape]
  rw [wildcards,if_neg Bool.false_ne_true,plain,if_neg Bool.false_ne_true,decide_eq_true escape]

theorem wildcards_char (plain : isWildcard code p = false) (other : code p ≠ 92) :
    wildcards code false (p :: pattern) = wildcards code false pattern := by
  rw [wildcards,if_neg Bool.false_ne_true,plain,if_neg Bool.false_ne_true,decide_eq_false other]

/-- The rests of a string, and the empty one by the wildcards alone. -/
theorem starLoop_iff {visit : List CHAR → Bool} {l : Language CHAR} (visited : ∀ rest, rest ≠ [] → (visit rest = true ↔ rest ∈ l))
    (ends : eatWildcard code pattern = [] ↔ [] ∈ l) :
    starLoop code visit pattern string = true ↔ ∃ rest, rest <:+ string ∧ rest ∈ l := by
  induction string with
  | nil =>
    rw [starLoop,List.isEmpty_iff,ends]
    constructor
    · exact fun member => ⟨[],List.suffix_refl [],member⟩
    · rintro ⟨rest,ends,member⟩
      rwa [← List.suffix_nil.mp ends]
  | cons c string ih =>
    rw [starLoop,Bool.or_eq_true,visited _ (List.cons_ne_nil c string),ih]
    constructor
    · rintro (member | ⟨rest,ends,member⟩)
      · exact ⟨_,List.suffix_refl _,member⟩
      · exact ⟨rest,ends.trans (List.suffix_cons c string),member⟩
    · rintro ⟨rest,ends,member⟩
      obtain rfl | later := List.suffix_cons_iff.mp ends
      · exact Or.inl member
      · exact Or.inr ⟨rest,later,member⟩

end Meaning

section Correct
variable {CHAR : Type} [DecidableEq CHAR] {code : CHAR → Nat} {p c : CHAR} {pattern string eval : List CHAR}

/-- What is left after the eating: the question is the same, and it cannot go on. -/
structure Eaten (code : CHAR → Nat) (escaped : Bool) (pattern string : List CHAR) (eaten : List CHAR × List CHAR) : Prop where
  same : string ∈ language code escaped pattern ↔ eaten.2 ∈ language code false eaten.1
  fewer : wildcards code false eaten.1 ≤ wildcards code escaped pattern
  stuck : ∀ p rest, eaten.1 = p :: rest → eaten.2 ≠ [] → isWildcard code p = true ∨ eaten.2 ∉ language code false eaten.1

/-- Where the escape was, for a string that has not ended. -/
def Back (code : CHAR → Nat) (pattern string : List CHAR) : Option (List CHAR) → Prop
  | none => True
  | some back => (∃ e, code e = 92 ∧ back = e :: pattern) ∧ string ≠ []

theorem eatSameChars_eaten {escaped : Option (List CHAR)} (back : Back code pattern string escaped) :
    Eaten code escaped.isSome pattern string (eatSameChars code escaped pattern string) := by
  induction pattern generalizing escaped string with
  | nil =>
    cases escaped with
    | none => exact ⟨Iff.rfl,Nat.le_refl _,fun p rest some => absurd some (List.cons_ne_nil p rest).symm⟩
    | some place => exact ⟨iff_of_false (Language.notMem_zero _) back.2,Nat.le_refl _,
        fun p rest some => absurd some (List.cons_ne_nil p rest).symm⟩
  | cons p pattern ih =>
    cases string with
    | nil =>
      cases escaped with
      | none => exact ⟨Iff.rfl,Nat.le_refl _,fun p rest _ some => absurd rfl some⟩
      | some place => exact absurd rfl back.2
    | cons c string =>
      cases escaped with
      | none =>
        cases plain : isWildcard code p with
        | true =>
          rw [eatSameChars,if_pos ⟨rfl,plain⟩]
          refine ⟨Iff.rfl,Nat.le_refl _,fun q rest here _ => Or.inl ?_⟩
          rwa [← (List.cons.inj here).1]
        | false =>
          rw [eatSameChars,if_neg (by rw [plain]; exact fun both => absurd both.2 Bool.false_ne_true)]
          by_cases escape : code p = 92
          · rw [if_pos ⟨rfl,escape⟩]
            obtain ⟨same,fewer,stuck⟩ := @ih (c :: string) (some (p :: pattern)) ⟨⟨p,escape,rfl⟩,List.cons_ne_nil c string⟩
            exact ⟨(by rwa [Option.isSome_none,language_escape escape]),(by rwa [Option.isSome_none,wildcards_escape escape]),stuck⟩
          · have meaning := @language_char CHAR code p pattern plain escape
            rw [if_neg fun both => escape both.2]
            by_cases fits : p = c
            · rw [if_pos fits]
              obtain ⟨same,fewer,stuck⟩ := @ih string none trivial
              refine ⟨?_,(by rwa [Option.isSome_none,wildcards_char plain escape]),stuck⟩
              rw [Option.isSome_none,meaning,cons_mem_char_mul,and_iff_right fits]
              exact same
            · rw [if_neg fits]
              refine ⟨Iff.rfl,Nat.le_refl _,fun q rest here _ => Or.inr ?_⟩
              show c :: string ∉ language code false (p :: pattern)
              rw [meaning,cons_mem_char_mul]
              exact fun both => fits both.1
      | some place =>
        obtain ⟨⟨e,escape,rfl⟩,-⟩ := back
        rw [eatSameChars,if_neg (by simp),if_neg (by simp)]
        by_cases fits : p = c
        · rw [if_pos fits]
          obtain ⟨same,fewer,stuck⟩ := @ih string none trivial
          refine ⟨?_,fewer,stuck⟩
          rw [Option.isSome_some,language_escaped,cons_mem_char_mul,and_iff_right fits]
          exact same
        · rw [if_neg fits,Option.getD_some]
          refine ⟨?_,(wildcards_escape escape).le,fun q rest here _ => Or.inr ?_⟩
          · rw [Option.isSome_some,language_escape escape]
          · show c :: string ∉ language code false (e :: p :: pattern)
            rw [language_escape escape,language_escaped,cons_mem_char_mul]
            exact fun both => fits both.1

/-- The number of calls within each other is that of the wildcards. -/
theorem matchPatternT_iff {left : Nat} (enough : wildcards code false pattern < left) :
    matchPatternT code left eval pattern = true ↔ eval ∈ language code false pattern := by
  induction left generalizing eval pattern with
  | zero => exact absurd enough (Nat.not_lt_zero _)
  | succ left ih =>
    have all_eaten : Eaten code false pattern eval (eatSameChars code none pattern eval) :=
      @eatSameChars_eaten CHAR _ code pattern eval none trivial
    obtain ⟨same,fewer,stuck⟩ := all_eaten
    rw [same,matchPatternT]
    cases eaten : eatSameChars code none pattern eval with
    | mk rest string =>
      rw [eaten] at fewer stuck
      show ite _ _ _ = true ↔ string ∈ language code false rest
      cases string with
      | nil =>
        rw [if_pos rfl,List.isEmpty_iff]
        exact nil_mem_language.symm
      | cons c string =>
        rw [if_neg (List.cons_ne_nil c string)]
        cases rest with
        | nil => exact iff_of_false Bool.false_ne_true (List.cons_ne_nil c string)
        | cons p pattern =>
          dsimp only at stuck ⊢
          cases wildcard : isWildcard code p with
          | false =>
            have refused := (stuck p pattern rfl (List.cons_ne_nil c string)).resolve_left (by rw [wildcard]; exact Bool.false_ne_true)
            refine iff_of_false ?_ refused
            have no_wildcard : ¬(code p = 42 ∨ code p = 63) := by simpa [isWildcard] using wildcard
            rw [if_neg fun both => no_wildcard (Or.inr both.1),if_neg fun star => no_wildcard (Or.inl star)]
            exact Bool.false_ne_true
          | true =>
            have rest_enough : wildcards code false pattern < left := by
              have counted : wildcards code false (p :: pattern) ≤ wildcards code false _ := fewer
              rw [wildcards,if_neg Bool.false_ne_true,if_pos wildcard] at counted
              omega
            have again (string : List CHAR) := @ih pattern string rest_enough
            by_cases question : code p = 63
            · have no_star : ¬code p = 42 := by omega
              have either : (matchPatternT code left (c :: string) pattern || matchPatternT code left string pattern) = true ↔
                  c :: string ∈ language code false (p :: pattern) := by
                rw [language_question question,cons_mem_question_mul,Bool.or_eq_true,again,again]
              by_cases found : (matchPatternT code left (c :: string) pattern || matchPatternT code left string pattern) = true
              · exact iff_of_true (if_pos ⟨question,found⟩) (either.mp found)
              · refine iff_of_false ?_ (mt either.mpr found)
                rw [if_neg fun both => found both.2,if_neg no_star]
                exact Bool.false_ne_true
            · have star : code p = 42 := by simpa [isWildcard,question] using wildcard
              have ends : eatWildcard code (p :: pattern) = [] ↔ [] ∈ language code false pattern := by
                rw [eatWildcard,List.dropWhile_cons_of_pos wildcard]
                exact nil_mem_language.symm
              rw [language_star star,mem_star_mul]
              rw [if_neg fun both => question both.1,if_pos star]
              exact starLoop_iff (fun string _ => again string) ends

end Correct

/-! Strings without NULs. -/

theorem chars_eq {CHAR : Type} {code : CHAR → Nat} {string : List CHAR} (noNul : ∀ c ∈ string, code c ≠ 0) :
    chars code string = string :=
  List.takeWhile_eq_self_iff.mpr fun c member => decide_eq_true (noNul c member)

theorem wide {string : List UInt32} (noNul : 0 ∉ string) (c : UInt32) (member : c ∈ string) : c.toNat ≠ 0 :=
  fun zero => noNul ((UInt32.toNat_inj.mp zero : c = 0) ▸ member)

theorem narrow {string : Bytes} (noNul : 0 ∉ string) (c : UInt8) (member : c ∈ string) : c.toNat ≠ 0 :=
  fun zero => noNul ((UInt8.toNat_inj.mp zero : c = 0) ▸ member)

/-- For up to 16 wildcards the answer is whether the string is one that the pattern stands
for. A debug build does not go on with characters outside ASCII where these are excluded. -/
theorem matchPattern_language :
    (∀ eval pattern : List UInt32, 0 ∉ eval → 0 ∉ pattern → wildcards UInt32.toNat false pattern ≤ 16 →
      (matchPatternWide eval pattern = true ↔ eval ∈ language UInt32.toNat false pattern)) ∧
    ∀ (debug : Bool) (eval pattern : Bytes), 0 ∉ eval → 0 ∉ pattern → wildcards UInt8.toNat false pattern ≤ 16 →
      (debug = true → isStringASCII UInt8.toNat eval = true ∧ isStringASCII UInt8.toNat pattern = true) →
      ∃ result, matchPatternASCII debug eval pattern = some result ∧
        (result = true ↔ eval ∈ language UInt8.toNat false pattern) := by
  constructor
  · intro eval pattern noNul noNul_pattern few
    rw [matchPatternWide,chars_eq (wide noNul),chars_eq (wide noNul_pattern)]
    exact matchPatternT_iff (Nat.lt_succ_of_le few)
  · intro debug eval pattern noNul noNul_pattern few ascii
    refine ⟨_,?_,matchPatternT_iff (Nat.lt_succ_of_le few)⟩
    have checked : (debug && !(isStringASCII UInt8.toNat eval && isStringASCII UInt8.toNat pattern)) = false := by
      cases debug with
      | false => rfl
      | true => simp [ascii rfl]
    rw [matchPatternASCII,checked,chars_eq (narrow noNul),chars_eq (narrow noNul_pattern)]
    rfl

theorem matchPattern_language_question :
    (matchPatternWide [97,98] [97,63] = true ↔ [97,98] ∈ language UInt32.toNat false [97,63]) ∧
      ∃ result, matchPatternASCII true [97,98] [92,42] = some result ∧
        (result = true ↔ [97,98] ∈ language UInt8.toNat false [92,42]) := by
  have noNul : (0 : UInt32) ∉ [97,98] ∧ (0 : UInt32) ∉ [97,63] := by decide
  have plain : (0 : UInt8) ∉ [97,98] ∧ (0 : UInt8) ∉ [92,42] := by decide
  exact ⟨matchPattern_language.1 _ _ noNul.1 noNul.2 (by decide),
    matchPattern_language.2 true _ _ plain.1 plain.2 (by decide) (by decide)⟩

end WebSearch.StringUtil
