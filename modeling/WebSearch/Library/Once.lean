import WebSearch.Library.Transition
import Mathlib.Data.Fintype.Card
import Mathlib.Logic.Function.Basic

/-! Making a shared value on first use. A thread that does not find the value tries to
claim the word; the one that gets it makes the value and publishes it, the others
look again until the word is not busy. Making may fail, and then the word is empty
again. `reset` takes the value away when nobody is using the word. -/
namespace WebSearch.Library.Once
open Function

inductive Word (α : Type)
  | empty
  | busy
  | ready (value : α)
  deriving DecidableEq

inductive Place (α : Type)
  | idle
  | looked
  | making
  | made (result : Option α)
  | waiting
  | leaving (result : Option α)
  deriving DecidableEq

/-- `made` and `results` go back to the last reset; `failed` says that some making has
ever come to nothing. -/
structure State (τ α : Type) where
  word : Word α
  place : τ → Place α
  made : List α
  results : List (τ × Option α)
  failed : Bool

inductive Action (τ α : Type)
  | look (t : τ)
  | claim (t : τ)
  | make (t : τ) (result : Option α)
  | publish (t : τ)
  | again (t : τ)
  | leave (t : τ)
  | reset

variable {τ α : Type} [Fintype τ] [DecidableEq τ]

def Word.found : Word α → Place α
  | .ready v => .leaving (some v)
  | _ => .looked

def Word.seen : Word α → Place α
  | .busy => .waiting
  | .ready v => .leaving (some v)
  | .empty => .leaving none

def Word.of : Option α → Word α
  | none => .empty
  | some v => .ready v

def Place.isIdle : Place α → Bool
  | .idle => true
  | _ => false

def step (s : State τ α) : Action τ α → Option (State τ α)
  | .look t => match s.place t with
    | .idle => some {s with place := update s.place t s.word.found}
    | _ => none
  | .claim t => match s.place t, s.word with
    | .looked, .empty => some {s with word := .busy,place := update s.place t .making}
    | .looked, _ => some {s with place := update s.place t .waiting}
    | _, _ => none
  | .make t result => match s.place t with
    | .making => some {s with
        place := update s.place t (.made result)
        made := s.made ++ result.toList
        failed := s.failed || result.isNone}
    | _ => none
  | .publish t => match s.place t with
    | .made result => some {s with word := .of result,place := update s.place t (.leaving result)}
    | _ => none
  | .again t => match s.place t with
    | .waiting => some {s with place := update s.place t s.word.seen}
    | _ => none
  | .leave t => match s.place t with
    | .leaving result => some {s with place := update s.place t .idle,results := s.results ++ [(t,result)]}
    | _ => none
  | .reset => match s.word with
    | .ready _ => if ∀ t, (s.place t).isIdle = true then some {s with word := .empty,made := [],results := []} else none
    | _ => none

def system (τ α : Type) [Fintype τ] [DecidableEq τ] : System (State τ α) (Action τ α) where
  initial s := s.word = .empty ∧ (∀ t, s.place t = .idle) ∧ s.made = [] ∧ s.results = [] ∧ s.failed = false
  step := step

/-- Whoever claimed the word is still at work on the value. -/
def Place.busy : Place α → Bool
  | .making | .made _ => true
  | _ => false

/-- A thread that leaves with a value found it in the word, and one that has made a
value is the only one that has. -/
def PlaceOk (word : Word α) (made : List α) : Place α → Prop
  | .making => made = []
  | .made result => made = result.toList
  | .leaving (some v) => word = .ready v
  | _ => True

structure Good (s : State τ α) : Prop where
  maker : s.word = .busy ↔ ∃ t, (s.place t).busy = true
  alone : ∀ t u, (s.place t).busy = true → (s.place u).busy = true → t = u
  empty : s.word = .empty → s.made = []
  ready : ∀ v, s.word = .ready v → s.made = [v]
  places : ∀ t, PlaceOk s.word s.made (s.place t)
  results : ∀ t v, (t,some v) ∈ s.results → s.word = .ready v

theorem initial_good {s : State τ α} (start : (system τ α).initial s) : Good s := by
  obtain ⟨word,place,made,results,-⟩ := start
  have idle (t : τ) : (s.place t).busy = false := by rw [place t]; rfl
  refine ⟨?_,?_,?_,?_,?_,?_⟩
  · simp [word,idle]
  · simp [idle]
  · simp [made]
  · simp [word]
  · intro t
    rw [place t]
    trivial
  · simp [results]

section Steps
variable {s : State τ α} {t : τ}

omit [Fintype τ] in
/-- A thread that has nothing to do with the making moves to where it still has not. -/
theorem Good.move (good : Good s) {p : Place α} (before : (s.place t).busy = false) (after : p.busy = false)
    (ok : PlaceOk s.word s.made p) : Good {s with place := update s.place t p} := by
  have same (u : τ) : (update s.place t p u).busy = (s.place u).busy := by
    by_cases here : u = t
    · rw [here,update_self,before,after]
    · rw [update_of_ne here]
  refine ⟨?_,?_,good.empty,good.ready,fun u => ?_,good.results⟩
  · simpa only [same] using good.maker
  · simpa only [same] using good.alone
  · by_cases here : u = t
    · dsimp only
      rw [here,update_self]
      exact ok
    · dsimp only
      rw [update_of_ne here]
      exact good.places u

omit [Fintype τ] in
theorem busy_update {place : τ → Place α} {p : Place α} (busy : p.busy = true)
    (others : ∀ u, u ≠ t → (place u).busy = false) (u : τ) : (update place t p u).busy = true ↔ u = t := by
  by_cases here : u = t
  · rw [here,update_self,busy]
    simp
  · rw [update_of_ne here,others u here]
    simp [here]

/-- While the word is not ready, nobody has a value. -/
theorem PlaceOk.elsewhere {word word' : Word α} {made made' : List α} {p : Place α} (ok : PlaceOk word made p)
    (idle : p.busy = false) (unready : ∀ v, word ≠ .ready v) : PlaceOk word' made' p := by
  cases p with
  | making | made r => contradiction
  | leaving r =>
    cases r with
    | none => trivial
    | some v => exact absurd ok (unready v)
  | _ => trivial

omit [Fintype τ] in
theorem Good.claim (good : Good s) (word : s.word = .empty) :
    Good {s with word := .busy,place := update s.place t .making} := by
  have nobody (u : τ) : (s.place u).busy = false := by
    rw [Bool.eq_false_iff]
    intro busy
    have claimed := good.maker.mpr ⟨u,busy⟩
    rw [word] at claimed
    contradiction
  have only := busy_update (p := .making) (t := t) rfl fun u _ => nobody u
  refine ⟨?_,?_,?_,?_,fun u => ?_,?_⟩
  · exact ⟨fun _ => ⟨t,(only t).mpr rfl⟩,fun _ => rfl⟩
  · intro u v first second
    rw [(only u).mp first,(only v).mp second]
  · simp
  · simp
  · dsimp only
    by_cases here : u = t
    · rw [here,update_self]
      exact good.empty word
    · rw [update_of_ne here]
      exact (good.places u).elsewhere (nobody u) (by simp [word])
  · intro u v member
    have ready := good.results u v member
    rw [word] at ready
    contradiction

omit [Fintype τ] [DecidableEq τ] in
theorem Good.others (good : Good s) (busy : (s.place t).busy = true) : ∀ u, u ≠ t → (s.place u).busy = false := by
  intro u different
  rw [Bool.eq_false_iff]
  exact fun also => different (good.alone u t also busy)

omit [Fintype τ] in
theorem Good.make (good : Good s) (place : s.place t = .making) (result : Option α) :
    Good {s with
      place := update s.place t (.made result)
      made := s.made ++ result.toList
      failed := s.failed || result.isNone} := by
  have busy : (s.place t).busy = true := by rw [place]; rfl
  have word : s.word = .busy := good.maker.mpr ⟨t,busy⟩
  have only := busy_update (p := .made result) (t := t) rfl (good.others busy)
  have nothing : s.made = [] := by
    have ok := good.places t
    rw [place] at ok
    exact ok
  refine ⟨?_,?_,?_,?_,fun u => ?_,good.results⟩
  · exact ⟨fun _ => ⟨t,(only t).mpr rfl⟩,fun _ => word⟩
  · intro u v first second
    rw [(only u).mp first,(only v).mp second]
  · simp [word]
  · simp [word]
  · dsimp only
    by_cases here : u = t
    · rw [here,update_self,nothing]
      rfl
    · rw [update_of_ne here]
      exact (good.places u).elsewhere (good.others busy u here) (by simp [word])

omit [Fintype τ] in
theorem Good.publish (good : Good s) {result : Option α} (place : s.place t = .made result) :
    Good {s with word := .of result,place := update s.place t (.leaving result)} := by
  have busy : (s.place t).busy = true := by rw [place]; rfl
  have word : s.word = .busy := good.maker.mpr ⟨t,busy⟩
  have made : s.made = result.toList := by
    have ok := good.places t
    rw [place] at ok
    exact ok
  have nobody (u : τ) : (update s.place t (.leaving result) u).busy = false := by
    by_cases here : u = t
    · rw [here,update_self]
      rfl
    · rw [update_of_ne here,good.others busy u here]
  refine ⟨?_,?_,?_,?_,fun u => ?_,?_⟩
  · cases result <;> simp [Word.of,nobody]
  · simp [nobody]
  · cases result <;> simp [Word.of,made]
  · cases result <;> simp [Word.of,made]
  · dsimp only
    by_cases here : u = t
    · rw [here,update_self]
      cases result <;> simp [PlaceOk,Word.of]
    · rw [update_of_ne here]
      exact (good.places u).elsewhere (good.others busy u here) (by simp [word])
  · intro u v member
    have ready := good.results u v member
    rw [word] at ready
    contradiction

omit [Fintype τ] in
theorem Good.leave (good : Good s) {result : Option α} (place : s.place t = .leaving result) :
    Good {s with place := update s.place t .idle,results := s.results ++ [(t,result)]} := by
  have moved := good.move (t := t) (p := .idle) (by rw [place]; rfl) rfl trivial
  refine ⟨moved.maker,moved.alone,moved.empty,moved.ready,moved.places,?_⟩
  intro u v member
  rcases List.mem_append.mp member with old | new
  · exact good.results u v old
  · obtain ⟨rfl,rfl⟩ := Prod.mk.inj (List.mem_singleton.mp new)
    have ok := good.places u
    rw [place] at ok
    exact ok

omit [Fintype τ] [DecidableEq τ] in
theorem Good.reset (idle : ∀ u, (s.place u).isIdle = true) : Good {s with word := .empty,made := [],results := []} := by
  have at_rest (u : τ) : s.place u = .idle := by
    have here := idle u
    cases place : s.place u <;> simp_all [Place.isIdle]
  refine ⟨?_,?_,?_,?_,fun u => ?_,?_⟩
  · simp [at_rest,Place.busy]
  · simp [at_rest,Place.busy]
  · simp
  · simp
  · dsimp only
    rw [at_rest u]
    trivial
  · simp

end Steps

theorem step_good {s s' : State τ α} {a : Action τ α} (good : Good s) (ok : step s a = some s') : Good s' := by
  cases a with
  | look t =>
    simp only [step] at ok
    split at ok
    · rename_i place
      rw [← Option.some.inj ok]
      apply good.move (by rw [place]; rfl)
      · cases s.word <;> rfl
      · cases word : s.word <;> simp [Word.found,PlaceOk]
    · contradiction
  | claim t =>
    simp only [step] at ok
    split at ok
    · rename_i word
      rw [← Option.some.inj ok]
      exact good.claim word
    · rename_i place _
      rw [← Option.some.inj ok]
      exact good.move (by rw [place]; rfl) rfl trivial
    · contradiction
  | make t result =>
    simp only [step] at ok
    split at ok
    · rename_i place
      rw [← Option.some.inj ok]
      exact good.make place result
    · contradiction
  | publish t =>
    simp only [step] at ok
    split at ok
    · rename_i place
      rw [← Option.some.inj ok]
      exact good.publish place
    · contradiction
  | again t =>
    simp only [step] at ok
    split at ok
    · rename_i place
      rw [← Option.some.inj ok]
      apply good.move (by rw [place]; rfl)
      · cases s.word <;> rfl
      · cases word : s.word <;> simp [Word.seen,PlaceOk]
    · contradiction
  | leave t =>
    simp only [step] at ok
    split at ok
    · rename_i place
      rw [← Option.some.inj ok]
      exact good.leave place
    · contradiction
  | reset =>
    simp only [step] at ok
    split at ok
    · split at ok
      · rename_i idle
        rw [← Option.some.inj ok]
        exact Good.reset idle
      · contradiction
    · contradiction

theorem reachable_good {s : State τ α} (reached : (system τ α).Reachable s) : Good s :=
  reached.invariant Good (fun _ start => initial_good start) fun _ _ _ good taken => step_good good taken

/-- The value is made at most once, and everybody who gets a value gets that one. -/
theorem made_once {s : State τ α} (reached : (system τ α).Reachable s) : s.made.length ≤ 1 ∧
    ∀ t v, (t,some v) ∈ s.results → s.word = .ready v ∧ s.made = [v] := by
  have good := reachable_good reached
  refine ⟨?_,fun t v member => ⟨good.results t v member,good.ready v (good.results t v member)⟩⟩
  cases word : s.word with
  | empty => simp [good.empty word]
  | ready v => simp [good.ready v word]
  | busy =>
    obtain ⟨t,busy⟩ := good.maker.mp word
    have ok := good.places t
    cases place : s.place t with
    | making =>
      rw [place] at ok
      have nothing : s.made = [] := ok
      simp [nothing]
    | made result =>
      rw [place] at ok
      have one : s.made = result.toList := ok
      cases result <;> simp [one]
    | _ =>
      rw [place] at busy
      contradiction

/-- No making has failed, so nobody leaves with nothing and nobody waits for nothing. -/
structure Sure (s : State τ α) : Prop where
  waiting : ∀ t, s.place t = .waiting → s.word ≠ .empty
  made : ∀ t, s.place t ≠ .made none
  leaving : ∀ t, s.place t ≠ .leaving none
  results : ∀ t, (t,none) ∉ s.results

omit [Fintype τ] in
theorem Sure.move {s : State τ α} {t : τ} {p : Place α} (sure : Sure s) (waiting : p = .waiting → s.word ≠ .empty)
    (made : p ≠ .made none) (leaving : p ≠ .leaving none) : Sure {s with place := update s.place t p} := by
  refine ⟨fun u => ?_,fun u => ?_,fun u => ?_,sure.results⟩
  all_goals
    dsimp only
    by_cases here : u = t
    · rw [here,update_self]
      assumption
    · rw [update_of_ne here]
      first | exact sure.waiting u | exact sure.made u | exact sure.leaving u

theorem step_sure {s s' : State τ α} {a : Action τ α} (sure : s.failed = false → Sure s)
    (ok : step s a = some s') : s'.failed = false → Sure s' := by
  cases a with
  | look t =>
    simp only [step] at ok
    split at ok
    · rw [← Option.some.inj ok]
      intro failed
      apply (sure failed).move <;> cases s.word <;> simp [Word.found]
    · contradiction
  | claim t =>
    simp only [step] at ok
    split at ok
    · rename_i word
      rw [← Option.some.inj ok]
      intro failed
      have kept := (sure failed).move (t := t) (p := .making) (by simp) (by simp) (by simp)
      exact ⟨fun u _ => by simp,kept.made,kept.leaving,kept.results⟩
    · rename_i other
      rw [← Option.some.inj ok]
      intro failed
      exact (sure failed).move (fun _ empty => other empty) (by simp) (by simp)
    · contradiction
  | make t result =>
    simp only [step] at ok
    split at ok
    · rw [← Option.some.inj ok]
      intro failed
      obtain ⟨before,some⟩ := Bool.or_eq_false_iff.mp failed
      have kept := (sure before).move (t := t) (p := .made result) (by simp)
        (by cases result <;> simp_all) (by simp)
      exact ⟨kept.waiting,kept.made,kept.leaving,kept.results⟩
    · contradiction
  | publish t =>
    simp only [step] at ok
    split at ok
    · rename_i result place
      rw [← Option.some.inj ok]
      intro failed
      cases result with
      | none => exact absurd place ((sure failed).made t)
      | some v =>
        have kept := (sure failed).move (t := t) (p := .leaving (some v)) (by simp) (by simp) (by simp)
        exact ⟨fun u _ => by simp [Word.of],kept.made,kept.leaving,kept.results⟩
    · contradiction
  | again t =>
    simp only [step] at ok
    split at ok
    · rename_i place
      rw [← Option.some.inj ok]
      intro failed
      have unempty := (sure failed).waiting t place
      apply (sure failed).move <;> cases word : s.word <;> simp_all [Word.seen]
    · contradiction
  | leave t =>
    simp only [step] at ok
    split at ok
    · rename_i result place
      rw [← Option.some.inj ok]
      intro failed
      have kept := (sure failed).move (t := t) (p := .idle) (by simp) (by simp) (by simp)
      refine ⟨kept.waiting,kept.made,kept.leaving,fun u member => ?_⟩
      rcases List.mem_append.mp member with old | new
      · exact (sure failed).results u old
      · obtain ⟨rfl,rfl⟩ := Prod.mk.inj (List.mem_singleton.mp new)
        exact (sure failed).leaving u place
    · contradiction
  | reset =>
    simp only [step] at ok
    split at ok
    · split at ok
      · rename_i idle
        rw [← Option.some.inj ok]
        intro failed
        refine ⟨fun u waiting => ?_,(sure failed).made,(sure failed).leaving,by simp⟩
        have here := idle u
        rw [show s.place u = .waiting from waiting] at here
        contradiction
      · contradiction
    · contradiction

theorem reachable_sure {s : State τ α} (reached : (system τ α).Reachable s) (sure : s.failed = false) : Sure s := by
  refine reached.invariant (fun s => s.failed = false → Sure s) ?_ ?_ sure
  · rintro s ⟨-,place,-,results,-⟩ -
    exact ⟨by simp [place],by simp [place],by simp [place],by simp [results]⟩
  · exact fun s a s' before taken => step_sure before taken

end WebSearch.Library.Once
