import WebSearch.AtExit
import WebSearch.Library.Once

/-! `base/singleton.h`: `Singleton::get`, where `instance_` is the pointer, 0 or
`kBeingCreatedMarker`, and where `Traits::New` may return NULL. -/
namespace WebSearch.Singleton
open Library Function

/-- An `AtomicWord` is a number; a pointer is never 1. -/
def kBeingCreatedMarker : Nat := 1

/-- Where a thread is in `get()`: before the compare-and-swap, before `Traits::New`,
before the store of `newval`, before its registration, in the loop, or on its way out. -/
inductive Point
  | compareAndSwap
  | new
  | store (newval : Nat)
  | register (newval : Nat)
  | spinning
  | leaving (value : Nat)
  deriving DecidableEq

/-- `made` and `results` go back to the last `OnExit`, `deleted` and `failed` to the
start; `failed` says that `Traits::New` has ever returned NULL. -/
structure State (τ : Type) where
  instance_ : Nat
  thread : τ → Option Point
  managers : AtExit.Managers Unit
  made : List Nat
  results : List (τ × Nat)
  deleted : List Nat
  failed : Bool

inductive Action (τ : Type)
  | get (t : τ)
  | compareAndSwap (t : τ)
  | new (t : τ) (newval : Nat)
  | store (t : τ)
  | register (t : τ)
  | spin (t : τ)
  | finish (t : τ)
  | callback

variable {τ : Type} [Fintype τ] [DecidableEq τ]

def State.move (s : State τ) (t : τ) (p : Point) : State τ := {s with thread := update s.thread t (some p)}

/-- `OnExit`: the exchange and `Traits::Delete`. -/
def onExit (s : State τ) : State τ := {s with
  instance_ := 0
  made := []
  results := []
  deleted := s.deleted ++ [s.instance_]}

/-- `Traits::New` returns NULL or an object, which is never at the address 1.
`callback` is one round of `ProcessCallbacksNow`, which runs single threaded. -/
def step (kRegisterAtExit : Bool) (s : State τ) : Action τ → Option (State τ)
  | .get t => match s.thread t with
    | none => some (s.move t (if s.instance_ ≠ 0 ∧ s.instance_ ≠ kBeingCreatedMarker then .leaving s.instance_
        else .compareAndSwap))
    | _ => none
  | .compareAndSwap t => match s.thread t with
    | some .compareAndSwap =>
      if s.instance_ = 0 then some {s.move t .new with instance_ := kBeingCreatedMarker}
      else some (s.move t .spinning)
    | _ => none
  | .new t newval => match s.thread t with
    | some .new => if newval = 1 then none else some {s.move t (.store newval) with
        made := if newval = 0 then s.made else s.made ++ [newval]
        failed := s.failed || newval == 0}
    | _ => none
  | .store t => match s.thread t with
    | some (.store newval) => some {s.move t (.register newval) with instance_ := newval}
    | _ => none
  | .register t => match s.thread t with
    | some (.register newval) => some {s.move t (.leaving newval) with
        managers := if newval ≠ 0 ∧ kRegisterAtExit = true then AtExit.registerCallback s.managers () else s.managers}
    | _ => none
  | .spin t => match s.thread t with
    | some .spinning =>
      some (s.move t (if s.instance_ ≠ kBeingCreatedMarker then .leaving s.instance_ else .spinning))
    | _ => none
  | .finish t => match s.thread t with
    | some (.leaving value) => some {s with
        thread := update s.thread t none
        results := s.results ++ [(t,value)]}
    | _ => none
  | .callback => match s.managers with
    | (_ :: stack) :: below =>
      if ∀ t, s.thread t = none then some (onExit {s with managers := stack :: below}) else none
    | _ => none

def system (τ : Type) [Fintype τ] [DecidableEq τ] (kRegisterAtExit : Bool) : System (State τ) (Action τ) where
  initial s := s.instance_ = 0 ∧ (∀ t, s.thread t = none) ∧ s.managers = [[]] ∧ s.made = [] ∧ s.results = [] ∧
    s.deleted = [] ∧ s.failed = false
  step := step kRegisterAtExit

/-! `get()` is the protocol of the library. -/

def pointer : Nat → Option Nat
  | 0 => none
  | v => some v

def word : Nat → Once.Word Nat
  | 0 => .empty
  | 1 => .busy
  | v => .ready v

def place : Option Point → Once.Place Nat
  | none => .idle
  | some .compareAndSwap => .looked
  | some .new => .making
  | some (.store newval) => .made (pointer newval)
  | some (.register newval) => .leaving (pointer newval)
  | some .spinning => .waiting
  | some (.leaving value) => .leaving (pointer value)

def State.once (s : State τ) : Once.State τ Nat where
  word := word s.instance_
  place t := place (s.thread t)
  made := s.made
  results := s.results.map fun r => (r.1,pointer r.2)
  failed := s.failed

def Point.building : Point → Bool
  | .new | .store _ => true
  | .register newval => newval ≠ 0
  | _ => false

/-- Where `instance_` has to be for a thread to be where it is. -/
def Point.fits (instance_ : Nat) : Point → Prop
  | .new => instance_ = 1
  | .store newval => instance_ = 1 ∧ newval ≠ 1
  | .register newval => newval ≠ 0 → instance_ = newval ∧ newval ≠ 1
  | _ => True

structure Good (s : State τ) : Prop where
  fits : ∀ t p, s.thread t = some p → p.fits s.instance_
  alone : ∀ t u p q, s.thread t = some p → s.thread u = some q → p.building = true → q.building = true → t = u
  managed : ∃ stack, s.managers = [stack] ∧ stack.length ≤ 1 ∧
    (stack ≠ [] → 1 < s.instance_ ∧ ∀ t p, s.thread t = some p → p.building = false)

section Steps
variable {s s' : State τ} {t : τ}

omit [Fintype τ] in
theorem Good.moved (good : Good s) {p : Point} (thread : s'.thread = update s.thread t (some p))
    (here : p.fits s'.instance_)
    (others : ∀ u q, u ≠ t → s.thread u = some q → q.fits s'.instance_ ∧ (p.building = true → q.building = false))
    (managed : ∃ stack, s'.managers = [stack] ∧ stack.length ≤ 1 ∧
      (stack ≠ [] → 1 < s'.instance_ ∧ ∀ t p, s'.thread t = some p → p.building = false)) : Good s' := by
  have at_t : s'.thread t = some p := by rw [thread,update_self]
  have other {u : τ} (different : u ≠ t) : s'.thread u = s.thread u := by rw [thread,update_of_ne different]
  refine ⟨fun u q at_u => ?_,fun u v q r at_u at_v first second => ?_,managed⟩
  · by_cases same : u = t
    · rw [same,at_t] at at_u
      cases at_u
      exact here
    · rw [other same] at at_u
      exact (others u q same at_u).1
  · by_cases u_is : u = t <;> by_cases v_is : v = t
    · exact u_is.trans v_is.symm
    · rw [u_is,at_t] at at_u
      rw [other v_is] at at_v
      cases at_u
      have idle := (others v r v_is at_v).2 first
      rw [idle] at second
      contradiction
    · rw [v_is,at_t] at at_v
      rw [other u_is] at at_u
      cases at_v
      have idle := (others u q u_is at_u).2 second
      rw [idle] at first
      contradiction
    · rw [other u_is] at at_u
      rw [other v_is] at at_v
      exact good.alone u v q r at_u at_v first second

omit [Fintype τ] in
/-- A thread that is not making anything goes on without making anything. -/
theorem Good.walk (good : Good s) {p : Point} (idle : p.building = false) (fits : p.fits s.instance_) :
    Good (s.move t p) := by
  obtain ⟨stack,one,short,busy⟩ := good.managed
  apply good.moved
  · rfl
  · exact fits
  · intro u q different at_u
    refine ⟨good.fits u q at_u,?_⟩
    rw [idle]
    simp
  · refine ⟨stack,one,short,fun some => ⟨(busy some).1,fun u q at_u => ?_⟩⟩
    simp only [State.move] at at_u
    by_cases same : u = t
    · rw [same,update_self] at at_u
      cases at_u
      exact idle
    · rw [update_of_ne same] at at_u
      exact (busy some).2 u q at_u

omit [Fintype τ] [DecidableEq τ] in
/-- Nobody but the thread that makes the object depends on `instance_`. -/
theorem Good.others_idle (good : Good s) (unset : s.instance_ = 0 ∨ ∃ p, s.thread t = some p ∧ p.building = true)
    {u : τ} {q : Point} (different : u ≠ t) (at_u : s.thread u = some q) : q.building = false := by
  rw [Bool.eq_false_iff]
  intro building
  obtain zero | ⟨p,at_t,making⟩ := unset
  · have fits := good.fits u q at_u
    cases q with
    | new => exact absurd (zero.symm.trans fits) (by simp)
    | store newval => exact absurd (zero.symm.trans fits.1) (by simp)
    | register newval =>
      have nonzero : newval ≠ 0 := by simpa [Point.building] using building
      exact nonzero ((fits nonzero).1.symm.trans zero)
    | _ => contradiction
  · exact different (good.alone u t q p at_u at_t building making)

theorem Point.fits_of_idle {p : Point} (idle : p.building = false) (instance_ : Nat) : p.fits instance_ := by
  cases p with
  | new | store newval => contradiction
  | register newval =>
    intro nonzero
    exact absurd idle (by simp [Point.building,nonzero])
  | _ => trivial

omit [Fintype τ] [DecidableEq τ] in
theorem Good.stack_empty (good : Good s) (unset : s.instance_ ≤ 1 ∨ ∃ p, s.thread t = some p ∧ p.building = true) :
    s.managers = [[]] := by
  obtain ⟨stack,one,-,busy⟩ := good.managed
  cases stack with
  | nil => exact one
  | cons c stack =>
    obtain ⟨set,idle⟩ := busy (by simp)
    obtain low | ⟨p,at_t,making⟩ := unset
    · omega
    · rw [idle t p at_t] at making
      contradiction

omit [Fintype τ] in
/-- The making thread moves on; nobody else is affected and no callback is waiting yet. -/
theorem Good.make (good : Good s) {p : Point} (unset : s.instance_ = 0 ∨ ∃ p, s.thread t = some p ∧ p.building = true)
    (thread : s'.thread = update s.thread t (some p)) (here : p.fits s'.instance_) (managers : s'.managers = [[]]) :
    Good s' := by
  apply good.moved thread here
  · intro u q different at_u
    have idle := good.others_idle unset different at_u
    exact ⟨Point.fits_of_idle idle _,fun _ => idle⟩
  · exact ⟨[],managers,by simp,by simp⟩

end Steps

theorem step_good {kRegisterAtExit : Bool} {s s' : State τ} {a : Action τ} (good : Good s)
    (ok : step kRegisterAtExit s a = some s') : Good s' := by
  cases a with
  | get t =>
    simp only [step] at ok
    split at ok
    · rw [← Option.some.inj ok]
      split <;> exact good.walk rfl trivial
    · contradiction
  | compareAndSwap t =>
    simp only [step] at ok
    split at ok
    · split at ok
      · rename_i zero
        have empty := good.stack_empty (t := t) (.inl (by omega))
        rw [← Option.some.inj ok]
        apply good.make (.inl zero) rfl
        · rfl
        · exact empty
      · rw [← Option.some.inj ok]
        exact good.walk rfl trivial
    · contradiction
  | new t newval =>
    simp only [step] at ok
    split at ok
    · rename_i thread
      split at ok
      · contradiction
      · rename_i valid
        have empty := good.stack_empty (t := t) (.inr ⟨_,thread,rfl⟩)
        rw [← Option.some.inj ok]
        apply good.make (.inr ⟨_,thread,rfl⟩) rfl
        · exact ⟨good.fits t _ thread,valid⟩
        · exact empty
    · contradiction
  | store t =>
    simp only [step] at ok
    split at ok
    · rename_i newval thread
      have empty := good.stack_empty (t := t) (.inr ⟨_,thread,rfl⟩)
      rw [← Option.some.inj ok]
      apply good.make (.inr ⟨_,thread,rfl⟩) rfl
      · exact fun _ => ⟨rfl,(good.fits t _ thread).2⟩
      · exact empty
    · contradiction
  | register t =>
    simp only [step] at ok
    split at ok
    · rename_i newval thread
      rw [← Option.some.inj ok]
      by_cases pushed : newval ≠ 0 ∧ kRegisterAtExit = true
      · have building : (Point.register newval).building = true := by simp [Point.building,pushed.1]
        have stack := good.stack_empty (t := t) (.inr ⟨_,thread,building⟩)
        obtain ⟨set,valid⟩ := good.fits t _ thread pushed.1
        apply good.moved
        · rfl
        · trivial
        · exact fun u q different at_u => ⟨good.fits u q at_u,by simp [Point.building]⟩
        · refine ⟨[()],by simp [pushed,stack,AtExit.registerCallback],by simp,fun _ => ⟨?_,fun u q at_u => ?_⟩⟩
          · have nonzero := pushed.1
            simp only [State.move,set]
            omega
          · by_cases same : u = t
            · simp only [State.move,same,update_self] at at_u
              cases at_u
              rfl
            · simp only [State.move,update_of_ne same] at at_u
              exact good.others_idle (.inr ⟨_,thread,building⟩) same at_u
      · rw [if_neg pushed]
        exact good.walk (p := .leaving newval) rfl trivial
    · contradiction
  | spin t =>
    simp only [step] at ok
    split at ok
    · rw [← Option.some.inj ok]
      split <;> exact good.walk rfl trivial
    · contradiction
  | finish t =>
    simp only [step] at ok
    split at ok
    · rename_i value thread
      rw [← Option.some.inj ok]
      have old {u : τ} {p : Point} (now : update s.thread t none u = some p) : s.thread u = some p := by
        by_cases same : u = t
        · rw [same,update_self] at now
          contradiction
        · rwa [update_of_ne same] at now
      obtain ⟨stack,one,short,busy⟩ := good.managed
      exact ⟨fun u p now => good.fits u p (old now),fun u v p q first second => good.alone u v p q (old first) (old second),
        stack,one,short,fun some => ⟨(busy some).1,fun u p now => (busy some).2 u p (old now)⟩⟩
    · contradiction
  | callback =>
    simp only [step] at ok
    split at ok
    · rename_i c stack below managers
      split at ok
      · rename_i idle
        rw [← Option.some.inj ok]
        have nowhere (u : τ) (p : Point) : s.thread u ≠ some p := by simp [idle u]
        obtain ⟨whole,one,short,-⟩ := good.managed
        obtain ⟨rfl,rfl⟩ : c :: stack = whole ∧ below = [] := by simpa [managers] using one
        have last : stack = [] := by
          rw [List.length_cons] at short
          exact List.length_eq_zero_iff.mp (by omega)
        exact ⟨fun u p at_u => absurd at_u (nowhere u p),fun u v p q at_u => absurd at_u (nowhere u p),
          [],by rw [last]; rfl,by simp,by simp⟩
      · contradiction
    · contradiction

theorem initial_good {kRegisterAtExit : Bool} {s : State τ} (start : (system τ kRegisterAtExit).initial s) : Good s := by
  obtain ⟨instance_,thread,managers,-⟩ := start
  exact ⟨by simp [thread],by simp [thread],[],managers,by simp,by simp⟩

theorem reachable_good {kRegisterAtExit : Bool} {s : State τ} (reached : (system τ kRegisterAtExit).Reachable s) :
    Good s :=
  reached.invariant Good (fun _ start => initial_good start) fun _ _ _ good taken => step_good good taken

/-- `OnExit` only ever runs with a pointer in `instance_`. -/
theorem deleted_valid {kRegisterAtExit : Bool} {s : State τ} (reached : (system τ kRegisterAtExit).Reachable s) :
    ∀ v ∈ s.deleted, 1 < v := by
  induction reached with
  | initial start =>
    obtain ⟨-,-,-,-,-,deleted,-⟩ := id start
    simp [deleted]
  | @step s s' a before taken valid =>
    have good := reachable_good before
    cases a with
    | callback =>
      simp only [system,step] at taken
      split at taken
      · rename_i c stack below managers
        split at taken
        · obtain ⟨whole,one,-,busy⟩ := good.managed
          have set : 1 < s.instance_ := by
            apply (busy _).1
            rintro rfl
            rw [managers] at one
            exact absurd one (by simp)
          rw [← Option.some.inj taken]
          intro v member
          rcases List.mem_append.mp member with old | new
          · exact valid v old
          · exact (List.mem_singleton.mp new) ▸ set
        · contradiction
      · contradiction
    | new t newval =>
      simp only [system,step] at taken
      split at taken
      · split at taken
        · contradiction
        · rw [← Option.some.inj taken]
          exact valid
      · contradiction
    | compareAndSwap t =>
      simp only [system,step] at taken
      split at taken
      · split at taken <;> rw [← Option.some.inj taken] <;> exact valid
      · contradiction
    | _ =>
      simp only [system,step] at taken
      split at taken
      · rw [← Option.some.inj taken]
        exact valid
      · contradiction

section Refinement
variable {kRegisterAtExit : Bool} {s s' : State τ} {t : τ}

theorem word_pointer {v : Nat} (valid : v ≠ 1) : word v = .of (pointer v) := by
  unfold word
  split
  · rfl
  · contradiction
  · rename_i zero one
    unfold pointer
    split
    · contradiction
    · rfl

theorem word_set {v : Nat} (set : 1 < v) : word v = .ready v := by
  unfold word
  split
  · contradiction
  · omega
  · rfl

theorem pointer_set {v : Nat} (set : v ≠ 0) : pointer v = some v := by
  unfold pointer
  split
  · contradiction
  · rfl

omit [Fintype τ] in
theorem move_once {p : Point} : (s.move t p).once = {s.once with place := update s.once.place t (place (some p))} := by
  have places (u : τ) : place (update s.thread t (some p) u) =
      update (fun u => place (s.thread u)) t (place (some p)) u := by
    by_cases same : u = t
    · rw [same,update_self,update_self]
    · rw [update_of_ne same,update_of_ne same]
  simp only [State.once,State.move,places]

/-- Each step is one of the library's protocol; the registration is not seen. -/
theorem step_once {a : Action τ} (good : Good s) (ok : step kRegisterAtExit s a = some s') :
    s'.once = s.once ∨ ∃ b, Once.step s.once b = some s'.once := by
  cases a with
  | get t =>
    simp only [step] at ok
    split at ok
    · rename_i thread
      rw [← Option.some.inj ok,move_once]
      refine .inr ⟨.look t,?_⟩
      have at_t : s.once.place t = .idle := by simp only [State.once,thread,place]
      have found : place (some (if s.instance_ ≠ 0 ∧ s.instance_ ≠ kBeingCreatedMarker then .leaving s.instance_
          else .compareAndSwap)) = s.once.word.found := by
        split
        · rename_i set
          have high : 1 < s.instance_ := by
            have nonzero := set.1
            have unmarked : s.instance_ ≠ 1 := set.2
            omega
          rw [State.once,word_set high,place,pointer_set set.1]
          rfl
        · rename_i unset
          have low : s.instance_ = 0 ∨ s.instance_ = 1 := by
            rw [kBeingCreatedMarker] at unset
            omega
          obtain zero | one := low
          · simp only [State.once,zero]
            rfl
          · simp only [State.once,one]
            rfl
      simp only [Once.step,at_t,found]
    · contradiction
  | compareAndSwap t =>
    simp only [step] at ok
    split at ok
    · rename_i thread
      have at_t : s.once.place t = .looked := by simp only [State.once,thread,place]
      refine .inr ⟨.claim t,?_⟩
      split at ok
      · rename_i zero
        rw [← Option.some.inj ok]
        have after : State.once {s.move t .new with instance_ := kBeingCreatedMarker} =
            {(s.move t .new).once with word := .busy} := rfl
        have empty : s.once.word = .empty := by simp only [State.once,zero,word]
        rw [after,move_once]
        simp only [Once.step,at_t,empty]
        rfl
      · rename_i set
        rw [← Option.some.inj ok,move_once]
        have full : s.once.word ≠ .empty := by
          simp only [State.once,word]
          split
          · contradiction
          · simp
          · simp
        simp only [Once.step,at_t]
        rfl
    · contradiction
  | new t newval =>
    simp only [step] at ok
    split at ok
    · rename_i thread
      have at_t : s.once.place t = .making := by simp only [State.once,thread,place]
      split at ok
      · contradiction
      · rename_i valid
        rw [← Option.some.inj ok]
        refine .inr ⟨.make t (pointer newval),?_⟩
        have after : State.once {s.move t (.store newval) with
            made := if newval = 0 then s.made else s.made ++ [newval]
            failed := s.failed || newval == 0} =
            {(s.move t (.store newval)).once with
              made := if newval = 0 then s.made else s.made ++ [newval]
              failed := s.failed || newval == 0} := rfl
        rw [after,move_once]
        simp only [Once.step,at_t]
        by_cases zero : newval = 0
        · simp [zero,pointer,place,State.once]
        · simp [zero,pointer_set zero,place,State.once]
    · contradiction
  | store t =>
    simp only [step] at ok
    split at ok
    · rename_i newval thread
      have at_t : s.once.place t = .made (pointer newval) := by simp only [State.once,thread,place]
      have valid : newval ≠ 1 := (good.fits t _ thread).2
      rw [← Option.some.inj ok]
      refine .inr ⟨.publish t,?_⟩
      have after : State.once {s.move t (.register newval) with instance_ := newval} =
          {(s.move t (.register newval)).once with word := word newval} := rfl
      rw [after,move_once]
      simp only [Once.step,at_t,word_pointer valid,place]
    · contradiction
  | register t =>
    simp only [step] at ok
    split at ok
    · rename_i newval thread
      have at_t : s.once.place t = .leaving (pointer newval) := by simp only [State.once,thread,place]
      refine .inl ?_
      have after : s'.once = (s.move t (.leaving newval)).once := by rw [← Option.some.inj ok]; rfl
      rw [after,move_once,place,← at_t,update_eq_self]
    · contradiction
  | spin t =>
    simp only [step] at ok
    split at ok
    · rename_i thread
      have at_t : s.once.place t = .waiting := by simp only [State.once,thread,place]
      rw [← Option.some.inj ok,move_once]
      refine .inr ⟨.again t,?_⟩
      have seen : place (some (if s.instance_ ≠ kBeingCreatedMarker then .leaving s.instance_ else .spinning)) =
          s.once.word.seen := by
        split
        · rename_i unmarked
          have valid : s.instance_ ≠ 1 := unmarked
          rw [State.once,word_pointer valid,place]
          cases pointer s.instance_ <;> rfl
        · rename_i marked
          have busy : s.instance_ = 1 := not_not.mp marked
          simp only [State.once,busy]
          rfl
      simp only [Once.step,at_t,seen]
    · contradiction
  | finish t =>
    simp only [step] at ok
    split at ok
    · rename_i value thread
      have at_t : s.once.place t = .leaving (pointer value) := by simp only [State.once,thread,place]
      refine .inr ⟨.leave t,?_⟩
      rw [← Option.some.inj ok]
      have places : (fun u => place (update s.thread t none u)) = update s.once.place t .idle := by
        funext u
        by_cases same : u = t
        · rw [same,update_self,update_self]
          rfl
        · rw [update_of_ne same,update_of_ne same]
          rfl
      simp only [Once.step,at_t]
      simp only [State.once,List.map_append,List.map_cons,List.map_nil,places]
    · contradiction
  | callback =>
    simp only [step] at ok
    split at ok
    · rename_i c stack below managers
      split at ok
      · rename_i idle
        obtain ⟨whole,one,-,busy⟩ := good.managed
        have set : 1 < s.instance_ := by
          apply (busy _).1
          rintro rfl
          rw [managers] at one
          exact absurd one (by simp)
        rw [← Option.some.inj ok]
        refine .inr ⟨.reset,?_⟩
        have ready : s.once.word = .ready s.instance_ := word_set set
        have at_rest (u : τ) : (s.once.place u).isIdle = true := by simp only [State.once,idle u]; rfl
        simp only [Once.step,ready,at_rest,implies_true,if_true]
        rfl
      · contradiction
    · contradiction

theorem reachable_once (reached : (system τ kRegisterAtExit).Reachable s) : (Once.system τ Nat).Reachable s.once := by
  have both : ∃ x, (Once.system τ Nat).Reachable x ∧ x = s.once ∧ Good s := by
    refine reached.simulated (fun s x => x = s.once ∧ Good s) ?_ ?_
    · intro s start
      refine ⟨s.once,?_,rfl,initial_good start⟩
      obtain ⟨instance_,thread,-,made,results,-,failed⟩ := start
      refine ⟨?_,?_,made,?_,failed⟩
      · simp only [State.once,instance_,word]
      · simp only [State.once,thread,place,implies_true]
      · simp only [State.once,results,List.map_nil]
    · rintro s x a s' ⟨rfl,good⟩ - taken
      obtain same | ⟨b,moved⟩ := step_once good taken
      · exact .inl ⟨same.symm,step_good good taken⟩
      · exact .inr ⟨b,s'.once,moved,rfl,step_good good taken⟩
  obtain ⟨x,there,rfl,-⟩ := both
  exact there

/-- Between two runs of `OnExit` at most one object is made, every `get()` that returns
an object returns that one, and `get()` returns NULL only if `Traits::New` has.
`OnExit` never meets NULL or the marker. -/
theorem get_once (reached : (system τ kRegisterAtExit).Reachable s) : s.made.length ≤ 1 ∧
    (∀ t v, (t,v) ∈ s.results → v ≠ 0 → s.made = [v] ∧ s.instance_ = v) ∧
    (s.failed = false → ∀ t v, (t,v) ∈ s.results → v ≠ 0) ∧ ∀ v ∈ s.deleted, 1 < v := by
  have once := reachable_once reached
  obtain ⟨made,results⟩ := Once.made_once once
  have seen {t : τ} {v : Nat} (member : (t,v) ∈ s.results) : (t,pointer v) ∈ s.once.results :=
    List.mem_map_of_mem (f := fun r : τ × Nat => (r.1,pointer r.2)) member
  refine ⟨made,fun t v member nonzero => ?_,fun sure t v member zero => ?_,deleted_valid reached⟩
  · have value := seen member
    rw [pointer_set nonzero] at value
    obtain ⟨ready,one⟩ := results t v value
    refine ⟨one,?_⟩
    have there : word s.instance_ = .ready v := ready
    unfold word at there
    split at there
    · contradiction
    · contradiction
    · exact Once.Word.ready.inj there
  · have value := seen member
    rw [zero] at value
    exact (Once.reachable_sure once sure).results t value

end Refinement

/-- The first `New` fails, one thread takes the NULL, and the next call succeeds. -/
def revived : List (Action (Fin 2)) :=
  [.get 0,.get 1,.compareAndSwap 0,.compareAndSwap 1,.new 0 0,.store 0,.spin 1,.finish 1,.register 0,.finish 0,
    .get 1,.compareAndSwap 1,.new 1 64,.store 1,.get 0,.finish 0,.register 1,.finish 1]

theorem get_once_revived : ∃ s : State (Fin 2), s.results = [(1,0),(0,0),(0,64),(1,64)] ∧ s.made = [64] := by
  obtain ⟨s,reached,results⟩ : ∃ s, (system (Fin 2) true).Reachable s ∧
      s.results = [(1,0),(0,0),(0,64),(1,64)] := by
    refine System.exists_reachable (⟨0,fun _ => none,[[]],[],[],[],false⟩ : State (Fin 2)) ?_ revived ?_
    · exact ⟨rfl,fun _ => rfl,rfl,rfl,rfl,rfl,rfl⟩
    · decide
  exact ⟨s,results,((get_once reached).2.1 0 64 (by rw [results]; decide) (by decide)).1⟩

end WebSearch.Singleton
