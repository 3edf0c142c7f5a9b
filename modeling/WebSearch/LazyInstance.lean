import WebSearch.AtExit
import WebSearch.Library.Once

/-! `base/lazy_instance.{h,cc}`: any number of threads in `Pointer()` of any number of
`LazyInstance`s, and the one `AtExitManager` that destroys them. An access to
`state_` or `instance_` is a step. -/
namespace WebSearch.LazyInstance
open Library Function

abbrev Address := Nat

inductive LazyState
  | empty
  | creating
  | created
  deriving DecidableEq

/-- `state_` and `instance_`. -/
structure Instance where
  state : LazyState
  pointer : Option Address
  deriving DecidableEq

/-- Where a thread is in `Pointer()`: before the compare-and-swap of `NeedsInstance`,
in its loop, before `Traits::New`, before the store of `CompleteInstance`, before its
`RegisterCallback`, or before `return instance_`. -/
inductive Point
  | needsInstance
  | spinning
  | new
  | complete
  | register
  | returning
  deriving DecidableEq

/-- `made` and `results` are what `Traits::New` and `Pointer()` have returned since the
last `OnExit` of the instance; `destroyed` are all calls of `Traits::Delete`. -/
structure State (τ ι : Type) where
  instances : ι → Instance
  thread : τ → Option (ι × Point)
  managers : AtExit.Managers ι
  made : ι → List Address
  results : ι → List (τ × Option Address)
  destroyed : List (ι × Option Address)

inductive Action (τ ι : Type)
  | pointer (t : τ) (i : ι)
  | compareAndSwap (t : τ)
  | new (t : τ) (p : Address)
  | complete (t : τ)
  | register (t : τ)
  | spin (t : τ)
  | finish (t : τ)
  | callback

variable {τ ι : Type} [Fintype τ] [DecidableEq τ] [DecidableEq ι]

def State.move (s : State τ ι) (t : τ) (i : ι) (p : Point) : State τ ι :=
  {s with thread := update s.thread t (some (i,p))}

/-- `OnExit`, the callback of an instance. -/
def onExit (i : ι) (s : State τ ι) : State τ ι := {s with
  instances := update s.instances i ⟨.empty,none⟩
  made := update s.made i []
  results := update s.results i []
  destroyed := s.destroyed ++ [(i,(s.instances i).pointer)]}

/-- `leaky` are the instances whose `Traits::Delete` is a null pointer. `callback` is
one round of the loop in `ProcessCallbacksNow`, which runs single threaded. -/
def step (leaky : ι → Bool) (s : State τ ι) : Action τ ι → Option (State τ ι)
  | .pointer t i => match s.thread t with
    | none => some (s.move t i (if (s.instances i).state ≠ .created then .needsInstance else .returning))
    | _ => none
  | .compareAndSwap t => match s.thread t with
    | some (i,.needsInstance) =>
      if (s.instances i).state = .empty then
        some {s.move t i .new with instances := update s.instances i {s.instances i with state := .creating}}
      else some (s.move t i .spinning)
    | _ => none
  | .new t p => match s.thread t with
    | some (i,.new) => some {s.move t i .complete with
        instances := update s.instances i {s.instances i with pointer := some p}
        made := update s.made i (s.made i ++ [p])}
    | _ => none
  | .complete t => match s.thread t with
    | some (i,.complete) =>
      some {s.move t i .register with instances := update s.instances i {s.instances i with state := .created}}
    | _ => none
  | .register t => match s.thread t with
    | some (i,.register) => some {s.move t i .returning with
        managers := if leaky i then s.managers else AtExit.registerCallback s.managers i}
    | _ => none
  | .spin t => match s.thread t with
    | some (i,.spinning) => some (s.move t i (if (s.instances i).state ≠ .created then .spinning else .returning))
    | _ => none
  | .finish t => match s.thread t with
    | some (i,.returning) => some {s with
        results := update s.results i (s.results i ++ [(t,(s.instances i).pointer)])
        thread := update s.thread t none}
    | _ => none
  | .callback => match s.managers with
    | (i :: stack) :: below =>
      if ∀ t, s.thread t = none then some (onExit i {s with managers := stack :: below}) else none
    | _ => none

/-- A program with its `AtExitManager` in place. -/
def system (τ ι : Type) [Fintype τ] [DecidableEq τ] [DecidableEq ι] (leaky : ι → Bool) :
    System (State τ ι) (Action τ ι) where
  initial s := (∀ i, s.instances i = ⟨.empty,none⟩) ∧ (∀ t, s.thread t = none) ∧ s.managers = [[]] ∧
    (∀ i, s.made i = []) ∧ (∀ i, s.results i = []) ∧ s.destroyed = []
  step := step leaky

/-- `AtExitManager::ProcessCallbacksNow`. -/
def processCallbacksNow (s : State τ ι) : State τ ι :=
  let processed := AtExit.processCallbacksNow onExit s.managers s
  {processed.2 with managers := processed.1}

/-! One instance at a time, this is the protocol of the library. -/

def Instance.word (x : Instance) : Once.Word Address :=
  match x.state with
  | .empty => .empty
  | .creating => .busy
  | .created => .of x.pointer

def place (x : Instance) : Point → Once.Place Address
  | .needsInstance => .looked
  | .spinning => .waiting
  | .new => .making
  | .complete => .made x.pointer
  | .register | .returning => .leaving x.pointer

def State.place (s : State τ ι) (i : ι) (t : τ) : Once.Place Address :=
  match s.thread t with
  | none => .idle
  | some (j,p) => if j = i then LazyInstance.place (s.instances i) p else .idle

def State.once (s : State τ ι) (i : ι) : Once.State τ Address where
  word := (s.instances i).word
  place := s.place i
  made := s.made i
  results := s.results i
  failed := false

def Point.building : Point → Bool
  | .new | .complete | .register => true
  | _ => false

/-- How far `state_` has to be for a thread to be where it is. -/
def Point.fits (x : Instance) : Point → Prop
  | .new => x.state = .creating
  | .complete => x.state = .creating ∧ x.pointer.isSome = true
  | .register | .returning => x.state = .created
  | _ => True

/-- The instance has its callback on the stack. -/
def State.Registered (leaky : ι → Bool) (s : State τ ι) (i : ι) : Prop :=
  (s.instances i).state = .created ∧ leaky i = false ∧ ∀ t, s.thread t ≠ some (i,.register)

structure Good (leaky : ι → Bool) (s : State τ ι) : Prop where
  fits : ∀ t i p, s.thread t = some (i,p) → p.fits (s.instances i)
  alone : ∀ t u i p q, s.thread t = some (i,p) → s.thread u = some (i,q) → p.building = true → q.building = true → t = u
  created : ∀ i, (s.instances i).state = .created → (s.instances i).pointer.isSome = true
  managed : ∃ stack, s.managers = [stack] ∧ stack.Nodup ∧ ∀ i, i ∈ stack ↔ s.Registered leaky i

section Steps
variable {leaky : ι → Bool} {s s' : State τ ι} {t : τ} {i : ι}

omit [Fintype τ] in
/-- A thread moves on in `Pointer()` of `i`, and the instance with it. -/
theorem Good.moved (good : Good leaky s) {p : Point} {x : Instance} (thread : s'.thread = update s.thread t (some (i,p)))
    (instances : s'.instances = update s.instances i x) (here : p.fits x)
    (others : ∀ u q, u ≠ t → s.thread u = some (i,q) → q.fits x ∧ (p.building = true → q.building = false))
    (created : x.state = .created → x.pointer.isSome = true)
    (managed : ∃ stack, s'.managers = [stack] ∧ stack.Nodup ∧ ∀ i, i ∈ stack ↔ s'.Registered leaky i) :
    Good leaky s' := by
  have at_t : s'.thread t = some (i,p) := by rw [thread,update_self]
  have other {u : τ} (different : u ≠ t) : s'.thread u = s.thread u := by rw [thread,update_of_ne different]
  refine ⟨fun u j q at_u => ?_,fun u v j q r at_u at_v first second => ?_,fun j => ?_,managed⟩
  · by_cases same : u = t
    · rw [same,at_t] at at_u
      cases at_u
      rw [instances,update_self]
      exact here
    · rw [other same] at at_u
      by_cases same_instance : j = i
      · rw [same_instance] at at_u ⊢
        rw [instances,update_self]
        exact (others u q same at_u).1
      · rw [instances,update_of_ne same_instance]
        exact good.fits u j q at_u
  · by_cases u_is : u = t <;> by_cases v_is : v = t
    · exact u_is.trans v_is.symm
    · rw [u_is,at_t] at at_u
      rw [other v_is] at at_v
      cases at_u
      have idle := (others v r v_is at_v).2 first
      rw [idle] at second
      contradiction
    · rw [v_is,at_t] at at_v
      rw [other u_is] at at_u
      cases at_v
      have idle := (others u q u_is at_u).2 second
      rw [idle] at first
      contradiction
    · rw [other u_is] at at_u
      rw [other v_is] at at_v
      exact good.alone u v j q r at_u at_v first second
  · by_cases same : j = i
    · rw [same,instances,update_self]
      exact created
    · rw [instances,update_of_ne same]
      exact good.created j

omit [Fintype τ] [DecidableEq τ] [DecidableEq ι] in
/-- The stack stays right as long as the same instances have their callback on it. -/
theorem Good.still_managed (good : Good leaky s) (managers : s'.managers = s.managers)
    (registered : ∀ i, s'.Registered leaky i ↔ s.Registered leaky i) :
    ∃ stack, s'.managers = [stack] ∧ stack.Nodup ∧ ∀ i, i ∈ stack ↔ s'.Registered leaky i := by
  obtain ⟨stack,one,nodup,member⟩ := good.managed
  exact ⟨stack,managers.trans one,nodup,fun i => (member i).trans (registered i).symm⟩

omit [Fintype τ] in
/-- A move that is not to or from the registration, on an instance that does not become created. -/
theorem registered_moved {p q : Point} {x : Instance} (before : s.thread t = some (i,q) ∨ s.thread t = none)
    (thread : s'.thread = update s.thread t (some (i,p))) (instances : s'.instances = update s.instances i x)
    (state : x.state = .created ↔ (s.instances i).state = .created) (not_to : p ≠ .register) (not_from : q ≠ .register)
    (j : ι) : s'.Registered leaky j ↔ s.Registered leaky j := by
  have same_state : (s'.instances j).state = .created ↔ (s.instances j).state = .created := by
    rw [instances]
    by_cases same : j = i
    · rw [same,update_self]
      exact state
    · rw [update_of_ne same]
  have same_thread : (∀ u, s'.thread u ≠ some (j,.register)) ↔ ∀ u, s.thread u ≠ some (j,.register) := by
    apply forall_congr'
    intro u
    rw [thread]
    by_cases same : u = t
    · rw [same,update_self]
      obtain at_q | idle := before
      · simp [at_q,not_to,not_from]
      · simp [idle,not_to]
    · rw [update_of_ne same]
  unfold State.Registered
  rw [same_state,same_thread]

omit [Fintype τ] in
/-- A move that leaves the instance alone and has nothing to do with making it. -/
theorem Good.walk (good : Good leaky s) {p q : Point} (before : s.thread t = some (i,q) ∨ s.thread t = none)
    (fits : p.fits (s.instances i)) (idle : p.building = false) (not_from : q ≠ .register) : Good leaky (s.move t i p) := by
  have not_to : p ≠ .register := by
    rintro rfl
    contradiction
  have registered (j : ι) : (s.move t i p).Registered leaky j ↔ s.Registered leaky j := by
    apply registered_moved before
    · rfl
    · exact (update_eq_self i s.instances).symm
    · exact Iff.rfl
    · exact not_to
    · exact not_from
  apply good.moved
  · rfl
  · exact (update_eq_self i s.instances).symm
  · exact fits
  · intro u r different at_u
    refine ⟨good.fits u i r at_u,?_⟩
    rw [idle]
    simp
  · exact good.created i
  · apply good.still_managed
    · rfl
    · exact registered

omit [Fintype τ] [DecidableEq τ] [DecidableEq ι] in
/-- While an instance is being made, the other threads in it wait. -/
theorem Good.others_wait (good : Good leaky s) (state : (s.instances i).state ≠ .created)
    (maker : (s.instances i).state = .creating → ∃ p, s.thread t = some (i,p) ∧ p.building = true) {u : τ} {q : Point}
    (different : u ≠ t) (at_u : s.thread u = some (i,q)) : q = .needsInstance ∨ q = .spinning := by
  have fits := good.fits u i q at_u
  cases q with
  | needsInstance => exact .inl rfl
  | spinning => exact .inr rfl
  | new =>
    obtain ⟨p,at_t,building⟩ := maker fits
    exact absurd (good.alone u t i _ _ at_u at_t rfl building) different
  | complete =>
    obtain ⟨p,at_t,building⟩ := maker fits.1
    exact absurd (good.alone u t i _ _ at_u at_t rfl building) different
  | register | returning => exact absurd fits state

omit [Fintype τ] in
theorem Good.compareAndSwap (good : Good leaky s) (thread : s.thread t = some (i,.needsInstance))
    (empty : (s.instances i).state = .empty) :
    Good leaky {s.move t i .new with instances := update s.instances i {s.instances i with state := .creating}} := by
  apply good.moved
  · rfl
  · rfl
  · rfl
  · intro u q different at_u
    obtain rfl | rfl := good.others_wait (by simp [empty]) (by simp [empty]) different at_u <;>
      exact ⟨trivial,fun _ => rfl⟩
  · simp
  · apply good.still_managed
    · rfl
    · exact registered_moved (.inl thread) rfl rfl (by simp [empty]) (by simp) (by simp)

omit [Fintype τ] in
theorem Good.new (good : Good leaky s) (thread : s.thread t = some (i,.new)) (p : Address) :
    Good leaky {s.move t i .complete with
      instances := update s.instances i {s.instances i with pointer := some p}
      made := update s.made i (s.made i ++ [p])} := by
  have creating : (s.instances i).state = .creating := good.fits t i _ thread
  apply good.moved
  · rfl
  · rfl
  · exact ⟨creating,rfl⟩
  · intro u q different at_u
    obtain rfl | rfl := good.others_wait (by simp [creating]) (fun _ => ⟨_,thread,rfl⟩) different at_u <;>
      exact ⟨trivial,fun _ => rfl⟩
  · simp
  · apply good.still_managed
    · rfl
    · exact registered_moved (.inl thread) rfl rfl Iff.rfl (by simp) (by simp)

omit [Fintype τ] in
theorem Good.complete (good : Good leaky s) (thread : s.thread t = some (i,.complete)) :
    Good leaky {s.move t i .register with instances := update s.instances i {s.instances i with state := .created}} := by
  obtain ⟨creating,made⟩ : (s.instances i).state = .creating ∧ (s.instances i).pointer.isSome = true :=
    good.fits t i _ thread
  apply good.moved
  · rfl
  · rfl
  · rfl
  · intro u q different at_u
    obtain rfl | rfl := good.others_wait (by simp [creating]) (fun _ => ⟨_,thread,rfl⟩) different at_u <;>
      exact ⟨trivial,fun _ => rfl⟩
  · exact fun _ => made
  · apply good.still_managed
    · rfl
    intro j
    unfold State.Registered State.move
    by_cases same : j = i
    · rw [same]
      refine ⟨fun now => absurd (update_self _ _ _) (now.2.2 t),fun before => ?_⟩
      rw [creating] at before
      exact absurd before.1 (by simp)
    · dsimp only
      rw [update_of_ne same]
      apply and_congr_right
      intro _
      apply and_congr_right
      intro _
      apply forall_congr'
      intro u
      by_cases at_t : u = t
      · rw [at_t,update_self,thread]
        simp [Ne.symm same]
      · rw [update_of_ne at_t]

omit [Fintype τ] in
theorem Good.register (good : Good leaky s) (thread : s.thread t = some (i,.register)) :
    Good leaky {s.move t i .returning with
      managers := if leaky i then s.managers else AtExit.registerCallback s.managers i} := by
  have created : (s.instances i).state = .created := good.fits t i _ thread
  apply good.moved
  · rfl
  · exact (update_eq_self i s.instances).symm
  · exact created
  · intro u q different at_u
    refine ⟨good.fits u i q at_u,?_⟩
    intro building
    contradiction
  · exact good.created i
  · obtain ⟨stack,one,nodup,member⟩ := good.managed
    have absent : i ∉ stack := fun inside => ((member i).mp inside).2.2 t thread
    have others {j : ι} (different : j ≠ i) :
        State.Registered leaky {s.move t i .returning with
          managers := if leaky i then s.managers else AtExit.registerCallback s.managers i} j ↔ s.Registered leaky j := by
      unfold State.Registered State.move
      apply and_congr_right
      intro _
      apply and_congr_right
      intro _
      apply forall_congr'
      intro u
      by_cases at_t : u = t
      · simp only [at_t,update_self,thread]
        simp [Ne.symm different]
      · simp only [update_of_ne at_t]
    have nobody (u : τ) : update s.thread t (some (i,.returning)) u ≠ some (i,.register) := by
      by_cases at_t : u = t
      · rw [at_t,update_self]
        simp
      · rw [update_of_ne at_t]
        exact fun at_u => at_t (good.alone u t i _ _ at_u thread rfl rfl)
    cases kind : leaky i with
    | true =>
      refine ⟨stack,by simp [one],nodup,fun j => ?_⟩
      by_cases same : j = i
      · rw [same]
        exact ⟨fun inside => absurd inside absent,fun now => absurd now.2.1 (by simp [kind])⟩
      · have other := others same
        simp only [kind,if_true] at other
        exact (member j).trans other.symm
    | false =>
      refine ⟨i :: stack,by simp [one,AtExit.registerCallback],List.nodup_cons.mpr ⟨absent,nodup⟩,fun j => ?_⟩
      by_cases same : j = i
      · rw [same]
        exact ⟨fun _ => ⟨created,kind,nobody⟩,fun _ => List.mem_cons_self⟩
      · have other := others same
        simp only [kind,Bool.false_eq_true,if_false] at other
        rw [List.mem_cons,member j]
        simp only [same,false_or]
        exact other.symm

omit [Fintype τ] in
theorem Good.finish (good : Good leaky s) (thread : s.thread t = some (i,.returning)) :
    Good leaky {s with
      results := update s.results i (s.results i ++ [(t,(s.instances i).pointer)])
      thread := update s.thread t none} := by
  have old {u : τ} {a : ι × Point} (now : update s.thread t none u = some a) : s.thread u = some a := by
    by_cases at_t : u = t
    · rw [at_t,update_self] at now
      contradiction
    · rwa [update_of_ne at_t] at now
  refine ⟨fun u j p now => good.fits u j p (old now),?_,good.created,?_⟩
  · exact fun u v j p q first second => good.alone u v j p q (old first) (old second)
  · apply good.still_managed
    · rfl
    intro j
    unfold State.Registered
    apply and_congr_right
    intro _
    apply and_congr_right
    intro _
    apply forall_congr'
    intro u
    dsimp only
    by_cases at_t : u = t
    · rw [at_t,update_self,thread]
      simp
    · rw [update_of_ne at_t]

omit [Fintype τ] [DecidableEq τ] in
/-- `OnExit` of the instance on top of the stack. -/
theorem Good.callback (good : Good leaky s) {stack : List ι} {below : AtExit.Managers ι}
    (managers : s.managers = (i :: stack) :: below) (idle : ∀ t, s.thread t = none) :
    Good leaky (onExit i {s with managers := stack :: below}) := by
  refine ⟨?_,?_,?_,?_⟩
  · intro u j p at_u
    have nowhere : s.thread u = some (j,p) := at_u
    rw [idle u] at nowhere
    contradiction
  · intro u v j p q at_u
    have nowhere : s.thread u = some (j,p) := at_u
    rw [idle u] at nowhere
    contradiction
  · intro j
    simp only [onExit]
    by_cases same : j = i
    · rw [same,update_self]
      simp
    · rw [update_of_ne same]
      exact good.created j
  · obtain ⟨whole,one,nodup,member⟩ := good.managed
    obtain ⟨rfl,rfl⟩ : i :: stack = whole ∧ below = [] := by simpa [managers] using one
    refine ⟨stack,rfl,(List.nodup_cons.mp nodup).2,fun j => ?_⟩
    have absent : i ∉ stack := (List.nodup_cons.mp nodup).1
    simp only [State.Registered,onExit]
    by_cases same : j = i
    · rw [same,update_self]
      exact ⟨fun inside => absurd inside absent,fun now => absurd now.1 (by simp)⟩
    · rw [update_of_ne same]
      have here := member j
      rw [List.mem_cons] at here
      simp only [same,false_or] at here
      exact here

end Steps

theorem initial_good {leaky : ι → Bool} {s : State τ ι} (start : (system τ ι leaky).initial s) : Good leaky s := by
  obtain ⟨instances,thread,managers,-⟩ := start
  refine ⟨?_,?_,?_,[],managers,List.nodup_nil,?_⟩
  · simp [thread]
  · simp [thread]
  · simp [instances]
  · simp [State.Registered,instances]

theorem step_good {leaky : ι → Bool} {s s' : State τ ι} {a : Action τ ι} (good : Good leaky s)
    (ok : step leaky s a = some s') : Good leaky s' := by
  cases a with
  | pointer t i =>
    simp only [step] at ok
    split at ok
    · rename_i idle
      rw [← Option.some.inj ok]
      split
      · exact good.walk (q := .returning) (.inr idle) trivial rfl (by simp)
      · rename_i created
        exact good.walk (q := .returning) (.inr idle) (not_not.mp created) rfl (by simp)
    · contradiction
  | compareAndSwap t =>
    simp only [step] at ok
    split at ok
    · rename_i i thread
      split at ok
      · rename_i empty
        rw [← Option.some.inj ok]
        exact good.compareAndSwap thread empty
      · rw [← Option.some.inj ok]
        exact good.walk (.inl thread) trivial rfl (by simp)
    · contradiction
  | new t p =>
    simp only [step] at ok
    split at ok
    · rename_i i thread
      rw [← Option.some.inj ok]
      exact good.new thread p
    · contradiction
  | complete t =>
    simp only [step] at ok
    split at ok
    · rename_i i thread
      rw [← Option.some.inj ok]
      exact good.complete thread
    · contradiction
  | register t =>
    simp only [step] at ok
    split at ok
    · rename_i i thread
      rw [← Option.some.inj ok]
      exact good.register thread
    · contradiction
  | spin t =>
    simp only [step] at ok
    split at ok
    · rename_i i thread
      rw [← Option.some.inj ok]
      split
      · exact good.walk (.inl thread) trivial rfl (by simp)
      · rename_i created
        exact good.walk (.inl thread) (not_not.mp created) rfl (by simp)
    · contradiction
  | finish t =>
    simp only [step] at ok
    split at ok
    · rename_i i thread
      rw [← Option.some.inj ok]
      exact good.finish thread
    · contradiction
  | callback =>
    simp only [step] at ok
    split at ok
    · rename_i i stack below managers
      split at ok
      · rename_i idle
        rw [← Option.some.inj ok]
        exact good.callback managers idle
      · contradiction
    · contradiction

theorem reachable_good {leaky : ι → Bool} {s : State τ ι} (reached : (system τ ι leaky).Reachable s) : Good leaky s :=
  reached.invariant (Good leaky) (fun _ start => initial_good start) fun _ _ _ good taken => step_good good taken

section Refinement
variable {leaky : ι → Bool} {s s' : State τ ι} {t : τ} {i j : ι}

omit [Fintype τ] [DecidableEq τ] in
theorem place_at {p : Point} (thread : s.thread t = some (i,p)) : s.place i t = place (s.instances i) p := by
  simp only [State.place,thread,if_true]

omit [Fintype τ] [DecidableEq τ] in
theorem place_away (away : ∀ p, s.thread t ≠ some (i,p)) : s.place i t = .idle := by
  unfold State.place
  split
  · rfl
  · rename_i k p thread
    rw [if_neg]
    rintro rfl
    exact away p thread

omit [Fintype τ] in
/-- A step of a thread in another instance is not seen. -/
theorem once_elsewhere (before : ∀ p, s.thread t ≠ some (i,p)) (after : ∀ p, s'.thread t ≠ some (i,p))
    (threads : ∀ u, u ≠ t → s'.thread u = s.thread u) (instances : s'.instances i = s.instances i)
    (made : s'.made i = s.made i) (results : s'.results i = s.results i) : s'.once i = s.once i := by
  have places : s'.place i = s.place i := by
    funext u
    by_cases at_t : u = t
    · rw [at_t,place_away before,place_away after]
    · simp only [State.place,threads u at_t,instances]
  simp only [State.once,places,instances,made,results]

omit [Fintype τ] in
/-- A step of a thread in `i`; the others there are seen where they were. -/
theorem once_here {w : Once.Word Address} {p : Once.Place Address} {m : List Address} {r : List (τ × Option Address)}
    (here : s'.place i t = p) (word : (s'.instances i).word = w) (made : s'.made i = m) (results : s'.results i = r)
    (threads : ∀ u, u ≠ t → s'.thread u = s.thread u)
    (same : ∀ u q, u ≠ t → s.thread u = some (i,q) → place (s'.instances i) q = place (s.instances i) q) :
    s'.once i = ⟨w,update (s.place i) t p,m,r,false⟩ := by
  have places : s'.place i = update (s.place i) t p := by
    funext u
    by_cases at_t : u = t
    · rw [at_t,update_self,here]
    · rw [update_of_ne at_t]
      simp only [State.place,threads u at_t]
      split
      · rfl
      · rename_i k q thread
        split
        · rename_i k_is
          exact same u q at_t (k_is ▸ thread)
        · rfl
  simp only [State.once,places,word,made,results]

omit [Fintype τ] in
theorem move_elsewhere (different : j ≠ i) {p : Point} (before : ∀ q, s.thread t ≠ some (i,q)) :
    (s.move t j p).once i = s.once i := by
  apply once_elsewhere before
  · simp [State.move,different]
  · exact fun u at_t => update_of_ne at_t _ _
  · rfl
  · rfl
  · rfl

omit [Fintype τ] in
theorem move_here {p : Point} : (s.move t i p).once i = ⟨(s.instances i).word,
    update (s.place i) t (place (s.instances i) p),s.made i,s.results i,false⟩ := by
  apply once_here
  · exact place_at (update_self _ _ _)
  · rfl
  · rfl
  · rfl
  · exact fun u at_t => update_of_ne at_t _ _
  · exact fun _ _ _ _ => rfl

omit [Fintype τ] [DecidableEq τ] [DecidableEq ι] in
theorem Good.word_found (good : Good leaky s) (i : ι) :
    place (s.instances i) (if (s.instances i).state ≠ .created then .needsInstance else .returning) =
      (s.instances i).word.found := by
  cases state : (s.instances i).state with
  | created =>
    obtain ⟨v,made⟩ := Option.isSome_iff_exists.mp (good.created i state)
    simp [place,Instance.word,made,Once.Word.of,Once.Word.found,state]
  | _ => simp [place,Instance.word,Once.Word.found,state]

/-- Each step is one of the library's protocol for the instance it is about, and
nothing for the others. -/
theorem step_once {a : Action τ ι} (good : Good leaky s) (ok : step leaky s a = some s') (i : ι) :
    s'.once i = s.once i ∨ ∃ b, Once.step (s.once i) b = some (s'.once i) := by
  have away {t : τ} {j : ι} {q : Point} (thread : s.thread t = some (j,q)) (different : j ≠ i) (p : Point) :
      s.thread t ≠ some (i,p) := by
    rw [thread]
    intro same
    exact different (congrArg Prod.fst (Option.some.inj same))
  cases a with
  | pointer t j =>
    simp only [step] at ok
    split at ok
    · rename_i idle
      rw [← Option.some.inj ok]
      by_cases same : j = i
      · rw [same]
        have at_t : s.place i t = .idle := by simp only [State.place,idle]
        refine .inr ⟨.look t,?_⟩
        rw [move_here,good.word_found]
        simp only [Once.step,State.once,at_t]
      · exact .inl (move_elsewhere same (by simp [idle]))
    · contradiction
  | compareAndSwap t =>
    simp only [step] at ok
    split at ok
    · rename_i j thread
      by_cases same : j = i
      · rw [same] at thread ok
        refine .inr ⟨.claim t,?_⟩
        have at_t : s.place i t = .looked := place_at thread
        split at ok
        · rename_i empty
          have after : s'.once i = ⟨.busy,update (s.place i) t .making,s.made i,s.results i,false⟩ := by
            rw [← Option.some.inj ok]
            apply once_here
            · exact (place_at (update_self _ _ _)).trans rfl
            · dsimp only
              rw [update_self]
              rfl
            · rfl
            · rfl
            · exact fun u different => update_of_ne different _ _
            · intro u q _ _
              dsimp only
              rw [update_self]
              cases q <;> rfl
          rw [after]
          simp only [Once.step,State.once,at_t,Instance.word,empty]
        · rename_i taken
          rw [← Option.some.inj ok,move_here]
          have word : (s.instances i).word ≠ .empty := by
            cases state : (s.instances i).state with
            | empty => exact absurd state taken
            | creating => simp [Instance.word,state]
            | created =>
              obtain ⟨v,made⟩ := Option.isSome_iff_exists.mp (good.created i state)
              simp [Instance.word,state,made,Once.Word.of]
          simp only [Once.step,State.once,at_t]
          cases here : (s.instances i).word with
          | empty => exact absurd here word
          | _ => rfl
      · refine .inl ?_
        split at ok
        · rw [← Option.some.inj ok]
          apply once_elsewhere (away thread same)
          · simp [State.move,same]
          · exact fun u different => update_of_ne different _ _
          · exact update_of_ne (Ne.symm same) _ _
          · rfl
          · rfl
        · rw [← Option.some.inj ok]
          exact move_elsewhere same (away thread same)
    · contradiction
  | new t v =>
    simp only [step] at ok
    split at ok
    · rename_i j thread
      by_cases same : j = i
      · rw [same] at thread ok
        refine .inr ⟨.make t (some v),?_⟩
        have at_t : s.place i t = .making := place_at thread
        have creating : (s.instances i).state = .creating := good.fits t i _ thread
        have after : s'.once i =
            ⟨.busy,update (s.place i) t (.made (some v)),s.made i ++ [v],s.results i,false⟩ := by
          rw [← Option.some.inj ok]
          apply once_here
          · refine (place_at (update_self _ _ _)).trans ?_
            dsimp only
            rw [update_self]
            rfl
          · dsimp only
            rw [update_self]
            simp only [Instance.word,creating]
          · exact update_self _ _ _
          · rfl
          · exact fun u different => update_of_ne different _ _
          · intro u q different at_u
            obtain rfl | rfl := good.others_wait (by simp [creating]) (fun _ => ⟨_,thread,rfl⟩) different at_u <;> rfl
        rw [after]
        simp only [Once.step,State.once,at_t,Instance.word,creating]
        rfl
      · refine .inl ?_
        rw [← Option.some.inj ok]
        apply once_elsewhere (away thread same)
        · simp [State.move,same]
        · exact fun u different => update_of_ne different _ _
        · exact update_of_ne (Ne.symm same) _ _
        · exact update_of_ne (Ne.symm same) _ _
        · rfl
    · contradiction
  | complete t =>
    simp only [step] at ok
    split at ok
    · rename_i j thread
      by_cases same : j = i
      · rw [same] at thread ok
        refine .inr ⟨.publish t,?_⟩
        have at_t : s.place i t = .made (s.instances i).pointer := place_at thread
        have after : s'.once i = ⟨.of (s.instances i).pointer,update (s.place i) t (.leaving (s.instances i).pointer),
            s.made i,s.results i,false⟩ := by
          rw [← Option.some.inj ok]
          apply once_here
          · refine (place_at (update_self _ _ _)).trans ?_
            dsimp only
            rw [update_self]
            rfl
          · dsimp only
            rw [update_self]
            rfl
          · rfl
          · rfl
          · exact fun u different => update_of_ne different _ _
          · intro u q _ _
            dsimp only
            rw [update_self]
            cases q <;> rfl
        rw [after]
        simp only [Once.step,State.once,at_t]
      · refine .inl ?_
        rw [← Option.some.inj ok]
        apply once_elsewhere (away thread same)
        · simp [State.move,same]
        · exact fun u different => update_of_ne different _ _
        · exact update_of_ne (Ne.symm same) _ _
        · rfl
        · rfl
    · contradiction
  | register t =>
    simp only [step] at ok
    split at ok
    · rename_i j thread
      refine .inl ?_
      have moved : s'.once i = (s.move t j .returning).once i := by rw [← Option.some.inj ok]; rfl
      rw [moved]
      by_cases same : j = i
      · rw [same] at thread ⊢
        have at_t : s.place i t = place (s.instances i) .register := place_at thread
        rw [move_here,show place (s.instances i) .returning = s.place i t from at_t.symm,update_eq_self]
        rfl
      · exact move_elsewhere same (away thread same)
    · contradiction
  | spin t =>
    simp only [step] at ok
    split at ok
    · rename_i j thread
      rw [← Option.some.inj ok]
      by_cases same : j = i
      · rw [same] at thread ⊢
        have at_t : s.place i t = .waiting := place_at thread
        rw [move_here]
        split
        · refine .inl ?_
          rw [show place (s.instances i) .spinning = s.place i t from at_t.symm,update_eq_self]
          rfl
        · rename_i created
          refine .inr ⟨.again t,?_⟩
          have state : (s.instances i).state = .created := not_not.mp created
          obtain ⟨v,made⟩ := Option.isSome_iff_exists.mp (good.created i state)
          simp only [Once.step,State.once,at_t,Instance.word,state,made,Once.Word.of,Once.Word.seen,place]
      · exact .inl (move_elsewhere same (away thread same))
    · contradiction
  | finish t =>
    simp only [step] at ok
    split at ok
    · rename_i j thread
      by_cases same : j = i
      · rw [same] at thread ok
        refine .inr ⟨.leave t,?_⟩
        have at_t : s.place i t = .leaving (s.instances i).pointer := place_at thread
        have after : s'.once i = ⟨(s.instances i).word,update (s.place i) t .idle,s.made i,
            s.results i ++ [(t,(s.instances i).pointer)],false⟩ := by
          rw [← Option.some.inj ok]
          apply once_here
          · exact place_away (by simp)
          · rfl
          · rfl
          · exact update_self _ _ _
          · exact fun u different => update_of_ne different _ _
          · exact fun _ _ _ _ => rfl
        rw [after]
        simp only [Once.step,State.once,at_t]
      · refine .inl ?_
        rw [← Option.some.inj ok]
        apply once_elsewhere (away thread same)
        · simp
        · exact fun u different => update_of_ne different _ _
        · rfl
        · rfl
        · exact update_of_ne (Ne.symm same) _ _
    · contradiction
  | callback =>
    simp only [step] at ok
    split at ok
    · rename_i j stack below managers
      split at ok
      · rename_i idle
        have nowhere (u : τ) : s.place i u = .idle := by simp only [State.place,idle u]
        by_cases same : j = i
        · rw [same] at managers ok
          refine .inr ⟨.reset,?_⟩
          obtain ⟨whole,one,-,member⟩ := good.managed
          have created : (s.instances i).state = .created := by
            have inside : i ∈ whole := by
              have heads : i :: stack = whole := by simpa [managers] using congrArg List.head? one
              rw [← heads]
              exact List.mem_cons_self
            exact ((member i).mp inside).1
          obtain ⟨v,made⟩ := Option.isSome_iff_exists.mp (good.created i created)
          have after : s'.once i = ⟨.empty,s.place i,[],[],false⟩ := by
            rw [← Option.some.inj ok]
            simp only [onExit,State.once,update_self]
            refine congrArg (fun p => Once.State.mk Once.Word.empty p [] [] false) ?_
            funext u
            exact (show State.place _ i u = .idle by simp only [State.place,idle u]).trans (nowhere u).symm
          rw [after]
          simp only [Once.step,State.once,Instance.word,created,made,Once.Word.of,nowhere,Once.Place.isIdle,
            implies_true,if_true]
        · refine .inl ?_
          rw [← Option.some.inj ok]
          have places : State.place (onExit j {s with managers := stack :: below}) i = s.place i := by
            funext u
            exact (show State.place _ i u = .idle by simp only [State.place,onExit,idle u]).trans (nowhere u).symm
          simp only [State.once,places]
          simp only [onExit,update_of_ne (Ne.symm same)]
      · contradiction
    · contradiction

theorem reachable_once (reached : (system τ ι leaky).Reachable s) (i : ι) :
    (Once.system τ Address).Reachable (s.once i) := by
  have both : ∃ x, (Once.system τ Address).Reachable x ∧ x = s.once i ∧ Good leaky s := by
    refine reached.simulated (fun s x => x = s.once i ∧ Good leaky s) ?_ ?_
    · intro s start
      refine ⟨s.once i,?_,rfl,initial_good start⟩
      obtain ⟨instances,thread,-,made,results,-⟩ := start
      refine ⟨?_,?_,made i,results i,rfl⟩
      · simp only [State.once,instances,Instance.word]
      · simp only [State.once,State.place,thread,implies_true]
    · rintro s x a s' ⟨rfl,good⟩ - taken
      obtain same | ⟨b,moved⟩ := step_once good taken i
      · exact .inl ⟨same.symm,step_good good taken⟩
      · exact .inr ⟨b,s'.once i,moved,rfl,step_good good taken⟩
  obtain ⟨x,there,rfl,-⟩ := both
  exact there

/-- Between two calls of `OnExit` an instance is constructed at most once, and every
`Pointer()` returns that object, after its constructor has finished. Whoever spins
waits for a thread that is constructing it, or has been let go. -/
theorem pointer_once (reached : (system τ ι leaky).Reachable s) (i : ι) : (s.made i).length ≤ 1 ∧
    (∀ t r, (t,r) ∈ s.results i → ∃ p, r = some p ∧ s.made i = [p] ∧ s.instances i = ⟨.created,some p⟩) ∧
    ∀ t, s.thread t = some (i,.spinning) → (s.instances i).state = .created ∨
      ∃ u, s.thread u = some (i,.new) ∨ s.thread u = some (i,.complete) := by
  have good := reachable_good reached
  have once := reachable_once reached i
  have sure := Once.reachable_sure once rfl
  obtain ⟨made,results⟩ := Once.made_once once
  refine ⟨made,fun t r member => ?_,fun t spinning => ?_⟩
  · cases r with
    | none => exact absurd member (sure.results t)
    | some p =>
      obtain ⟨word,one⟩ := results t p member
      refine ⟨p,rfl,one,?_⟩
      simp only [State.once,Instance.word] at word
      cases state : (s.instances i).state with
      | created =>
        rw [state] at word
        obtain ⟨v,pointer⟩ := Option.isSome_iff_exists.mp (good.created i state)
        simp only [pointer,Once.Word.of,Once.Word.ready.injEq] at word
        rw [← word,← pointer,← state]
      | _ =>
        rw [state] at word
        contradiction
  · have waits : (s.once i).place t = .waiting := place_at spinning
    cases state : (s.instances i).state with
    | created => exact .inl rfl
    | empty => exact absurd (by simp [State.once,Instance.word,state]) (sure.waiting t waits)
    | creating =>
      obtain ⟨u,busy⟩ := (Once.reachable_good once).maker.mp (by simp [State.once,Instance.word,state])
      refine .inr ⟨u,?_⟩
      simp only [State.once,State.place] at busy
      split at busy
      · contradiction
      · rename_i k q thread
        split at busy
        · rename_i here
          rw [here] at thread
          cases q <;> simp_all [place,Once.Place.busy]
        · contradiction

end Refinement

/-- Two threads race for instance 0, and another one makes instance 1. -/
def race : List (Action (Fin 3) (Fin 2)) :=
  [.pointer 0 0,.pointer 1 0,.compareAndSwap 1,.compareAndSwap 0,.new 1 40,.pointer 2 1,.spin 0,.complete 1,
    .spin 0,.finish 0,.register 1,.compareAndSwap 2,.new 2 80,.finish 1,.complete 2,.register 2,.finish 2]

theorem race_reached : ∃ s, (system (Fin 3) (Fin 2) (fun _ => false)).Reachable s ∧
    s.results 0 = [(0,some 40),(1,some 40)] ∧ ∀ t, s.thread t = none := by
  refine System.exists_reachable (⟨fun _ => ⟨.empty,none⟩,fun _ => none,[[]],fun _ => [],fun _ => [],[]⟩ :
    State (Fin 3) (Fin 2)) ?_ race ?_
  · exact ⟨fun _ => rfl,fun _ => rfl,rfl,fun _ => rfl,fun _ => rfl,rfl⟩
  · decide

theorem pointer_once_race : ∃ s : State (Fin 3) (Fin 2), s.results 0 = [(0,some 40),(1,some 40)] ∧ s.made 0 = [40] := by
  obtain ⟨s,reached,results,-⟩ := race_reached
  obtain ⟨p,value,made,-⟩ := (pointer_once reached 0).2.1 0 (some 40) (by rw [results]; exact List.mem_cons_self)
  cases value
  exact ⟨s,results,made⟩

section Exit
variable {leaky : ι → Bool} {s : State τ ι}

omit [Fintype τ] [DecidableEq τ] in
theorem callAll_managers (stack : List ι) (s : State τ ι) (m n : AtExit.Managers ι) :
    {AtExit.callAll onExit stack {s with managers := m} with managers := n} =
      {AtExit.callAll onExit stack s with managers := n} := by
  induction stack generalizing s with
  | nil => rfl
  | cons i stack ih => exact ih (onExit i s)

omit [Fintype τ] [DecidableEq τ] in
/-- What the callbacks of different instances do, one after the other. -/
theorem callAll_onExit {stack : List ι} (nodup : stack.Nodup) (s : State τ ι) :
    (AtExit.callAll onExit stack s).destroyed =
      s.destroyed ++ stack.map (fun i => (i,(s.instances i).pointer)) ∧
    ∀ i, (AtExit.callAll onExit stack s).instances i = if i ∈ stack then ⟨.empty,none⟩ else s.instances i := by
  induction stack generalizing s with
  | nil => simp [AtExit.callAll]
  | cons i stack ih =>
    obtain ⟨absent,rest⟩ := List.nodup_cons.mp nodup
    obtain ⟨destroyed,instances⟩ := ih rest (onExit i s)
    have others (j : ι) (inside : j ∈ stack) : ((onExit i s).instances j) = s.instances j := by
      have different : j ≠ i := by
        rintro rfl
        exact absent inside
      simp only [onExit,update_of_ne different]
    refine ⟨?_,fun j => ?_⟩
    · rw [AtExit.callAll,destroyed,List.map_cons,List.append_cons]
      congr 1
      apply List.map_congr_left
      intro j inside
      rw [others j inside]
    · rw [AtExit.callAll,instances j]
      by_cases inside : j ∈ stack
      · simp [inside]
      · by_cases same : j = i
        · simp [same,absent,onExit]
        · simp [inside,same,onExit]

/-- The rounds of the loop are steps of the system. -/
theorem callAll_reached {stack : List ι} (managers : s.managers = [stack]) (idle : ∀ t, s.thread t = none)
    (reached : (system τ ι leaky).Reachable s) :
    (system τ ι leaky).Reachable {AtExit.callAll onExit stack s with managers := [[]]} := by
  induction stack generalizing s with
  | nil =>
    rw [show {AtExit.callAll onExit [] s with managers := [[]]} = s by rw [AtExit.callAll,← managers]]
    exact reached
  | cons i stack ih =>
    have taken : step leaky s .callback = some (onExit i {s with managers := [stack]}) := by
      simp only [step,managers,idle,implies_true,if_true]
    have later := ih (s := onExit i {s with managers := [stack]}) rfl idle (reached.step .callback taken)
    rw [show onExit i {s with managers := [stack]} = {onExit i s with managers := [stack]} from rfl,
      callAll_managers] at later
    exact later

/-- At exit, with no thread in `Pointer()`, every instance that exists and is not leaky
has one callback, and `ProcessCallbacksNow` destroys each of them once, the one that
registered last first. The leaky ones stay. -/
theorem exit_destroys (reached : (system τ ι leaky).Reachable s) (idle : ∀ t, s.thread t = none) :
    ∃ stack, s.managers = [stack] ∧ stack.Nodup ∧
      (∀ i, i ∈ stack ↔ (s.instances i).state = .created ∧ leaky i = false) ∧
      (system τ ι leaky).Reachable (processCallbacksNow s) ∧ (processCallbacksNow s).managers = [[]] ∧
      (processCallbacksNow s).destroyed = s.destroyed ++ stack.map (fun i => (i,(s.instances i).pointer)) ∧
      ∀ i, (processCallbacksNow s).instances i =
        if (s.instances i).state = .created ∧ leaky i = false then ⟨.empty,none⟩ else s.instances i := by
  obtain ⟨stack,managers,nodup,member⟩ := (reachable_good reached).managed
  have member_iff (i : ι) : i ∈ stack ↔ (s.instances i).state = .created ∧ leaky i = false := by
    rw [member i,State.Registered]
    simp [idle]
  have processed : processCallbacksNow s = {AtExit.callAll onExit stack s with managers := [[]]} := by
    simp only [processCallbacksNow,managers,AtExit.processCallbacksNow]
  obtain ⟨destroyed,instances⟩ := callAll_onExit nodup s
  refine ⟨stack,managers,nodup,member_iff,?_,?_,?_,fun i => ?_⟩
  · rw [processed]
    exact callAll_reached managers idle reached
  · rw [processed]
  · rw [processed]
    exact destroyed
  · rw [processed]
    simp only [instances i,member_iff i]

end Exit

theorem exit_destroys_race : ∃ s : State (Fin 3) (Fin 2), ((processCallbacksNow s).instances 0).state = .empty ∧
    s.results 0 = [(0,some 40),(1,some 40)] := by
  obtain ⟨s,reached,results,idle⟩ := race_reached
  obtain ⟨stack,-,-,-,-,-,-,instances⟩ := exit_destroys reached idle
  obtain ⟨p,-,-,made⟩ := (pointer_once reached 0).2.1 0 (some 40) (by rw [results]; exact List.mem_cons_self)
  refine ⟨s,?_,results⟩
  rw [instances 0,made]
  rfl

end WebSearch.LazyInstance
