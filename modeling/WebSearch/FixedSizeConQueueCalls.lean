import WebSearch.ConcurrentQueue

/-! `base/concurrent_queue.h`: a `FixedSizeConQueue` that one thread calls. `TryPop`,
`Empty` and `Size` are those of `ConcurrentQueue` and work on the `queue_` of that
class; `Push` and `Pop` work on the `queue_` of their own. -/
namespace WebSearch.FixedSizeConQueue
open ConcurrentQueue

/-- The two members called `queue_`. -/
structure Object (D : Type) where
  inherited : List D
  own : List D

variable {D : Type}

def Object.fresh : Object D := ⟨[],[]⟩

/-- One call; `none` when it waits, since no other thread can wake it. -/
def Object.call (maxSize : Nat) (object : Object D) : ConcurrentQueue.Call D → Option (Result D × Object D)
  | .push data =>
    if object.own.length = maxSize then none else some (.void,{object with own := object.own ++ [data]})
  | .pop => match object.own with
    | [] => none
    | front :: rest => some (.popped front,{object with own := rest})
  | .tryPop => match object.inherited with
    | [] => some (.missed,object)
    | front :: rest => some (.popped front,{object with inherited := rest})
  | .empty => some (.empty object.inherited.isEmpty,object)
  | .size => some (.size object.inherited.length,object)

/-- The results of the calls in order. -/
def Object.results (maxSize : Nat) : Object D → List (ConcurrentQueue.Call D) → Option (List (Result D))
  | _, [] => some []
  | object, call :: calls => do
    let (result,object) ← object.call maxSize call
    return result :: (← results maxSize object calls)

/-! The queue that the class is for: its state is the items pushed and not yet removed. -/

def fifo (held : List D) : ConcurrentQueue.Call D → Result D × List D
  | .push data => (.void,held ++ [data])
  | .pop | .tryPop => match held with
    | [] => (.missed,[])
    | front :: rest => (.popped front,rest)
  | .empty => (.empty held.isEmpty,held)
  | .size => (.size held.length,held)

def fifoResults : List D → List (ConcurrentQueue.Call D) → List (Result D)
  | _, [] => []
  | held, call :: calls => (fifo held call).1 :: fifoResults (fifo held call).2 calls

/-- `Push` only with room left, `Pop` only with an item held. -/
def Admissible (maxSize : Nat) : List D → List (ConcurrentQueue.Call D) → Prop
  | _, [] => True
  | held, call :: calls => (match call with
      | .push _ => held.length < maxSize
      | .pop => held ≠ []
      | _ => True) ∧ Admissible maxSize (fifo held call).2 calls

/-- The inherited calls are made with no item held. -/
def InheritedWhenEmpty : List D → List (ConcurrentQueue.Call D) → Prop
  | _, [] => True
  | held, call :: calls => (match call with
      | .tryPop | .empty | .size => held = []
      | _ => True) ∧ InheritedWhenEmpty (fifo held call).2 calls

/-- What a call does while the own queue holds what was pushed. -/
theorem call_agrees {maxSize : Nat} {held : List D} {call : ConcurrentQueue.Call D} {calls : List (ConcurrentQueue.Call D)}
    (admissible : Admissible maxSize held (call :: calls)) :
    (∃ result, Object.call maxSize ⟨[],held⟩ call = some (result,⟨[],(fifo held call).2⟩) ∧
      (InheritedWhenEmpty held (call :: calls) ↔ result = (fifo held call).1 ∧ InheritedWhenEmpty (fifo held call).2 calls)) ∨
    (¬InheritedWhenEmpty held (call :: calls) ∧
      ∃ result, Object.call maxSize ⟨[],held⟩ call = some (result,⟨[],held⟩) ∧ result ≠ (fifo held call).1) := by
  obtain ⟨allowed,_⟩ := admissible
  cases call with
  | push data =>
    have room : held.length ≠ maxSize := Nat.ne_of_lt allowed
    exact .inl ⟨.void,if_neg room,by simp [InheritedWhenEmpty,fifo]⟩
  | pop =>
    cases held with
    | nil => exact absurd rfl allowed
    | cons front rest => exact .inl ⟨.popped front,rfl,by simp [InheritedWhenEmpty,fifo]⟩
  | tryPop =>
    cases held with
    | nil => exact .inl ⟨.missed,rfl,by simp [InheritedWhenEmpty,fifo]⟩
    | cons front rest => exact .inr ⟨by simp [InheritedWhenEmpty],.missed,rfl,by simp [fifo]⟩
  | empty =>
    cases held with
    | nil => exact .inl ⟨.empty true,rfl,by simp [InheritedWhenEmpty,fifo]⟩
    | cons front rest => exact .inr ⟨by simp [InheritedWhenEmpty],.empty true,rfl,by simp [fifo]⟩
  | size =>
    cases held with
    | nil => exact .inl ⟨.size 0,rfl,by simp [InheritedWhenEmpty,fifo]⟩
    | cons front rest => exact .inr ⟨by simp [InheritedWhenEmpty],.size 0,rfl,by simp [fifo]⟩

theorem results_agree {maxSize : Nat} {held : List D} {calls : List (ConcurrentQueue.Call D)} (admissible : Admissible maxSize held calls) :
    Object.results maxSize ⟨[],held⟩ calls = some (fifoResults held calls) ↔ InheritedWhenEmpty held calls := by
  induction calls generalizing held with
  | nil => simp [Object.results,fifoResults,InheritedWhenEmpty]
  | cons call calls ih =>
    have later := ih admissible.2
    rcases call_agrees admissible with ⟨result,called,same⟩ | ⟨held_item,result,called,different⟩
    · rw [same,← later,Object.results,called]
      cases rest : Object.results maxSize ⟨[],(fifo held call).2⟩ calls <;> simp [rest,fifoResults]
    · rw [iff_false_right held_item,Object.results,called]
      cases rest : Object.results maxSize ⟨[],held⟩ calls <;> simp [rest,fifoResults,different]

/-- Every result is that of the bounded queue exactly when the inherited calls are
made with no item held. -/
theorem results_agree_iff {maxSize : Nat} {calls : List (ConcurrentQueue.Call D)} (admissible : Admissible maxSize [] calls) :
    Object.results maxSize .fresh calls = some (fifoResults [] calls) ↔ InheritedWhenEmpty [] calls :=
  results_agree admissible

theorem results_agree_pushPop :
    Object.results 1 .fresh [.size,.push 5,.pop,.tryPop,.empty] = some (fifoResults [] [.size,.push 5,.pop,.tryPop,.empty]) ↔
      InheritedWhenEmpty [] ([.size,.push 5,.pop,.tryPop,.empty] : List (ConcurrentQueue.Call Nat)) :=
  results_agree_iff (by simp [Admissible,fifo])

/-- After a `Push` the inherited calls still see the empty queue of the base class. -/
theorem pushed_not_seen : Object.results 1 .fresh [.push 5,.size,.empty,.tryPop] = some [.void,.size 0,.empty true,.missed] ∧
    ¬∀ maxSize, 1 ≤ maxSize → ∀ calls : List (ConcurrentQueue.Call Nat), Admissible maxSize [] calls →
      Object.results maxSize .fresh calls = some (fifoResults [] calls) := by
  have seen : Object.results 1 .fresh [.push 5,.size,.empty,.tryPop] = some [.void,.size 0,.empty true,.missed] := rfl
  refine ⟨seen,?_⟩
  intro agree
  have same := agree 1 le_rfl [.push 5,.size,.empty,.tryPop] (by simp [Admissible])
  rw [seen] at same
  exact absurd same (by decide)

end WebSearch.FixedSizeConQueue
