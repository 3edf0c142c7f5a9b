import WebSearch.Library.Transition
import WebSearch.Library.Tally
import Mathlib.Algebra.Order.BigOperators.Group.Finset
import Mathlib.Data.Fintype.Card
import Mathlib.Logic.Equiv.Basic

/-! `base/shared_ptr.h`: `shared_ptr` and `weak_ptr` over one heap. Every atomic
operation of a constructor or destructor is a step of its own, and the steps of
different handles interleave freely. -/
namespace WebSearch.SharedPtr
open Library Function

abbrev Address := Nat

/-- Both counts are an `int` that wraps around. -/
structure SharedPtrControlBlock where
  refcount : BitVec 32
  weakCount : BitVec 32

def SharedPtrControlBlock.new : SharedPtrControlBlock := ⟨1,1⟩

/-- The data members of a `shared_ptr` or of a `weak_ptr`. -/
structure Fields where
  ptr : Option Address
  controlBlock : Option Address
  deriving DecidableEq

def Fields.null : Fields := ⟨none,none⟩

/-- The memory of one `shared_ptr`: no object yet or no more, an object in
`Initialize` before and after the increment, a constructed one, or one in its
destructor before `delete ptr_`, before the second decrement and before
`delete control_block_`. `copied` names the block whose count went up. -/
inductive Cell (H : Type)
  | raw
  | copying (src : H)
  | copied (src : H) (block : Address)
  | built (f : Fields)
  | deleting (f : Fields)
  | dropping (f : Fields)
  | freeing (f : Fields)
  deriving DecidableEq

/-- The memory of one `weak_ptr`; `building` is `CopyFrom` before the increment,
while its argument, a `shared_ptr` or a `weak_ptr`, is still bound. -/
inductive WeakCell (H W : Type)
  | raw
  | building (src : H ⊕ W) (f : Fields)
  | built (f : Fields)
  | freeing (f : Fields)
  deriving DecidableEq

/-- `target` says which object a block was made for; no step reads it. `fault` is
set by an access to freed memory and by a second `delete`. -/
structure State (H W : Type) where
  shared : H → Cell H
  weak : W → WeakCell H W
  blocks : Address → Option SharedPtrControlBlock
  objects : Address → Bool
  target : Address → Address
  fault : Bool

inductive Action (H W : Type)
  | construct (h : H) (ptr : Option Address) (block : Address)
  | copy (src dst : H)
  | swap (h k : H)
  | destroy (h : H)
  | advance (h : H)
  | constructWeak (w : W)
  | observe (src : H ⊕ W) (w : W)
  | destroyWeak (w : W)
  | advanceWeak (w : W)

variable {H W : Type} [Fintype H] [DecidableEq H] [Fintype W] [DecidableEq W]

def Cell.reads (x : H ⊕ W) : Cell H → Bool
  | .copying src | .copied src _ => decide (x = .inl src)
  | _ => false

def WeakCell.reads (x : H ⊕ W) : WeakCell H W → Bool
  | .building src _ => decide (x = src)
  | _ => false

/-- No constructor in progress has `x` as its argument. Like a variable of a
built-in type, a handle is written only then. -/
def State.Unread (s : State H W) (x : H ⊕ W) : Prop :=
  (∀ h, (s.shared h).reads x = false) ∧ ∀ w, (s.weak w).reads x = false

instance (s : State H W) (x : H ⊕ W) : Decidable (s.Unread x) :=
  inferInstanceAs (Decidable (_ ∧ _))

def State.broken (s : State H W) : State H W := {s with fault := true}

/-- An access through `control_block_`. -/
def State.through (s : State H W) (block : Option Address)
    (next : Address → SharedPtrControlBlock → State H W) : State H W :=
  match block with
  | none => s.broken
  | some b => match s.blocks b with
    | none => s.broken
    | some c => next b c

def State.deleteObject (s : State H W) : Option Address → State H W
  | none => s
  | some p => if s.objects p then {s with objects := update s.objects p false} else s.broken

/-- The next step of a constructor or destructor in progress. -/
def advance (s : State H W) (h : H) : Option (State H W) :=
  match s.shared h with
  | .raw | .built _ => none
  | .copying src => match s.shared src with
    | .built f => some (s.through f.controlBlock fun b c => {s with
        blocks := update s.blocks b (some {c with refcount := c.refcount + 1})
        shared := update s.shared h (.copied src b)})
    | _ => some s.broken
  | .copied src _ => match s.shared src with
    | .built f => some {s with shared := update s.shared h (.built f)}
    | _ => some s.broken
  | .deleting f => some {s.deleteObject f.ptr with shared := update s.shared h (.dropping f)}
  | .dropping f => some (s.through f.controlBlock fun b c => {s with
      blocks := update s.blocks b (some {c with weakCount := c.weakCount - 1})
      shared := update s.shared h (if c.weakCount - 1 = 0 then .freeing f else .raw)})
  | .freeing f => some (s.through f.controlBlock fun b _ => {s with
      blocks := update s.blocks b none
      shared := update s.shared h .raw})

def advanceWeak (s : State H W) (w : W) : Option (State H W) :=
  match s.weak w with
  | .raw | .built _ => none
  | .building _ ⟨ptr,none⟩ => some {s with weak := update s.weak w (.built ⟨ptr,none⟩)}
  | .building _ ⟨ptr,some block⟩ => some (s.through (some block) fun b c => {s with
      blocks := update s.blocks b (some {c with weakCount := c.weakCount + 1})
      weak := update s.weak w (.built ⟨ptr,some block⟩)})
  | .freeing f => some (s.through f.controlBlock fun b _ => {s with
      blocks := update s.blocks b none
      weak := update s.weak w .raw})

/-- The members that the argument of a `weak_ptr` constructor hands to `CopyFrom`. -/
def State.fields (s : State H W) : H ⊕ W → Option Fields
  | .inl h => match s.shared h with
    | .built f => some f
    | _ => none
  | .inr w => match s.weak w with
    | .built f => some f
    | _ => none

/-- `construct` takes a null pointer or a `new T`, at any address that is free. -/
def step (s : State H W) : Action H W → Option (State H W)
  | .construct h ptr block => match s.shared h, ptr with
    | .raw, none => some {s with shared := update s.shared h (.built .null)}
    | .raw, some p => if s.objects p = false ∧ (s.blocks block).isNone then some {s with
        objects := update s.objects p true
        blocks := update s.blocks block (some .new)
        target := update s.target block p
        shared := update s.shared h (.built ⟨some p,some block⟩)} else none
    | _, _ => none
  | .copy src dst => match s.shared dst, s.shared src with
    | .raw, .built f => some {s with
        shared := update s.shared dst (if f.controlBlock.isSome then .copying src else .built .null)}
    | _, _ => none
  | .swap h k => match s.shared h, s.shared k with
    | .built f, .built g => if s.Unread (.inl h) ∧ s.Unread (.inl k) then
        some {s with shared := update (update s.shared h (.built g)) k (.built f)} else none
    | _, _ => none
  | .destroy h => match s.shared h with
    | .built f => if s.Unread (.inl h) then
        if f.ptr.isSome then some (s.through f.controlBlock fun b c => {s with
          blocks := update s.blocks b (some {c with refcount := c.refcount - 1})
          shared := update s.shared h (if c.refcount - 1 = 0 then .deleting f else .raw)})
        else some {s with shared := update s.shared h .raw}
      else none
    | _ => none
  | .advance h => advance s h
  | .constructWeak w => match s.weak w with
    | .raw => some {s with weak := update s.weak w (.built .null)}
    | _ => none
  | .observe src w => match s.weak w, s.fields src with
    | .raw, some f => some {s with weak := update s.weak w (.building src f)}
    | _, _ => none
  | .destroyWeak w => match s.weak w with
    | .built f => if s.Unread (.inr w) then
        if f.controlBlock.isSome then some (s.through f.controlBlock fun b c => {s with
          blocks := update s.blocks b (some {c with weakCount := c.weakCount - 1})
          weak := update s.weak w (if c.weakCount - 1 = 0 then .freeing f else .raw)})
        else some {s with weak := update s.weak w .raw}
      else none
    | _ => none
  | .advanceWeak w => advanceWeak s w

def system (H W : Type) [Fintype H] [DecidableEq H] [Fintype W] [DecidableEq W] : System (State H W) (Action H W) where
  initial s := (∀ h, s.shared h = .raw) ∧ (∀ w, s.weak w = .raw) ∧ (∀ b, s.blocks b = none) ∧
    (∀ p, s.objects p = false) ∧ s.fault = false
  step := step

/-- A constructor or destructor of `h` that runs on its own; it has at most three
atomic operations left. -/
def finish : Nat → State H W → H → State H W
  | 0,s,_ => s
  | n + 1,s,h => match advance s h with
    | none => s
    | some next => finish n next h

def settle (s : State H W) (h : H) : State H W := finish 3 s h

/-- `*dst = *src`; `me` is the local that takes the previous state along. -/
def assign (s : State H W) (dst src me : H) : Option (State H W) :=
  match s.shared dst, s.shared src with
  | .built f, .built g =>
    if f.ptr ≠ g.ptr then do
      let copied ← step s (.copy src me)
      let swapped ← step (settle copied me) (.swap dst me)
      let released ← step swapped (.destroy me)
      return settle released me
    else some s
  | _, _ => none

/-- `h.reset(p)` with the local `tmp`. -/
def reset (s : State H W) (h : H) (p : Option Address) (block : Address) (tmp : H) : Option (State H W) :=
  match s.shared h with
  | .built f =>
    if p ≠ f.ptr then do
      let made ← step s (.construct tmp p block)
      let swapped ← step made (.swap tmp h)
      let released ← step swapped (.destroy tmp)
      return settle released tmp
    else some s
  | _ => none

/-! What the handles amount to for one block: how many own its object, how many
observe it, and how far its last owner and its last handle have got. -/

@[ext] structure Census where
  refs : Nat := 0
  weaks : Nat := 0
  deletes : Nat := 0
  drops : Nat := 0
  frees : Nat := 0

instance : Zero Census := ⟨{}⟩
instance : Add Census :=
  ⟨fun m n => ⟨m.refs + n.refs,m.weaks + n.weaks,m.deletes + n.deletes,m.drops + n.drops,m.frees + n.frees⟩⟩

@[simp] theorem Census.zero_def : (0 : Census) = ⟨0,0,0,0,0⟩ := rfl
@[simp] theorem Census.add_def (m n : Census) : m + n =
    ⟨m.refs + n.refs,m.weaks + n.weaks,m.deletes + n.deletes,m.drops + n.drops,m.frees + n.frees⟩ := rfl

instance : AddCommMonoid Census where
  add_assoc := by intro m n k; simp [Nat.add_assoc]
  zero_add := by intro m; simp
  add_zero := by intro m; simp
  add_comm := by intro m n; simp [Nat.add_comm]
  nsmul := nsmulRec

def Fields.at (f : Fields) (b : Address) (n : Census) : Census := if f.controlBlock = some b then n else 0

def Cell.worth (b : Address) : Cell H → Census
  | .raw | .copying _ => 0
  | .copied _ block => if block = b then {refs := 1} else 0
  | .built f => f.at b {refs := 1}
  | .deleting f => f.at b {deletes := 1}
  | .dropping f => f.at b {drops := 1}
  | .freeing f => f.at b {frees := 1}

def WeakCell.worth (b : Address) : WeakCell H W → Census
  | .raw | .building _ _ => 0
  | .built f => f.at b {weaks := 1}
  | .freeing f => f.at b {frees := 1}

def census (shared : H → Cell H) (weak : W → WeakCell H W) (b : Address) : Census :=
  tally (fun _ => Cell.worth b) shared + tally (fun _ => WeakCell.worth b) weak

omit [DecidableEq W] in
theorem census_shared (shared : H → Cell H) (weak : W → WeakCell H W) (h : H) (b : Address) : ∃ others,
    census shared weak b = (shared h).worth b + others ∧
      ∀ c, census (update shared h c) weak b = c.worth b + others := by
  obtain ⟨others,whole,after⟩ := tally_update (fun _ => Cell.worth b) shared h
  refine ⟨others + tally (fun _ => WeakCell.worth b) weak,?_,fun c => ?_⟩
  · rw [census,whole,add_assoc]
  · rw [census,after c,add_assoc]

omit [DecidableEq H] in
theorem census_weak (shared : H → Cell H) (weak : W → WeakCell H W) (w : W) (b : Address) : ∃ others,
    census shared weak b = (weak w).worth b + others ∧
      ∀ c, census shared (update weak w c) b = c.worth b + others := by
  obtain ⟨others,whole,after⟩ := tally_update (fun _ => WeakCell.worth b) weak w
  refine ⟨tally (fun _ => Cell.worth b) shared + others,?_,fun c => ?_⟩
  · rw [census,whole,add_left_comm]
  · rw [census,after c,add_left_comm]

/-- The part of `weak_count_` that the owners hold together: 1 while there is an
owner and until the destructor of the last one gives it back. -/
def Census.share (n : Census) : Nat := min 1 n.refs + n.deletes + n.drops

structure BlockOk (c : SharedPtrControlBlock) (n : Census) : Prop where
  refcount : c.refcount = BitVec.ofNat 32 n.refs
  weakCount : c.weakCount = BitVec.ofNat 32 (n.weaks + n.share)
  single : n.share ≤ 1
  last : n.frees = if n.weaks + n.share = 0 then 1 else 0

def Balanced : Option SharedPtrControlBlock → Census → Prop
  | none, n => n = 0
  | some c, n => BlockOk c n

def Fits (s : State H W) (f : Fields) : Prop := f.ptr = f.controlBlock.map s.target

def CellOk (s : State H W) : Cell H → Prop
  | .raw => True
  | .copying src => ∃ f, s.shared src = .built f ∧ f.controlBlock.isSome = true
  | .copied src b => ∃ f, s.shared src = .built f ∧ f.controlBlock = some b
  | .built f => Fits s f
  | .deleting f | .dropping f | .freeing f => Fits s f ∧ f.controlBlock.isSome = true

def WeakOk (s : State H W) : WeakCell H W → Prop
  | .raw => True
  | .building src f => s.fields src = some f
  | .built f => Fits s f
  | .freeing f => Fits s f ∧ f.controlBlock.isSome = true

/-- Somebody still owns the object of the block, or is about to delete it. -/
def State.Held (s : State H W) (b : Address) : Prop :=
  0 < (census s.shared s.weak b).refs + (census s.shared s.weak b).deletes

structure Good (s : State H W) : Prop where
  sound : s.fault = false
  balanced : ∀ b, Balanced (s.blocks b) (census s.shared s.weak b)
  objects : ∀ p, s.objects p = true ↔ ∃ b, s.target b = p ∧ s.Held b
  distinct : ∀ b b', s.Held b → s.Held b' → s.target b = s.target b' → b = b'
  cells : ∀ h, CellOk s (s.shared h)
  weakCells : ∀ w, WeakOk s (s.weak w)

theorem initial_good {s : State H W} (start : (system H W).initial s) : Good s := by
  obtain ⟨shared,weak,blocks,objects,sound⟩ := start
  have empty (b : Address) : census s.shared s.weak b = 0 := by
    unfold census
    rw [tally_eq_zero (fun h => by rw [shared h]; rfl),tally_eq_zero (fun w => by rw [weak w]; rfl)]
    rfl
  refine ⟨sound,?_,?_,?_,?_,?_⟩
  · intro b
    rw [blocks b,empty b]
    rfl
  · intro p
    simp [objects p,State.Held,empty]
  · intro b b' held
    simp [State.Held,empty] at held
  · intro h
    rw [shared h]
    trivial
  · intro w
    rw [weak w]
    trivial

section Counters

theorem count_succ (n : Nat) : BitVec.ofNat 32 n + 1 = BitVec.ofNat 32 (n + 1) := by
  simp [BitVec.ofNat_add]

theorem count_pred (n : Nat) : BitVec.ofNat 32 (n + 1) - 1 = BitVec.ofNat 32 n := by
  rw [← count_succ,BitVec.add_sub_cancel]

theorem count_zero {n : Nat} (small : n < 2^32) : BitVec.ofNat 32 n = 0 ↔ n = 0 := by
  rw [← BitVec.toNat_inj,BitVec.toNat_ofNat,Nat.mod_eq_of_lt small]
  rfl

end Counters

section Blocks
variable {c : SharedPtrControlBlock} {n : Census}

theorem BlockOk.addRef (ok : BlockOk c n) (owned : 0 < n.refs) :
    BlockOk {c with refcount := c.refcount + 1} ({refs := 1} + n) := by
  obtain ⟨refcount,weakCount,single,last⟩ := ok
  have share : ({refs := 1} + n : Census).share = n.share := by
    simp only [Census.share,Census.add_def]
    omega
  refine ⟨?_,?_,?_,?_⟩
  · dsimp only
    rw [refcount,count_succ,Census.add_def,Nat.add_comm]
  · rw [share]
    simpa using weakCount
  · exact share ▸ single
  · rw [share]
    simpa using last

theorem BlockOk.dropRef (ok : BlockOk c ({refs := 1} + n)) (small : n.refs < 2^32) :
    BlockOk {c with refcount := c.refcount - 1}
      (if c.refcount - 1 = 0 then {deletes := 1} + n else n) := by
  obtain ⟨refcount,weakCount,single,last⟩ := ok
  have left : c.refcount - 1 = BitVec.ofNat 32 n.refs := by
    rw [refcount,Census.add_def,Nat.add_comm,count_pred]
  have zero : c.refcount - 1 = 0 ↔ n.refs = 0 := by rw [left,count_zero small]
  have share : (if c.refcount - 1 = 0 then {deletes := 1} + n else n : Census).share =
      ({refs := 1} + n : Census).share := by
    simp only [zero]
    split <;> simp only [Census.share,Census.add_def] at single ⊢ <;> omega
  have weaks : (if c.refcount - 1 = 0 then {deletes := 1} + n else n : Census).weaks = n.weaks := by
    split <;> simp
  have frees : (if c.refcount - 1 = 0 then {deletes := 1} + n else n : Census).frees = n.frees := by
    split <;> simp
  refine ⟨?_,?_,?_,?_⟩
  · dsimp only
    rw [left]
    split <;> simp
  · rw [share,weaks]
    simpa using weakCount
  · exact share ▸ single
  · rw [share,weaks,frees]
    simpa using last

theorem BlockOk.deleted (ok : BlockOk c ({deletes := 1} + n)) : BlockOk c ({drops := 1} + n) := by
  obtain ⟨refcount,weakCount,single,last⟩ := ok
  have share : ({drops := 1} + n : Census).share = ({deletes := 1} + n : Census).share := by
    simp only [Census.share,Census.add_def]
    omega
  refine ⟨?_,?_,?_,?_⟩
  · simpa using refcount
  · rw [share]
    simpa using weakCount
  · exact share ▸ single
  · rw [share]
    simpa using last

theorem BlockOk.addWeak (ok : BlockOk c n) (seen : 0 < n.weaks + n.share) :
    BlockOk {c with weakCount := c.weakCount + 1} ({weaks := 1} + n) := by
  obtain ⟨refcount,weakCount,single,last⟩ := ok
  have share : ({weaks := 1} + n : Census).share = n.share := by simp [Census.share]
  refine ⟨?_,?_,?_,?_⟩
  · simpa using refcount
  · have order : n.weaks + n.share + 1 = 1 + n.weaks + n.share := by omega
    rw [share]
    dsimp only
    rw [weakCount,count_succ]
    exact congrArg (BitVec.ofNat 32) order
  · exact share ▸ single
  · rw [share,Census.add_def]
    dsimp only
    rw [Nat.zero_add,last,if_neg (by omega),if_neg (by omega)]

/-- Whoever takes `weak_count_` to 0 is the one to delete the block. -/
theorem BlockOk.dropWeak {m : Census} (ok : BlockOk c m) (refs : m.refs = n.refs) (frees : m.frees = n.frees)
    (one : m.weaks + m.share = n.weaks + n.share + 1) (single : n.share ≤ 1) (small : n.weaks + n.share < 2^32) :
    BlockOk {c with weakCount := c.weakCount - 1} (if c.weakCount - 1 = 0 then {frees := 1} + n else n) := by
  have left : c.weakCount - 1 = BitVec.ofNat 32 (n.weaks + n.share) := by
    rw [ok.weakCount,one,count_pred]
  have none_yet : n.frees = 0 := by
    rw [← frees,ok.last,if_neg (by omega)]
  have zero : c.weakCount - 1 = 0 ↔ n.weaks + n.share = 0 := by rw [left,count_zero small]
  simp only [zero]
  rw [left]
  split
  · rename_i nobody
    have share : ({frees := 1} + n : Census).share = n.share := by simp [Census.share]
    refine ⟨?_,?_,?_,?_⟩
    · simpa [← refs] using ok.refcount
    · rw [share]
      simp
    · exact share ▸ single
    · rw [share,Census.add_def]
      dsimp only
      rw [none_yet,if_pos (by omega)]
  · rename_i somebody
    refine ⟨?_,rfl,single,?_⟩
    · exact refs ▸ ok.refcount
    · rw [none_yet,if_neg somebody]

end Blocks

section Bounds
omit [DecidableEq H] [DecidableEq W]

omit [Fintype H] in
theorem Cell.worth_le (c : Cell H) (b : Address) : (c.worth b).refs ≤ 1 ∧ (c.worth b).weaks = 0 := by
  cases c <;> simp only [Cell.worth,Fields.at] <;> (try split) <;> simp

omit [Fintype H] [Fintype W] in
theorem WeakCell.worth_le (c : WeakCell H W) (b : Address) : (c.worth b).weaks ≤ 1 ∧ (c.worth b).refs = 0 ∧
    (c.worth b).deletes = 0 := by
  cases c <;> simp only [WeakCell.worth,Fields.at] <;> (try split) <;> simp

def Census.refsHom : Census →+ Nat := ⟨⟨Census.refs,rfl⟩,fun _ _ => rfl⟩
def Census.weaksHom : Census →+ Nat := ⟨⟨Census.weaks,rfl⟩,fun _ _ => rfl⟩
def Census.deletesHom : Census →+ Nat := ⟨⟨Census.deletes,rfl⟩,fun _ _ => rfl⟩

@[simp] theorem Census.refsHom_apply (c : Census) : Census.refsHom c = c.refs := rfl
@[simp] theorem Census.weaksHom_apply (c : Census) : Census.weaksHom c = c.weaks := rfl

/-- A block has no more owners than there are handles, and no more observers. -/
theorem census_le (shared : H → Cell H) (weak : W → WeakCell H W) (b : Address) :
    (census shared weak b).refs ≤ Fintype.card H ∧ (census shared weak b).weaks ≤ Fintype.card W := by
  have owners := tally_le Census.refsHom (fun _ => Cell.worth b) shared 1 fun h => (Cell.worth_le _ b).1
  have strangers := tally_le Census.refsHom (fun _ => WeakCell.worth b) weak 0
    fun w => (WeakCell.worth_le _ b).2.1.le
  have others := tally_le Census.weaksHom (fun _ => Cell.worth b) shared 0 fun h => (Cell.worth_le _ b).2.le
  have observers := tally_le Census.weaksHom (fun _ => WeakCell.worth b) weak 1
    fun w => (WeakCell.worth_le _ b).1
  simp only [Census.refsHom_apply,Census.weaksHom_apply] at *
  simp only [census,Census.add_def]
  omega

end Bounds

end WebSearch.SharedPtr
