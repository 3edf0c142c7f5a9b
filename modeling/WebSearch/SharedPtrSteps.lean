import WebSearch.SharedPtr

/-! Every step of a `shared_ptr` or `weak_ptr` keeps the counts of `base/shared_ptr.h`
in agreement with the handles. -/
namespace WebSearch.SharedPtr
open Library Function

variable {H W : Type} [Fintype H] [DecidableEq H] [Fintype W] [DecidableEq W]

section Frame
variable {s s' : State H W}

omit [Fintype H] [Fintype W] in
theorem CellOk.frame {c : Cell H} (ok : CellOk s c) (target : s'.target = s.target)
    (kept : ∀ h, c.reads (.inl h : H ⊕ W) = true → s'.shared h = s.shared h) : CellOk s' c := by
  cases c with
  | copying src | copied src b =>
    obtain ⟨f,source,some⟩ := ok
    exact ⟨f,by rw [kept src (by simp [Cell.reads]),source],some⟩
  | raw => trivial
  | _ =>
    simp only [CellOk,Fits,target] at ok ⊢
    exact ok

omit [Fintype H] [Fintype W] in
theorem WeakOk.frame {c : WeakCell H W} (ok : WeakOk s c) (target : s'.target = s.target)
    (kept : ∀ x, c.reads x = true → s'.fields x = s.fields x) : WeakOk s' c := by
  cases c with
  | building src f => exact (kept src (by simp [WeakCell.reads])).trans ok
  | raw => trivial
  | _ =>
    simp only [WeakOk,Fits,target] at ok ⊢
    exact ok

/-- An argument of a constructor in progress stays constructed. -/
theorem Good.unread_shared (good : Good s) {h : H} (unbuilt : ∀ f, s.shared h ≠ .built f) : s.Unread (.inl h) := by
  refine ⟨fun k => ?_,fun w => ?_⟩
  · have ok := good.cells k
    cases cell : s.shared k with
    | copying src | copied src b =>
      rw [cell] at ok
      obtain ⟨f,source,-⟩ := ok
      simp only [Cell.reads,decide_eq_false_iff_not,Sum.inl.injEq]
      exact fun same => unbuilt f (same ▸ source)
    | _ => rfl
  · have ok := good.weakCells w
    cases cell : s.weak w with
    | building src f =>
      rw [cell] at ok
      simp only [WeakCell.reads,decide_eq_false_iff_not]
      intro same
      rw [← same] at ok
      simp only [WeakOk,State.fields] at ok
      contradiction
    | _ => rfl

theorem Good.unread_weak (good : Good s) {w : W} (unbuilt : ∀ f, s.weak w ≠ .built f) : s.Unread (.inr w) := by
  refine ⟨fun k => ?_,fun v => ?_⟩
  · cases s.shared k <;> simp [Cell.reads]
  · have ok := good.weakCells v
    cases cell : s.weak v with
    | building src f =>
      rw [cell] at ok
      simp only [WeakCell.reads,decide_eq_false_iff_not]
      intro same
      rw [← same] at ok
      simp only [WeakOk,State.fields] at ok
      contradiction
    | _ => rfl

/-- A handle that no constructor reads can be rewritten without a word to the others. -/
theorem Good.write_shared (good : Good s) (s' : State H W) {h : H} {new : Cell H} (unread : s.Unread (.inl h))
    (shared : s'.shared = update s.shared h new) (weak : s'.weak = s.weak) (target : s'.target = s.target)
    (ok : CellOk s' new) : (∀ k, CellOk s' (s'.shared k)) ∧ ∀ w, WeakOk s' (s'.weak w) := by
  have other {k : H} (different : k ≠ h) : s'.shared k = s.shared k := by rw [shared,update_of_ne different]
  refine ⟨fun k => ?_,fun w => ?_⟩
  · by_cases same : k = h
    · rw [same,shared,update_self]
      exact ok
    · rw [other same]
      apply (good.cells k).frame target
      intro x reads
      apply other
      rintro rfl
      exact Bool.false_ne_true ((unread.1 k).symm.trans reads)
  · rw [weak]
    apply (good.weakCells w).frame target
    intro x reads
    cases x with
    | inl k =>
      have different : k ≠ h := by
        rintro rfl
        exact Bool.false_ne_true ((unread.2 w).symm.trans reads)
      simp only [State.fields,other different]
    | inr v => simp only [State.fields,weak]

theorem Good.write_weak (good : Good s) (s' : State H W) {w : W} {new : WeakCell H W} (unread : s.Unread (.inr w))
    (shared : s'.shared = s.shared) (weak : s'.weak = update s.weak w new) (target : s'.target = s.target)
    (ok : WeakOk s' new) : (∀ k, CellOk s' (s'.shared k)) ∧ ∀ v, WeakOk s' (s'.weak v) := by
  refine ⟨fun k => ?_,fun v => ?_⟩
  · rw [shared]
    exact (good.cells k).frame target fun x _ => by rw [shared]
  · by_cases same : v = w
    · rw [same,weak,update_self]
      exact ok
    · rw [weak,update_of_ne same]
      apply (good.weakCells v).frame target
      intro x reads
      cases x with
      | inl k => simp only [State.fields,shared]
      | inr u =>
        have different : u ≠ w := by
          rintro rfl
          exact Bool.false_ne_true ((unread.2 v).symm.trans reads)
        simp only [State.fields,weak,update_of_ne different]

omit [DecidableEq H] [DecidableEq W] in
/-- A step that touches one block and leaves every object in the same hands. -/
theorem Good.step_heap (good : Good s) (block : Address) (sound : s'.fault = false)
    (blocks : ∀ b, b ≠ block → s'.blocks b = s.blocks b) (objects : s'.objects = s.objects)
    (target : s'.target = s.target)
    (others : ∀ b, b ≠ block → census s'.shared s'.weak b = census s.shared s.weak b)
    (here : Balanced (s'.blocks block) (census s'.shared s'.weak block))
    (held : s'.Held block ↔ s.Held block)
    (cells : (∀ k, CellOk s' (s'.shared k)) ∧ ∀ w, WeakOk s' (s'.weak w)) : Good s' := by
  have same (b : Address) : s'.Held b ↔ s.Held b := by
    by_cases at_block : b = block
    · rw [at_block,held]
    · unfold State.Held
      rw [others b at_block]
  refine ⟨sound,fun b => ?_,fun p => ?_,fun b b' => ?_,cells.1,cells.2⟩
  · by_cases at_block : b = block
    · rw [at_block]
      exact here
    · rw [blocks b at_block,others b at_block]
      exact good.balanced b
  · simp only [objects,target,same]
    exact good.objects p
  · simp only [target,same]
    exact good.distinct b b'

/-- A step on a handle that nothing is counted for, before or after. -/
theorem Good.move_shared (good : Good s) {h : H} {new : Cell H} (unread : s.Unread (.inl h))
    (same : ∀ b, (s.shared h).worth b = new.worth b) (ok : CellOk {s with shared := update s.shared h new} new) :
    Good {s with shared := update s.shared h new} := by
  have count (b : Address) : census (update s.shared h new) s.weak b = census s.shared s.weak b := by
    obtain ⟨others,whole,after⟩ := census_shared s.shared s.weak h b
    rw [whole,after,same b]
  refine ⟨good.sound,?_,?_,?_,?_,?_⟩
  · intro b
    dsimp only
    rw [count b]
    exact good.balanced b
  · simpa only [State.Held,count] using good.objects
  · simpa only [State.Held,count] using good.distinct
  · exact (good.write_shared {s with shared := update s.shared h new} unread rfl rfl rfl ok).1
  · exact (good.write_shared {s with shared := update s.shared h new} unread rfl rfl rfl ok).2

theorem Good.move_weak (good : Good s) {w : W} {new : WeakCell H W} (unread : s.Unread (.inr w))
    (same : ∀ b, (s.weak w).worth b = new.worth b) (ok : WeakOk {s with weak := update s.weak w new} new) :
    Good {s with weak := update s.weak w new} := by
  have count (b : Address) : census s.shared (update s.weak w new) b = census s.shared s.weak b := by
    obtain ⟨others,whole,after⟩ := census_weak s.shared s.weak w b
    rw [whole,after,same b]
  refine ⟨good.sound,?_,?_,?_,?_,?_⟩
  · intro b
    dsimp only
    rw [count b]
    exact good.balanced b
  · simpa only [State.Held,count] using good.objects
  · simpa only [State.Held,count] using good.distinct
  · exact (good.write_weak {s with weak := update s.weak w new} unread rfl rfl rfl ok).1
  · exact (good.write_weak {s with weak := update s.weak w new} unread rfl rfl rfl ok).2

end Frame

section Steps
variable {s s' : State H W}

omit [DecidableEq H] [DecidableEq W] in
/-- A block that a handle is counted for has not been freed. -/
theorem Good.block_live (good : Good s) {b : Address} (counted : census s.shared s.weak b ≠ 0) :
    ∃ c, s.blocks b = some c ∧ BlockOk c (census s.shared s.weak b) := by
  have balanced := good.balanced b
  cases block : s.blocks b with
  | none =>
    rw [block] at balanced
    exact absurd balanced counted
  | some c =>
    rw [block] at balanced
    exact ⟨c,rfl,balanced⟩

omit [DecidableEq W] in
theorem Good.shared_live (good : Good s) {h : H} {b : Address} (counted : (s.shared h).worth b ≠ 0) :
    ∃ c, s.blocks b = some c ∧ BlockOk c (census s.shared s.weak b) := by
  apply good.block_live
  obtain ⟨others,whole,-⟩ := census_shared s.shared s.weak h b
  rw [whole]
  intro nothing
  apply counted
  simp only [Census.ext_iff,Census.add_def,Census.zero_def,Nat.add_eq_zero_iff] at nothing ⊢
  simp only [nothing,and_self]

omit [DecidableEq H] in
theorem Good.weak_live (good : Good s) {w : W} {b : Address} (counted : (s.weak w).worth b ≠ 0) :
    ∃ c, s.blocks b = some c ∧ BlockOk c (census s.shared s.weak b) := by
  apply good.block_live
  obtain ⟨others,whole,-⟩ := census_weak s.shared s.weak w b
  rw [whole]
  intro nothing
  apply counted
  simp only [Census.ext_iff,Census.add_def,Census.zero_def,Nat.add_eq_zero_iff] at nothing ⊢
  simp only [nothing,and_self]

omit [Fintype H] [DecidableEq H] [Fintype W] [DecidableEq W] in
theorem through_live {b : Address} {c : SharedPtrControlBlock} (live : s.blocks b = some c)
    (next : Address → SharedPtrControlBlock → State H W) : s.through (some b) next = next b c := by
  simp only [State.through,live]

/-- A step of `h` on one block. What the other handles amount to stays as it is. -/
theorem Good.change_shared (good : Good s) {h : H} {new : Cell H} {block : Address}
    {value : Option SharedPtrControlBlock} (unread : s.Unread (.inl h))
    (elsewhere : ∀ b, b ≠ block → (s.shared h).worth b = 0 ∧ new.worth b = 0)
    (here : ∀ others, census s.shared s.weak block = (s.shared h).worth block + others →
      Balanced value (new.worth block + others) ∧ (0 < (new.worth block + others).refs + (new.worth block + others).deletes ↔
        0 < ((s.shared h).worth block + others).refs + ((s.shared h).worth block + others).deletes))
    (ok : CellOk {s with blocks := update s.blocks block value,shared := update s.shared h new} new) :
    Good {s with blocks := update s.blocks block value,shared := update s.shared h new} := by
  have frame := good.write_shared {s with blocks := update s.blocks block value,shared := update s.shared h new}
    unread rfl rfl rfl ok
  obtain ⟨others,whole,after⟩ := census_shared s.shared s.weak h block
  have counts := here others whole
  apply good.step_heap block
  · exact good.sound
  · exact fun b different => update_of_ne different _ _
  · rfl
  · rfl
  · intro b different
    obtain ⟨others,whole,after⟩ := census_shared s.shared s.weak h b
    rw [after,whole,(elsewhere b different).1,(elsewhere b different).2]
  · dsimp only
    rw [update_self,after]
    exact counts.1
  · unfold State.Held
    dsimp only
    rw [after,whole]
    exact counts.2
  · exact frame

theorem Good.change_weak (good : Good s) {w : W} {new : WeakCell H W} {block : Address}
    {value : Option SharedPtrControlBlock} (unread : s.Unread (.inr w))
    (elsewhere : ∀ b, b ≠ block → (s.weak w).worth b = 0 ∧ new.worth b = 0)
    (here : ∀ others, census s.shared s.weak block = (s.weak w).worth block + others →
      Balanced value (new.worth block + others) ∧ (0 < (new.worth block + others).refs + (new.worth block + others).deletes ↔
        0 < ((s.weak w).worth block + others).refs + ((s.weak w).worth block + others).deletes))
    (ok : WeakOk {s with blocks := update s.blocks block value,weak := update s.weak w new} new) :
    Good {s with blocks := update s.blocks block value,weak := update s.weak w new} := by
  have frame := good.write_weak {s with blocks := update s.blocks block value,weak := update s.weak w new}
    unread rfl rfl rfl ok
  obtain ⟨others,whole,after⟩ := census_weak s.shared s.weak w block
  have counts := here others whole
  apply good.step_heap block
  · exact good.sound
  · exact fun b different => update_of_ne different _ _
  · rfl
  · rfl
  · intro b different
    obtain ⟨others,whole,after⟩ := census_weak s.shared s.weak w b
    rw [after,whole,(elsewhere b different).1,(elsewhere b different).2]
  · dsimp only
    rw [update_self,after]
    exact counts.1
  · unfold State.Held
    dsimp only
    rw [after,whole]
    exact counts.2
  · exact frame

end Steps

theorem Fields.at_other {f : Fields} {block b : Address} (here : f.controlBlock = some block) (different : b ≠ block)
    (n : Census) : f.at b n = 0 := by
  rw [Fields.at,here,if_neg (fun same => different (Option.some.inj same).symm)]

@[simp] theorem Fields.at_here {ptr : Option Address} {block : Address} (n : Census) :
    Fields.at ⟨ptr,some block⟩ block n = n := if_pos rfl

@[simp] theorem Fields.at_null {ptr : Option Address} {block : Address} (n : Census) :
    Fields.at ⟨ptr,none⟩ block n = 0 := if_neg (Option.some_ne_none block).symm

section Handles
variable {s s' : State H W} {h : H} {w : W}

/-- `AtomicIncrement` in `Initialize`: the argument keeps the block alive. -/
theorem Good.initialize (good : Good s) {src : H} (cell : s.shared h = .copying src) (ok : advance s h = some s') :
    Good s' := by
  have fits := good.cells h
  rw [cell] at fits
  obtain ⟨⟨ptr,_|block⟩,source,full⟩ := fits
  · contradiction
  have owned : 0 < (census s.shared s.weak block).refs := by
    obtain ⟨others,whole,-⟩ := census_shared s.shared s.weak src block
    rw [whole,source,Cell.worth,Fields.at_here,Census.add_def]
    dsimp only
    omega
  obtain ⟨c,live,block_ok⟩ := good.shared_live (h := src) (b := block) (by simp [source,Cell.worth])
  simp only [advance,cell,source,through_live live,Option.some.injEq] at ok
  rw [← ok]
  apply good.change_shared (good.unread_shared (by simp [cell]))
  · intro b different
    rw [cell]
    exact ⟨rfl,if_neg (Ne.symm different)⟩
  · intro others whole
    rw [cell,Cell.worth,zero_add] at whole
    rw [cell,Cell.worth,Cell.worth,if_pos rfl,zero_add]
    refine ⟨(whole ▸ block_ok).addRef (whole ▸ owned),?_⟩
    rw [whole] at owned
    simp only [Census.add_def]
    omega
  · refine ⟨⟨ptr,some block⟩,?_,rfl⟩
    dsimp only
    rw [update_of_ne (by rintro rfl; simp [cell] at source),source]

/-- The members are read again after the increment, and are still the same. -/
theorem Good.fill (good : Good s) {src : H} {block : Address} (cell : s.shared h = .copied src block)
    (ok : advance s h = some s') : Good s' := by
  have fits := good.cells h
  rw [cell] at fits
  obtain ⟨f,source,here⟩ := fits
  simp only [advance,cell,source,Option.some.injEq] at ok
  rw [← ok]
  apply good.move_shared (good.unread_shared (by simp [cell]))
  · intro b
    simp only [cell,Cell.worth,Fields.at,here,Option.some.injEq]
  · have source_fits := good.cells src
    rw [source] at source_fits
    exact source_fits

/-- `delete ptr_`: nobody owns the object any more, and it has not been deleted. -/
theorem Good.delete_ptr (good : Good s) {f : Fields} (cell : s.shared h = .deleting f)
    (ok : advance s h = some s') : Good s' := by
  have fits := good.cells h
  rw [cell] at fits
  obtain ⟨ptr,_|block⟩ := f
  · exact absurd fits.2 Bool.false_ne_true
  have ptr_eq : ptr = some (s.target block) := fits.1
  subst ptr_eq
  obtain ⟨c,live,block_ok⟩ := good.shared_live (h := h) (b := block) (by simp [cell,Cell.worth])
  obtain ⟨others,whole,after⟩ := census_shared s.shared s.weak h block
  rw [cell,Cell.worth,Fields.at_here] at whole
  have count := after (.dropping ⟨some (s.target block),some block⟩)
  rw [Cell.worth,Fields.at_here] at count
  have elsewhere {b : Address} (different : b ≠ block) :
      census (update s.shared h (.dropping ⟨some (s.target block),some block⟩)) s.weak b = census s.shared s.weak b := by
    obtain ⟨others,whole,after⟩ := census_shared s.shared s.weak h b
    rw [after,whole,cell,Cell.worth,Cell.worth,Fields.at_other rfl different,Fields.at_other rfl different]
  rw [whole] at block_ok
  have alone : others.refs = 0 ∧ others.deletes = 0 := by
    have single := block_ok.single
    simp only [Census.share,Census.add_def] at single
    omega
  have held : s.Held block := by
    rw [State.Held,whole,Census.add_def]
    dsimp only
    omega
  have alive : s.objects (s.target block) = true := (good.objects _).mpr ⟨block,rfl,held⟩
  simp only [advance,cell,State.deleteObject,alive,if_true,Option.some.injEq] at ok
  rw [← ok]
  have frame := good.write_shared
    {s with
      objects := update s.objects (s.target block) false
      shared := update s.shared h (.dropping ⟨some (s.target block),some block⟩)}
    (good.unread_shared (by simp [cell])) rfl rfl rfl ⟨rfl,rfl⟩
  have held_iff (b : Address) : State.Held {s with
      objects := update s.objects (s.target block) false
      shared := update s.shared h (.dropping ⟨some (s.target block),some block⟩)} b ↔ s.Held b ∧ b ≠ block := by
    unfold State.Held
    dsimp only
    by_cases same : b = block
    · rw [same,count,Census.add_def]
      simp only [alone.1,alone.2,ne_eq,not_true_eq_false,and_false,Nat.lt_irrefl]
    · rw [elsewhere same]
      simp only [same,ne_eq,not_false_eq_true,and_true]
  refine ⟨good.sound,fun b => ?_,fun p => ?_,fun b b' => ?_,frame.1,frame.2⟩
  · dsimp only
    by_cases same : b = block
    · rw [same,count,live]
      exact block_ok.deleted
    · rw [elsewhere same]
      exact good.balanced b
  · simp only [held_iff]
    by_cases same : p = s.target block
    · rw [same,update_self]
      simp only [Bool.false_eq_true,false_iff,not_exists,not_and]
      exact fun b target held_b different => different (good.distinct b block held_b held target)
    · rw [update_of_ne same,good.objects p]
      apply exists_congr
      intro b
      apply and_congr_right
      intro target
      exact ⟨fun held_b => ⟨held_b,fun at_block => same (by rw [← target,at_block])⟩,And.left⟩
  · simp only [held_iff]
    exact fun first second => good.distinct b b' first.1 second.1

theorem Good.drop (good : Good s) (few : Fintype.card W < 2^32) {f : Fields} (cell : s.shared h = .dropping f)
    (ok : advance s h = some s') : Good s' := by
  have fits := good.cells h
  rw [cell] at fits
  obtain ⟨ptr,_|block⟩ := f
  · exact absurd fits.2 Bool.false_ne_true
  obtain ⟨c,live,block_ok⟩ := good.shared_live (h := h) (b := block) (by simp [cell,Cell.worth])
  simp only [advance,cell,through_live live,Option.some.injEq] at ok
  rw [← ok]
  apply good.change_shared (good.unread_shared (by simp [cell]))
  · intro b different
    rw [cell]
    refine ⟨Fields.at_other rfl different _,?_⟩
    split
    · exact Fields.at_other rfl different _
    · rfl
  · intro others whole
    have observers := (census_le s.shared s.weak block).2
    rw [whole] at block_ok observers
    rw [cell,Cell.worth,Fields.at_here] at block_ok observers ⊢
    have single := block_ok.single
    simp only [Census.share,Census.add_def] at single observers
    have none_left : others.share = 0 := by
      simp only [Census.share]
      omega
    have dropped := block_ok.dropWeak (n := others) (by simp) (by simp)
      (by simp only [Census.share,Census.add_def] at none_left ⊢; omega) (by omega) (by omega)
    refine ⟨?_,?_⟩
    · split at dropped <;> simp_all [Cell.worth,Balanced]
    · split <;> simp [Cell.worth]
  · split
    · exact fits
    · trivial

/-- `delete control_block_`: no handle is left that could use the block. -/
theorem BlockOk.freed {c : SharedPtrControlBlock} {n : Census} (ok : BlockOk c ({frees := 1} + n)) : n = 0 := by
  have last := ok.last
  have nobody : ({frees := 1} + n : Census).weaks + ({frees := 1} + n : Census).share = 0 := by
    by_contra somebody
    rw [if_neg somebody] at last
    simp at last
  rw [if_pos nobody] at last
  simp only [Census.share,Census.add_def] at nobody last
  simp only [Census.ext_iff,Census.zero_def]
  omega

theorem Good.free_block (good : Good s) {f : Fields} (cell : s.shared h = .freeing f)
    (ok : advance s h = some s') : Good s' := by
  have fits := good.cells h
  rw [cell] at fits
  obtain ⟨ptr,_|block⟩ := f
  · exact absurd fits.2 Bool.false_ne_true
  obtain ⟨c,live,block_ok⟩ := good.shared_live (h := h) (b := block) (by simp [cell,Cell.worth])
  simp only [advance,cell,through_live live,Option.some.injEq] at ok
  rw [← ok]
  apply good.change_shared (good.unread_shared (by simp [cell]))
  · intro b different
    rw [cell]
    exact ⟨Fields.at_other rfl different _,rfl⟩
  · intro others whole
    rw [cell,Cell.worth,Fields.at_here] at whole ⊢
    have nobody : others = 0 := (whole ▸ block_ok).freed
    rw [nobody,Cell.worth]
    exact ⟨rfl,by simp⟩
  · trivial

/-- `~shared_ptr`. The handle stops owning with the decrement; only the last owner
goes on to delete. -/
theorem Good.destroy (good : Good s) (few : Fintype.card H ≤ 2^32) (ok : step s (.destroy h) = some s') : Good s' := by
  simp only [step] at ok
  split at ok
  · rename_i f cell
    have fits := good.cells h
    rw [cell] at fits
    split at ok
    · rename_i unread
      obtain ⟨ptr,_|block⟩ := f
      · have null : ptr = none := fits
        rw [null] at cell
        simp only [null,Option.isSome_none,Bool.false_eq_true,if_false,Option.some.injEq] at ok
        rw [← ok]
        apply good.move_shared unread
        · intro b
          simp [cell,Cell.worth]
        · trivial
      · obtain ⟨c,live,block_ok⟩ := good.shared_live (h := h) (b := block) (by simp [cell,Cell.worth])
        have owner : ptr = some (s.target block) := fits
        simp only [owner,Option.isSome_some,if_true,through_live live,Option.some.injEq] at ok
        rw [owner] at cell fits
        rw [← ok]
        apply good.change_shared unread
        · intro b different
          rw [cell]
          refine ⟨Fields.at_other rfl different _,?_⟩
          split
          · exact Fields.at_other rfl different _
          · rfl
        · intro others whole
          have owners := (census_le s.shared s.weak block).1
          rw [whole] at block_ok owners
          rw [cell,Cell.worth,Fields.at_here] at block_ok owners ⊢
          have single := block_ok.single
          simp only [Census.share,Census.add_def] at single owners
          have dropped := block_ok.dropRef (by omega)
          refine ⟨?_,?_⟩
          · split at dropped <;> simp_all [Cell.worth,Balanced]
          · have refs := dropped.refcount
            split
            · simp [Cell.worth]
            · rename_i more
              have some_left : others.refs ≠ 0 := by
                intro zero
                rw [if_neg more,zero] at refs
                exact more refs
              simp only [Cell.worth,Census.add_def,Census.zero_def]
              omega
        · split
          · exact ⟨fits,rfl⟩
          · trivial
    · contradiction
  · contradiction

/-- Swapping only changes which handle is which. -/
theorem Good.swap (good : Good s) {k : H} (ok : step s (.swap h k) = some s') : Good s' := by
  simp only [step] at ok
  split at ok
  · rename_i f g first second
    split at ok
    · rename_i unread
      rw [← Option.some.inj ok]
      have exchanged : update (update s.shared h (.built g)) k (.built f) = s.shared ∘ Equiv.swap h k := by
        rw [Equiv.comp_swap_eq_update,first,second]
        by_cases same : h = k
        · rw [same,update_idem,update_idem]
          rw [same,second] at first
          rw [first]
        · rw [update_comm (Ne.symm same)]
      have count (b : Address) : census (update (update s.shared h (.built g)) k (.built f)) s.weak b =
          census s.shared s.weak b := by
        unfold census
        rw [exchanged,tally_comp]
      have other {j : H} (first_no : j ≠ h) (second_no : j ≠ k) :
          update (update s.shared h (.built g)) k (.built f) j = s.shared j := by
        rw [update_of_ne second_no,update_of_ne first_no]
      refine ⟨good.sound,?_,?_,?_,?_,?_⟩
      · simpa only [count] using good.balanced
      · simpa only [State.Held,count] using good.objects
      · simpa only [State.Held,count] using good.distinct
      · intro j
        have there := good.cells h
        have here := good.cells k
        rw [first] at there
        rw [second] at here
        dsimp only
        by_cases at_k : j = k
        · rw [at_k,update_self]
          exact there
        · rw [update_of_ne at_k]
          by_cases at_h : j = h
          · rw [at_h,update_self]
            exact here
          · rw [update_of_ne at_h]
            apply (good.cells j).frame
            · rfl
            · intro x reads
              apply other
              · exact fun same => Bool.false_ne_true ((unread.1.1 j).symm.trans (same ▸ reads))
              · exact fun same => Bool.false_ne_true ((unread.2.1 j).symm.trans (same ▸ reads))
      · intro w
        apply (good.weakCells w).frame
        · rfl
        · intro x reads
          cases x with
          | inl j =>
            simp only [State.fields]
            rw [other]
            · exact fun same => Bool.false_ne_true ((unread.1.2 w).symm.trans (same ▸ reads))
            · exact fun same => Bool.false_ne_true ((unread.2.2 w).symm.trans (same ▸ reads))
          | inr v => rfl
    · contradiction
  · contradiction

theorem Good.copy (good : Good s) {src : H} (ok : step s (.copy src h) = some s') : Good s' := by
  simp only [step] at ok
  split at ok
  · rename_i f cell source
    rw [← Option.some.inj ok]
    apply good.move_shared (good.unread_shared (by simp [cell]))
    · intro b
      rw [cell]
      split <;> simp [Cell.worth,Fields.null]
    · split
      · rename_i full
        refine ⟨f,?_,full⟩
        dsimp only
        rw [update_of_ne (by rintro rfl; simp [cell] at source),source]
      · rfl
  · contradiction

omit [DecidableEq W] in
/-- No handle has anything to do with an address that is not in use. -/
theorem Good.unused (good : Good s) {block : Address} (free : s.blocks block = none) (k : H) :
    (s.shared k).worth block = 0 := by
  by_contra counted
  obtain ⟨c,live,-⟩ := good.shared_live (h := k) counted
  rw [free] at live
  contradiction

theorem Good.retarget (good : Good s) {block : Address} (free : s.blocks block = none) (p : Address) :
    Good {s with target := update s.target block p} := by
  have nobody : census s.shared s.weak block = 0 := by
    have balanced := good.balanced block
    rw [free] at balanced
    exact balanced
  have different {b : Address} (held : s.Held b) : b ≠ block := by
    rintro rfl
    rw [State.Held,nobody] at held
    exact absurd held (by simp)
  have target {b : Address} (held : s.Held b) : update s.target block p b = s.target b :=
    update_of_ne (different held) _ _
  have fits_of {f : Fields} (fits : Fits s f) (other : f.controlBlock ≠ some block) :
      Fits {s with target := update s.target block p} f := by
    obtain ⟨ptr,_|b⟩ := f
    · exact fits
    · have away : b ≠ block := fun same => other (congrArg some same)
      simpa [Fits,update_of_ne away] using fits
  refine ⟨good.sound,good.balanced,fun q => ?_,fun b b' held held' => ?_,fun k => ?_,fun v => ?_⟩
  · rw [good.objects q]
    apply exists_congr
    intro b
    apply and_congr_left
    intro held
    dsimp only
    rw [target held]
  · dsimp only
    rw [target held,target held']
    exact good.distinct b b' held held'
  · have ok := good.cells k
    have clear := good.unused free k
    dsimp only
    cases cell : s.shared k with
    | built f =>
      rw [cell] at ok clear
      exact fits_of ok fun same => by simp [Cell.worth,Fields.at,same] at clear
    | deleting f | dropping f | freeing f =>
      rw [cell] at ok clear
      exact ⟨fits_of ok.1 fun same => by simp [Cell.worth,Fields.at,same] at clear,ok.2⟩
    | _ =>
      rw [cell] at ok
      exact ok
  · have ok := good.weakCells v
    have clear : (s.weak v).worth block = 0 := by
      by_contra counted
      obtain ⟨c,live,-⟩ := good.weak_live (w := v) counted
      rw [free] at live
      contradiction
    dsimp only
    cases cell : s.weak v with
    | built f =>
      rw [cell] at ok clear
      exact fits_of ok fun same => by simp [WeakCell.worth,Fields.at,same] at clear
    | freeing f =>
      rw [cell] at ok clear
      exact ⟨fits_of ok.1 fun same => by simp [WeakCell.worth,Fields.at,same] at clear,ok.2⟩
    | _ =>
      rw [cell] at ok
      exact ok

/-- The explicit constructor: a new object is owned by one handle through a new block. -/
theorem Good.construct (good : Good s) {ptr : Option Address} {block : Address}
    (ok : step s (.construct h ptr block) = some s') : Good s' := by
  simp only [step] at ok
  split at ok
  · rename_i cell
    rw [← Option.some.inj ok]
    apply good.move_shared (good.unread_shared (by simp [cell]))
    · intro b
      simp [cell,Cell.worth,Fields.null]
    · rfl
  · rename_i p cell
    split at ok
    · rename_i new
      have free : s.blocks block = none := Option.isNone_iff_eq_none.mp new.2
      have aimed := good.retarget free p
      rw [← Option.some.inj ok]
      obtain ⟨others,whole,after⟩ := census_shared s.shared s.weak h block
      have nobody : others = 0 := by
        have balanced := good.balanced block
        rw [free] at balanced
        rw [cell,Cell.worth,zero_add] at whole
        exact whole.symm.trans balanced
      have count : census (update s.shared h (.built ⟨some p,some block⟩)) s.weak block = {refs := 1} := by
        rw [after,nobody,add_zero,Cell.worth,Fields.at_here]
      have elsewhere {b : Address} (different : b ≠ block) :
          census (update s.shared h (.built ⟨some p,some block⟩)) s.weak b = census s.shared s.weak b := by
        obtain ⟨others,whole,after⟩ := census_shared s.shared s.weak h b
        rw [after,whole,cell,Cell.worth,Cell.worth,Fields.at_other rfl different]
      have before : census s.shared s.weak block = 0 := by rw [whole,cell,nobody]; rfl
      have unheld : ¬s.Held block := by
        rw [State.Held,before]
        simp
      have target {b : Address} (held : s.Held b) : update s.target block p b = s.target b :=
        update_of_ne (by rintro rfl; exact unheld held) _ _
      have frame := aimed.write_shared
        {s with
          objects := update s.objects p true
          blocks := update s.blocks block (some .new)
          target := update s.target block p
          shared := update s.shared h (.built ⟨some p,some block⟩)}
        (aimed.unread_shared (by simp [cell])) rfl rfl rfl (by simp [CellOk,Fits])
      have held_iff (b : Address) : State.Held {s with
          objects := update s.objects p true
          blocks := update s.blocks block (some .new)
          target := update s.target block p
          shared := update s.shared h (.built ⟨some p,some block⟩)} b ↔ b = block ∨ s.Held b := by
        unfold State.Held
        dsimp only
        by_cases same : b = block
        · simp [same,count]
        · rw [elsewhere same]
          simp [same]
      refine ⟨good.sound,fun b => ?_,fun q => ?_,fun b b' => ?_,frame.1,frame.2⟩
      · dsimp only
        by_cases same : b = block
        · rw [same,update_self,count]
          exact ⟨rfl,rfl,le_refl _,rfl⟩
        · rw [update_of_ne same,elsewhere same]
          exact good.balanced b
      · simp only [held_iff]
        by_cases same : q = p
        · rw [same,update_self]
          exact ⟨fun _ => ⟨block,update_self _ _ _,.inl rfl⟩,fun _ => rfl⟩
        · rw [update_of_ne same,good.objects q]
          apply exists_congr
          intro b
          by_cases at_block : b = block
          · rw [at_block,update_self]
            exact ⟨fun held => absurd held.2 unheld,fun target => absurd target.1.symm same⟩
          · rw [update_of_ne at_block]
            simp only [at_block,false_or]
      · simp only [held_iff]
        rintro (rfl | held) (rfl | held') same
        · rfl
        · rw [update_self,target held'] at same
          exact absurd ((good.objects p).mpr ⟨b',same.symm,held'⟩) (by simp [new.1])
        · rw [update_self,target held] at same
          exact absurd ((good.objects p).mpr ⟨b,same,held⟩) (by simp [new.1])
        · rw [target held,target held'] at same
          exact good.distinct b b' held held' same
    · contradiction
  · contradiction

theorem Good.observe (good : Good s) {src : H ⊕ W} (ok : step s (.observe src w) = some s') : Good s' := by
  simp only [step] at ok
  split at ok
  · rename_i f cell source
    rw [← Option.some.inj ok]
    apply good.move_weak (good.unread_weak (by simp [cell]))
    · intro b
      rw [cell]
      rfl
    · cases src with
      | inl k => exact source
      | inr v =>
        simp only [State.fields] at source
        simp only [WeakOk,State.fields]
        rw [update_of_ne (by rintro rfl; simp [cell] at source)]
        exact source
  · contradiction

theorem Good.constructWeak (good : Good s) (ok : step s (.constructWeak w) = some s') : Good s' := by
  simp only [step] at ok
  split at ok
  · rename_i cell
    rw [← Option.some.inj ok]
    apply good.move_weak (good.unread_weak (by simp [cell]))
    · intro b
      simp [cell,WeakCell.worth,Fields.null]
    · rfl
  · contradiction

/-- What a constructor hands to `CopyFrom` fits, and its handle is counted for the block. -/
theorem Good.source (good : Good s) {src : H ⊕ W} {f : Fields} (source : s.fields src = some f) : Fits s f ∧
    ∀ block, f.controlBlock = some block → ∃ c, s.blocks block = some c ∧ BlockOk c (census s.shared s.weak block) ∧
      0 < (census s.shared s.weak block).weaks + (census s.shared s.weak block).share := by
  obtain ⟨ptr,control⟩ := f
  cases src with
  | inl k =>
    simp only [State.fields] at source
    split at source
    · rename_i g cell
      cases Option.some.inj source
      have fits := good.cells k
      rw [cell] at fits
      refine ⟨fits,?_⟩
      rintro block rfl
      obtain ⟨c,live,block_ok⟩ := good.shared_live (h := k) (b := block) (by simp [cell,Cell.worth])
      refine ⟨c,live,block_ok,?_⟩
      obtain ⟨others,whole,-⟩ := census_shared s.shared s.weak k block
      rw [whole,cell,Cell.worth,Fields.at_here]
      simp only [Census.share,Census.add_def]
      omega
    · contradiction
  | inr v =>
    simp only [State.fields] at source
    split at source
    · rename_i g cell
      cases Option.some.inj source
      have fits := good.weakCells v
      rw [cell] at fits
      refine ⟨fits,?_⟩
      rintro block rfl
      obtain ⟨c,live,block_ok⟩ := good.weak_live (w := v) (b := block) (by simp [cell,WeakCell.worth])
      refine ⟨c,live,block_ok,?_⟩
      obtain ⟨others,whole,-⟩ := census_weak s.shared s.weak v block
      rw [whole,cell,WeakCell.worth,Fields.at_here]
      simp only [Census.add_def]
      omega
    · contradiction

theorem Good.advanceWeak (good : Good s) (ok : advanceWeak s w = some s') : Good s' := by
  have fits := good.weakCells w
  simp only [SharedPtr.advanceWeak] at ok
  split at ok
  · contradiction
  · contradiction
  · rename_i src ptr cell
    rw [cell] at fits
    rw [← Option.some.inj ok]
    apply good.move_weak (good.unread_weak (by simp [cell]))
    · intro b
      simp [cell,WeakCell.worth]
    · exact (good.source fits).1
  · rename_i src ptr block cell
    rw [cell] at fits
    obtain ⟨agrees,counted⟩ := good.source fits
    obtain ⟨c,live,block_ok,seen⟩ := counted block rfl
    rw [through_live live,Option.some.injEq] at ok
    rw [← ok]
    apply good.change_weak (good.unread_weak (by simp [cell]))
    · intro b different
      rw [cell]
      exact ⟨rfl,Fields.at_other rfl different _⟩
    · intro others whole
      rw [cell,WeakCell.worth,zero_add] at whole
      rw [cell,WeakCell.worth,WeakCell.worth,Fields.at_here,zero_add]
      refine ⟨(whole ▸ block_ok).addWeak (whole ▸ seen),?_⟩
      simp
    · exact agrees
  · rename_i f cell
    rw [cell] at fits
    obtain ⟨ptr,_|block⟩ := f
    · exact absurd fits.2 Bool.false_ne_true
    obtain ⟨c,live,block_ok⟩ := good.weak_live (w := w) (b := block) (by simp [cell,WeakCell.worth])
    rw [through_live live,Option.some.injEq] at ok
    rw [← ok]
    apply good.change_weak (good.unread_weak (by simp [cell]))
    · intro b different
      rw [cell]
      exact ⟨Fields.at_other rfl different _,rfl⟩
    · intro others whole
      rw [cell,WeakCell.worth,Fields.at_here] at whole ⊢
      have nobody : others = 0 := (whole ▸ block_ok).freed
      rw [nobody,WeakCell.worth]
      exact ⟨rfl,by simp⟩
    · trivial

theorem Good.destroyWeak (good : Good s) (few : Fintype.card W < 2^32) (ok : step s (.destroyWeak w) = some s') :
    Good s' := by
  simp only [step] at ok
  split at ok
  · rename_i f cell
    have fits := good.weakCells w
    rw [cell] at fits
    split at ok
    · rename_i unread
      obtain ⟨ptr,_|block⟩ := f
      · simp only [Option.isSome_none,Bool.false_eq_true,if_false,Option.some.injEq] at ok
        rw [← ok]
        apply good.move_weak unread
        · intro b
          simp [cell,WeakCell.worth]
        · trivial
      · obtain ⟨c,live,block_ok⟩ := good.weak_live (w := w) (b := block) (by simp [cell,WeakCell.worth])
        simp only [Option.isSome_some,if_true,through_live live,Option.some.injEq] at ok
        rw [← ok]
        apply good.change_weak unread
        · intro b different
          rw [cell]
          refine ⟨Fields.at_other rfl different _,?_⟩
          split
          · exact Fields.at_other rfl different _
          · rfl
        · intro others whole
          have observers := (census_le s.shared s.weak block).2
          rw [whole] at block_ok observers
          rw [cell,WeakCell.worth,Fields.at_here] at block_ok observers ⊢
          have share : ({weaks := 1} + others : Census).share = others.share := by simp [Census.share]
          have single := block_ok.single
          rw [share] at single
          simp only [Census.add_def] at observers
          have dropped := block_ok.dropWeak (n := others) (by simp) (by simp)
            (by rw [share,Census.add_def]; dsimp only; omega) single (by omega)
          refine ⟨?_,?_⟩
          · split at dropped <;> simp_all [WeakCell.worth,Balanced]
          · split <;> simp [WeakCell.worth]
        · split
          · exact ⟨fits,rfl⟩
          · trivial
    · contradiction
  · contradiction

end Handles

theorem step_good {s s' : State H W} {a : Action H W} (owners : Fintype.card H ≤ 2^32)
    (observers : Fintype.card W < 2^32) (good : Good s) (ok : step s a = some s') : Good s' := by
  cases a with
  | construct h ptr block => exact good.construct ok
  | copy src dst => exact good.copy ok
  | swap h k => exact good.swap ok
  | destroy h => exact good.destroy owners ok
  | advance h =>
    cases cell : s.shared h with
    | raw | built f => simp [step,advance,cell] at ok
    | copying src => exact good.initialize cell ok
    | copied src block => exact good.fill cell ok
    | deleting f => exact good.delete_ptr cell ok
    | dropping f => exact good.drop observers cell ok
    | freeing f => exact good.free_block cell ok
  | constructWeak w => exact good.constructWeak ok
  | observe src w => exact good.observe ok
  | destroyWeak w => exact good.destroyWeak observers ok
  | advanceWeak w => exact good.advanceWeak ok

theorem reachable_good {s : State H W} (owners : Fintype.card H ≤ 2^32) (observers : Fintype.card W < 2^32)
    (reached : (system H W).Reachable s) : Good s :=
  reached.invariant Good (fun _ start => initial_good start)
    fun _ _ _ good taken => step_good owners observers good taken

end WebSearch.SharedPtr
