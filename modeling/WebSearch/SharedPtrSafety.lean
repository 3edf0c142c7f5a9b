import WebSearch.SharedPtrSteps
import Mathlib.Data.Int.CharZero

/-! What the users of `base/shared_ptr.h` rely on, whatever the threads do: an object
lives exactly as long as somebody owns it, `weak_ptr` knows whether it does, nothing
is leaked, and assignment and `reset` hand the ownership over. -/
namespace WebSearch.SharedPtr
open Library Function

variable {H W : Type} [Fintype H] [DecidableEq H] [Fintype W] [DecidableEq W]

/-- The handle is one of the owners of the object behind the block. -/
def Cell.owns (b : Address) : Cell H → Bool
  | .built f => decide (f.controlBlock = some b)
  | .copied _ block => decide (block = b)
  | _ => false

def State.owners (s : State H W) (b : Address) : Nat := (Finset.univ.filter fun h => (s.shared h).owns b = true).card

/-- The last owner is about to delete the object. -/
def State.Doomed (s : State H W) (p : Address) : Prop := ∃ h b, s.shared h = .deleting ⟨some p,some b⟩

/-- `use_count` of a `shared_ptr`. -/
def State.useCount (s : State H W) (f : Fields) : Int :=
  match f.controlBlock with
  | none => 1
  | some b => ((s.blocks b).map fun c => c.refcount.toInt).getD 0

def State.unique (s : State H W) (f : Fields) : Bool := s.useCount f == 1

/-- `use_count` of a `weak_ptr`. -/
def State.weakUseCount (s : State H W) (f : Fields) : Int :=
  match f.controlBlock with
  | none => 0
  | some b => ((s.blocks b).map fun c => c.refcount.toInt).getD 0

def State.expired (s : State H W) (f : Fields) : Bool := s.weakUseCount f == 0

omit [DecidableEq H] [DecidableEq W] in
theorem census_refs (s : State H W) (b : Address) : (census s.shared s.weak b).refs = s.owners b := by
  have worth (h : H) : Census.refsHom ((s.shared h).worth b) = if (s.shared h).owns b = true then 1 else 0 := by
    cases s.shared h <;> simp only [Cell.worth,Cell.owns,Fields.at] <;> (try split) <;> simp_all
  have strangers : Census.refsHom (tally (fun _ => WeakCell.worth b) s.weak) = 0 := by
    rw [tally,map_sum]
    exact Finset.sum_eq_zero fun w _ => (WeakCell.worth_le _ b).2.1
  calc (census s.shared s.weak b).refs
    _ = Census.refsHom (tally (fun _ => Cell.worth b) s.shared) +
        Census.refsHom (tally (fun _ => WeakCell.worth b) s.weak) := rfl
    _ = ∑ h, if (s.shared h).owns b = true then 1 else 0 := by
      rw [strangers,add_zero,tally,map_sum]
      exact Finset.sum_congr rfl fun h _ => worth h
    _ = s.owners b := (Finset.card_filter _ _).symm

omit [Fintype W] [DecidableEq H] [DecidableEq W] in
theorem owners_pos {s : State H W} {b : Address} : 0 < s.owners b ↔ ∃ h, (s.shared h).owns b = true := by
  simp [State.owners,Finset.card_pos,Finset.Nonempty]

omit [DecidableEq H] [DecidableEq W] in
theorem census_deletes (s : State H W) (b : Address) :
    (census s.shared s.weak b).deletes = ∑ h, ((s.shared h).worth b).deletes := by
  have strangers : Census.deletesHom (tally (fun _ => WeakCell.worth b) s.weak) = 0 := by
    rw [tally,map_sum]
    exact Finset.sum_eq_zero fun w _ => (WeakCell.worth_le _ b).2.2
  calc (census s.shared s.weak b).deletes
    _ = Census.deletesHom (tally (fun _ => Cell.worth b) s.shared) +
        Census.deletesHom (tally (fun _ => WeakCell.worth b) s.weak) := rfl
    _ = ∑ h, ((s.shared h).worth b).deletes := by
      rw [strangers,add_zero,tally,map_sum]
      rfl

omit [DecidableEq H] [DecidableEq W] in
theorem Good.deletes_pos {s : State H W} (good : Good s) {b : Address} :
    0 < (census s.shared s.weak b).deletes ↔ ∃ h, s.shared h = .deleting ⟨some (s.target b),some b⟩ := by
  rw [census_deletes,Finset.sum_pos_iff]
  apply exists_congr
  intro h
  have fits := good.cells h
  cases cell : s.shared h with
  | deleting f =>
    rw [cell] at fits
    obtain ⟨ptr,_|block⟩ := f
    · exact absurd fits.2 Bool.false_ne_true
    · have owner : ptr = some (s.target block) := fits.1
      by_cases same : block = b <;> simp [Cell.worth,Fields.at,same,owner]
  | _ =>
    simp only [Cell.worth,Fields.at]
    (try split) <;> simp

omit [DecidableEq H] [DecidableEq W] in
theorem Good.object_iff {s : State H W} (good : Good s) (p : Address) : s.objects p = true ↔
    (∃ h b, (s.shared h).owns b = true ∧ s.target b = p) ∨ s.Doomed p := by
  rw [good.objects p]
  refine ⟨?_,?_⟩
  · rintro ⟨b,target,held⟩
    rw [State.Held,Nat.add_pos_iff_pos_or_pos,census_refs,owners_pos,good.deletes_pos] at held
    obtain ⟨h,owns⟩ | ⟨h,deleting⟩ := held
    · exact .inl ⟨h,b,owns,target⟩
    · exact .inr ⟨h,b,target ▸ deleting⟩
  · rintro (⟨h,b,owns,target⟩ | ⟨h,b,deleting⟩)
    · refine ⟨b,target,?_⟩
      rw [State.Held,Nat.add_pos_iff_pos_or_pos,census_refs]
      exact .inl (owners_pos.mpr ⟨h,owns⟩)
    · have fits := good.cells h
      rw [deleting] at fits
      have target : p = s.target b := Option.some.inj fits.1
      refine ⟨b,target.symm,?_⟩
      rw [State.Held,Nat.add_pos_iff_pos_or_pos,good.deletes_pos]
      exact .inr ⟨h,target ▸ deleting⟩

omit [DecidableEq W] in
/-- A constructed handle is null, or its block is in use and its pointer is the block's object. -/
theorem Good.built {s : State H W} (good : Good s) {h : H} {f : Fields} (cell : s.shared h = .built f) :
    f = .null ∨ ∃ b c, f = ⟨some (s.target b),some b⟩ ∧ s.blocks b = some c ∧
      BlockOk c (census s.shared s.weak b) ∧ (s.shared h).owns b = true := by
  have fits := good.cells h
  rw [cell] at fits
  obtain ⟨ptr,_|b⟩ := f
  · exact .inl (by rw [show ptr = none from fits]; rfl)
  · obtain ⟨c,live,block_ok⟩ := good.shared_live (h := h) (b := b) (by simp [cell,Cell.worth])
    exact .inr ⟨b,c,by rw [show ptr = some (s.target b) from fits],live,block_ok,by simp [cell,Cell.owns]⟩

omit [DecidableEq H] in
theorem Good.built_weak {s : State H W} (good : Good s) {w : W} {f : Fields} (cell : s.weak w = .built f) :
    f = .null ∨ ∃ b c, f = ⟨some (s.target b),some b⟩ ∧ s.blocks b = some c ∧
      BlockOk c (census s.shared s.weak b) := by
  have fits := good.weakCells w
  rw [cell] at fits
  obtain ⟨ptr,_|b⟩ := f
  · exact .inl (by rw [show ptr = none from fits]; rfl)
  · obtain ⟨c,live,block_ok⟩ := good.weak_live (w := w) (b := b) (by simp [cell,WeakCell.worth])
    exact .inr ⟨b,c,by rw [show ptr = some (s.target b) from fits],live,block_ok⟩

omit [DecidableEq W] in
/-- An owner is a constructed handle, or a copy whose argument is one. -/
theorem Good.owner {s : State H W} (good : Good s) {h : H} {b : Address} (owns : (s.shared h).owns b = true) :
    ∃ k, s.shared k = .built ⟨some (s.target b),some b⟩ := by
  cases cell : s.shared h with
  | built f =>
    rw [cell,Cell.owns,decide_eq_true_eq] at owns
    obtain rfl | ⟨block,c,rfl,-⟩ := good.built cell
    · contradiction
    · cases owns
      exact ⟨h,cell⟩
  | copied src block =>
    rw [cell,Cell.owns,decide_eq_true_eq] at owns
    have ok := good.cells h
    rw [cell,owns] at ok
    obtain ⟨f,source,here⟩ := ok
    obtain rfl | ⟨other,c,rfl,-⟩ := good.built source
    · contradiction
    · cases here
      exact ⟨src,source⟩
  | _ =>
    rw [cell] at owns
    contradiction

section Results
variable {s : State H W} (owners : Fintype.card H ≤ 2^32) (observers : Fintype.card W < 2^32)
include owners observers

/-- No step ever touches freed memory or deletes something twice. Every handle in
use points to a live object, and `refcount_` counts the owners. -/
theorem handles_safe (reached : (system H W).Reachable s) : s.fault = false ∧
    (∀ h f, s.shared h = .built f → f = .null ∨ ∃ p b c, f = ⟨some p,some b⟩ ∧ s.objects p = true ∧
      s.blocks b = some c ∧ c.refcount = BitVec.ofNat 32 (s.owners b)) ∧
    ∀ w f, s.weak w = .built f → f = .null ∨ ∃ p b c, f = ⟨some p,some b⟩ ∧
      s.blocks b = some c ∧ c.refcount = BitVec.ofNat 32 (s.owners b) := by
  have good := reachable_good owners observers reached
  refine ⟨good.sound,fun h f cell => ?_,fun w f cell => ?_⟩
  · obtain null | ⟨b,c,fields,live,ok,owns⟩ := good.built cell
    · exact .inl null
    · exact .inr ⟨_,b,c,fields,(good.object_iff _).mpr (.inl ⟨h,b,owns,rfl⟩),live,
        ok.refcount.trans (by rw [census_refs])⟩
  · obtain null | ⟨b,c,fields,live,ok⟩ := good.built_weak cell
    · exact .inl null
    · exact .inr ⟨_,b,c,fields,live,ok.refcount.trans (by rw [census_refs])⟩

/-- An object lives exactly as long as a `shared_ptr` holds it or the destructor of
the last one is about to delete it; when all handles are gone or null, so are all
objects and all blocks. -/
theorem lifetimes (reached : (system H W).Reachable s) :
    (∀ p, s.objects p = true ↔ (∃ h f, s.shared h = .built f ∧ f.ptr = some p) ∨ s.Doomed p) ∧
    ((∀ h, s.shared h = .raw ∨ s.shared h = .built .null) → (∀ w, s.weak w = .raw ∨ s.weak w = .built .null) →
      (∀ p, s.objects p = false) ∧ ∀ b, s.blocks b = none) := by
  have good := reachable_good owners observers reached
  have alive (p : Address) : s.objects p = true ↔ (∃ h f, s.shared h = .built f ∧ f.ptr = some p) ∨ s.Doomed p := by
    rw [good.object_iff p]
    apply or_congr_left
    refine ⟨?_,?_⟩
    · rintro ⟨h,b,owns,rfl⟩
      obtain ⟨k,cell⟩ := good.owner owns
      exact ⟨k,_,cell,rfl⟩
    · rintro ⟨h,f,cell,ptr⟩
      obtain rfl | ⟨b,c,rfl,-,-,owns⟩ := good.built cell
      · contradiction
      · exact ⟨h,b,owns,Option.some.inj ptr⟩
  refine ⟨alive,fun handles weaks => ⟨fun p => ?_,fun b => ?_⟩⟩
  · rw [Bool.eq_false_iff,ne_eq,alive p]
    rintro (⟨h,f,cell,ptr⟩ | ⟨h,b,cell⟩) <;> obtain gone | gone := handles h <;> rw [gone] at cell <;>
      cases cell
    contradiction
  · have nobody : census s.shared s.weak b = 0 := by
      unfold census
      rw [tally_eq_zero fun h => ?_,tally_eq_zero fun w => ?_,add_zero]
      · obtain gone | gone := weaks w <;> simp [gone,WeakCell.worth,Fields.null]
      · obtain gone | gone := handles h <;> simp [gone,Cell.worth,Fields.null]
    have balanced := good.balanced b
    cases block : s.blocks b with
    | none => rfl
    | some c =>
      rw [block,nobody] at balanced
      exact absurd balanced.last (by simp [Census.share])

end Results

/-- Two owners of one object, and a `weak_ptr` that looks on. -/
def twoOwners : List (Action (Fin 3) Unit) :=
  [.construct 0 (some 5) 7,.copy 0 1,.observe (.inl 0) (),.advance 1,.advanceWeak (),.advance 1]

theorem twoOwners_reached : ∃ s, (system (Fin 3) Unit).Reachable s ∧ s.shared 0 = .built ⟨some 5,some 7⟩ ∧
    s.shared 1 = .built ⟨some 5,some 7⟩ ∧ s.shared 2 = .raw ∧ s.weak () = .built ⟨some 5,some 7⟩ := by
  refine System.exists_reachable
    (⟨fun _ => .raw,fun _ => .raw,fun _ => none,fun _ => false,fun _ => 0,false⟩ : State (Fin 3) Unit) ?_ twoOwners ?_
  · exact ⟨fun _ => rfl,fun _ => rfl,fun _ => rfl,fun _ => rfl,rfl⟩
  · decide

theorem handles_safe_two : ∃ s : State (Fin 3) Unit, s.weak () = .built ⟨some 5,some 7⟩ ∧ s.fault = false ∧
    s.objects 5 = true := by
  obtain ⟨s,reached,first,-,-,weak⟩ := twoOwners_reached
  have safe := handles_safe (by simp) (by simp) reached
  obtain null | ⟨p,b,c,fields,live,-⟩ := safe.2.1 0 _ first
  · contradiction
  · cases fields
    exact ⟨s,weak,safe.1,live⟩

theorem lifetimes_two : ∃ s : State (Fin 3) Unit, s.shared 1 = .built ⟨some 5,some 7⟩ ∧ s.objects 5 = true := by
  obtain ⟨s,reached,-,second,-⟩ := twoOwners_reached
  exact ⟨s,second,((lifetimes (by simp) (by simp) reached).1 5).mpr (.inl ⟨1,_,second,rfl⟩)⟩

theorem count_toInt {n : Nat} (small : n < 2^31) : (BitVec.ofNat 32 n).toInt = n := by
  have low : (BitVec.ofNat 32 n).toNat = n := by
    rw [BitVec.toNat_ofNat]
    exact Nat.mod_eq_of_lt (by omega)
  rw [BitVec.toInt_eq_toNat_of_lt (by omega),low]

omit [Fintype W] [DecidableEq H] [DecidableEq W] in
theorem owners_le (s : State H W) (b : Address) : s.owners b ≤ Fintype.card H := Finset.card_filter_le _ _

/-- `use_count`, `unique` and `expired` tell the number of owners at the moment they
look, and an object that has not expired is there. -/
theorem use_counts {s : State H W} (owners : Fintype.card H < 2^31) (observers : Fintype.card W < 2^32)
    (reached : (system H W).Reachable s) :
    (∀ h f b, s.shared h = .built f → f.controlBlock = some b → s.useCount f = s.owners b ∧
      (s.unique f = true ↔ ∀ k, (s.shared k).owns b = true → k = h)) ∧
    ∀ w f b, s.weak w = .built f → f.controlBlock = some b → s.weakUseCount f = s.owners b ∧
      (s.expired f = true ↔ ∀ h, (s.shared h).owns b = false) ∧
      (s.expired f = false → ∃ p, f.ptr = some p ∧ s.objects p = true) := by
  have good := reachable_good (by omega) observers reached
  have few (b : Address) : s.owners b < 2^31 := (owners_le s b).trans_lt owners
  refine ⟨fun h f b cell here => ?_,fun w f b cell here => ?_⟩
  · obtain rfl | ⟨block,c,rfl,live,ok,owns⟩ := good.built cell
    · contradiction
    cases here
    have count : s.useCount ⟨some (s.target b),some b⟩ = s.owners b := by
      simp only [State.useCount,live,Option.map_some,Option.getD_some,ok.refcount,census_refs]
      exact count_toInt (few b)
    refine ⟨count,?_⟩
    rw [State.unique,count,beq_iff_eq,Nat.cast_eq_one,State.owners,Finset.card_eq_one]
    refine ⟨?_,fun only => ⟨h,?_⟩⟩
    · rintro ⟨only,singleton⟩ k also
      have of_owner {j : H} (owner : (s.shared j).owns b = true) : j = only := by
        rw [← Finset.mem_singleton,← singleton,Finset.mem_filter]
        exact ⟨Finset.mem_univ j,owner⟩
      exact (of_owner also).trans (of_owner owns).symm
    · ext k
      simp only [Finset.mem_filter,Finset.mem_univ,true_and,Finset.mem_singleton]
      refine ⟨only k,?_⟩
      rintro rfl
      exact owns
  · obtain rfl | ⟨block,c,rfl,live,ok⟩ := good.built_weak cell
    · contradiction
    cases here
    have count : s.weakUseCount ⟨some (s.target b),some b⟩ = s.owners b := by
      simp only [State.weakUseCount,live,Option.map_some,Option.getD_some,ok.refcount,census_refs]
      exact count_toInt (few b)
    have expired : s.expired ⟨some (s.target b),some b⟩ = true ↔ ∀ h, (s.shared h).owns b = false := by
      rw [State.expired,count,beq_iff_eq,Nat.cast_eq_zero,State.owners,Finset.card_eq_zero,Finset.filter_eq_empty_iff]
      simp
    refine ⟨count,expired,fun not_expired => ⟨_,rfl,?_⟩⟩
    rw [Bool.eq_false_iff,ne_eq,expired,not_forall] at not_expired
    obtain ⟨h,owns⟩ := not_expired
    exact (good.object_iff _).mpr (.inl ⟨h,b,by simpa using owns,rfl⟩)

theorem use_counts_two : ∃ s : State (Fin 3) Unit, s.weak () = .built ⟨some 5,some 7⟩ ∧
    s.expired ⟨some 5,some 7⟩ = false ∧ s.unique ⟨some 5,some 7⟩ = false := by
  obtain ⟨s,reached,first,second,-,weak⟩ := twoOwners_reached
  have counts := use_counts (by simp) (by simp) reached
  refine ⟨s,weak,?_,?_⟩
  · rw [Bool.eq_false_iff,ne_eq,(counts.2 () _ 7 weak rfl).2.1,not_forall]
    exact ⟨0,by simp [first,Cell.owns]⟩
  · rw [Bool.eq_false_iff,ne_eq,(counts.1 0 _ 7 first rfl).2]
    intro only
    exact absurd (only 1 (by simp [second,Cell.owns])) (by decide)

/-- Steps of `h` alone lead from `s` to `t` and leave `c` in its memory. -/
structure Quiet (s t : State H W) (h : H) (c : Cell H) : Prop where
  reached : (system H W).Reachable s → (system H W).Reachable t
  shared : t.shared = update s.shared h c
  weak : t.weak = s.weak

section Sequential
variable {s t : State H W} {h : H} {c : Cell H}

theorem Quiet.trans {u : State H W} {d : Cell H} (first : Quiet s t h c) (second : Quiet t u h d) : Quiet s u h d := by
  refine ⟨second.reached ∘ first.reached,?_,second.weak.trans first.weak⟩
  rw [second.shared,first.shared,update_idem]

omit [Fintype H] [Fintype W] [DecidableEq W] in
theorem finish_stop (n : Nat) (stopped : advance s h = none) : finish n s h = s := by
  cases n with
  | zero => rfl
  | succ n => simp only [finish,stopped]

omit [Fintype H] [Fintype W] [DecidableEq W] in
theorem finish_step {n : Nat} (taken : advance s h = some t) : finish (n + 1) s h = finish n t h := by
  simp only [finish,taken]

theorem quiet_delete {f : Fields} (cell : s.shared h = .deleting f) :
    ∃ t, advance s h = some t ∧ Quiet s t h (.dropping f) := by
  have taken := show advance s h = _ by simp only [advance,cell]; rfl
  refine ⟨_,taken,fun reached => reached.step (.advance h) taken,rfl,?_⟩
  unfold State.deleteObject
  split
  · rfl
  · split <;> rfl

variable (good : Good s)
include good

theorem quiet_drop {f : Fields} (cell : s.shared h = .dropping f) :
    ∃ t, advance s h = some t ∧ (Quiet s t h (.freeing f) ∨ Quiet s t h .raw) := by
  have fits := good.cells h
  rw [cell] at fits
  obtain ⟨ptr,_|b⟩ := f
  · exact absurd fits.2 Bool.false_ne_true
  obtain ⟨c,live,-⟩ := good.shared_live (h := h) (b := b) (by simp [cell,Cell.worth])
  have taken := show advance s h = _ by simp only [advance,cell,through_live live]; rfl
  refine ⟨_,taken,?_⟩
  by_cases last : c.weakCount - 1 = 0
  · exact .inl ⟨fun reached => reached.step (.advance h) taken,by rw [if_pos last],rfl⟩
  · exact .inr ⟨fun reached => reached.step (.advance h) taken,by rw [if_neg last],rfl⟩

theorem quiet_free {f : Fields} (cell : s.shared h = .freeing f) :
    ∃ t, advance s h = some t ∧ Quiet s t h .raw := by
  have fits := good.cells h
  rw [cell] at fits
  obtain ⟨ptr,_|b⟩ := f
  · exact absurd fits.2 Bool.false_ne_true
  obtain ⟨c,live,-⟩ := good.shared_live (h := h) (b := b) (by simp [cell,Cell.worth])
  have taken := show advance s h = _ by simp only [advance,cell,through_live live]; rfl
  exact ⟨_,taken,fun reached => reached.step (.advance h) taken,rfl,rfl⟩

theorem quiet_increment {src : H} {b : Address} {ptr : Option Address} (cell : s.shared h = .copying src)
    (source : s.shared src = .built ⟨ptr,some b⟩) : ∃ t, advance s h = some t ∧ Quiet s t h (.copied src b) := by
  obtain ⟨c,live,-⟩ := good.shared_live (h := src) (b := b) (by simp [source,Cell.worth])
  have taken := show advance s h = _ by simp only [advance,cell,source,through_live live]; rfl
  exact ⟨_,taken,fun reached => reached.step (.advance h) taken,rfl,rfl⟩

end Sequential

section Operations
variable {s : State H W} (owners : Fintype.card H ≤ 2^32) (observers : Fintype.card W < 2^32)
include owners observers

/-- A destructor that runs to its end leaves raw memory, however many handles it was the last of. -/
theorem settle_destroyed (reached : (system H W).Reachable s) {h : H} {f : Fields} (cell : s.shared h = .built f)
    (unread : s.Unread (.inl h)) : ∃ t, step s (.destroy h) = some t ∧ Quiet s (settle t h) h .raw := by
  have good := reachable_good owners observers reached
  obtain rfl | ⟨b,c,rfl,live,-,-⟩ := good.built cell
  · have taken := show step s (.destroy h) = _ by
      simp only [step,cell,unread,if_true,Fields.null,Option.isSome_none,Bool.false_eq_true,if_false]; rfl
    refine ⟨_,taken,?_⟩
    rw [settle,finish_stop _ (by simp [advance])]
    exact ⟨fun reached => reached.step (.destroy h) taken,rfl,rfl⟩
  · have taken := show step s (.destroy h) = _ by
      simp only [step,cell,unread,if_true,Option.isSome_some,through_live live]; rfl
    refine ⟨_,taken,?_⟩
    by_cases last : c.refcount - 1 = 0
    · simp only [last,if_true] at taken ⊢
      have first : Quiet s _ h (.deleting ⟨some (s.target b),some b⟩) :=
        ⟨fun reached => reached.step (.destroy h) taken,rfl,rfl⟩
      have here {c : Cell H} {t : State H W} (quiet : Quiet s t h c) : t.shared h = c := by
        rw [quiet.shared,update_self]
      have good_of {c : Cell H} {t : State H W} (quiet : Quiet s t h c) : Good t :=
        reachable_good owners observers (quiet.reached reached)
      obtain ⟨second,deleted,moved⟩ := quiet_delete (here first)
      have second_quiet := first.trans moved
      obtain ⟨third,dropped,freeing | raw⟩ := quiet_drop (good_of second_quiet) (here second_quiet)
      · have third_quiet := second_quiet.trans freeing
        obtain ⟨fourth,freed,moved⟩ := quiet_free (good_of third_quiet) (here third_quiet)
        rw [settle,finish_step deleted,finish_step dropped,finish_step freed]
        exact third_quiet.trans moved
      · have third_quiet := second_quiet.trans raw
        rw [settle,finish_step deleted,finish_step dropped,finish_stop _ (by simp [advance,here third_quiet])]
        exact third_quiet
    · simp only [last,if_false] at taken ⊢
      rw [settle,finish_stop _ (by simp [advance])]
      exact ⟨fun reached => reached.step (.destroy h) taken,rfl,rfl⟩

/-- A copy that runs to its end holds what its argument holds. -/
theorem settle_copied (reached : (system H W).Reachable s) {h src : H} {f : Fields} (raw : s.shared h = .raw)
    (source : s.shared src = .built f) : ∃ t, step s (.copy src h) = some t ∧ Quiet s (settle t h) h (.built f) := by
  have good := reachable_good owners observers reached
  have taken := show step s (.copy src h) = _ by simp only [step,raw,source]; rfl
  refine ⟨_,taken,?_⟩
  have different : src ≠ h := by
    rintro rfl
    rw [raw] at source
    contradiction
  obtain rfl | ⟨b,c,rfl,live,-,-⟩ := good.built source
  · simp only [Fields.null,Option.isSome_none,Bool.false_eq_true,if_false] at taken ⊢
    rw [settle,finish_stop _ (by simp [advance])]
    exact ⟨fun reached => reached.step (.copy src h) taken,rfl,rfl⟩
  · simp only [Option.isSome_some,if_true] at taken ⊢
    have first : Quiet s _ h (.copying src) := ⟨fun reached => reached.step (.copy src h) taken,rfl,rfl⟩
    have kept {c : Cell H} {t : State H W} (quiet : Quiet s t h c) :
        t.shared src = .built ⟨some (s.target b),some b⟩ := by
      rw [quiet.shared,update_of_ne different,source]
    obtain ⟨second,counted,moved⟩ := quiet_increment (reachable_good owners observers (first.reached reached))
      (update_self _ _ _) (kept first)
    have second_quiet := first.trans moved
    have here : second.shared h = .copied src b := by rw [second_quiet.shared,update_self]
    have filled := show advance second h = _ by simp only [advance,here,kept second_quiet]; rfl
    have third_quiet : Quiet s _ h (.built ⟨some (s.target b),some b⟩) :=
      second_quiet.trans ⟨fun reached => reached.step (.advance h) filled,rfl,rfl⟩
    rw [settle,finish_step counted,finish_step filled,finish_stop _ (by simp [advance])]
    exact third_quiet

omit [DecidableEq W] in
omit owners observers in
/-- What a handle holds is not about to be deleted. -/
theorem Good.not_doomed (good : Good s) {h : H} {f : Fields} {p : Address} (cell : s.shared h = .built f)
    (ptr : f.ptr = some p) : ¬s.Doomed p := by
  rintro ⟨k,b,deleting⟩
  obtain rfl | ⟨block,c,rfl,-,ok,owns⟩ := good.built cell
  · contradiction
  have fits := good.cells k
  rw [deleting] at fits
  have deletes : 0 < (census s.shared s.weak b).deletes :=
    good.deletes_pos.mpr ⟨k,(Option.some.inj fits.1 : p = s.target b) ▸ deleting⟩
  have refs : 0 < (census s.shared s.weak block).refs := by
    rw [census_refs]
    exact owners_pos.mpr ⟨h,owns⟩
  have same : block = b := good.distinct block b (Nat.add_pos_left refs _) (Nat.add_pos_right _ deletes)
    ((Option.some.inj ptr).trans (Option.some.inj fits.1))
  have single := ok.single
  rw [same] at single refs
  simp only [Census.share] at single
  omega

omit [DecidableEq W] in
omit owners observers in
/-- Two handles with the same pointer share the block too. -/
theorem Good.built_eq (good : Good s) {h k : H} {f g : Fields} (first : s.shared h = .built f)
    (second : s.shared k = .built g) (same : f.ptr = g.ptr) : f = g := by
  obtain rfl | ⟨b,c,rfl,-,-,owns⟩ := good.built first <;> obtain rfl | ⟨b',c',rfl,-,-,owns'⟩ := good.built second
  · rfl
  · contradiction
  · contradiction
  · have refs : 0 < (census s.shared s.weak b).refs := by
      rw [census_refs]
      exact owners_pos.mpr ⟨h,owns⟩
    have refs' : 0 < (census s.shared s.weak b').refs := by
      rw [census_refs]
      exact owners_pos.mpr ⟨k,owns'⟩
    rw [good.distinct b b' (Nat.add_pos_left refs _) (Nat.add_pos_left refs' _) (Option.some.inj same)]

/-- Only the handle `h` changes hands, from `f` to `g`: its old object survives exactly
if another handle holds it. -/
theorem handover {t : State H W} {h : H} {f g : Fields} (before : (system H W).Reachable s)
    (after : (system H W).Reachable t) (cell : s.shared h = .built f) (moved : t.shared = update s.shared h (.built g))
    (p : Address) : t.objects p = true ↔ g.ptr = some p ∨ (s.objects p = true ∧
      (f.ptr = some p → ∃ k, k ≠ h ∧ ∃ e, s.shared k = .built e ∧ e.ptr = some p)) := by
  have good := reachable_good owners observers before
  have other {k : H} (different : k ≠ h) : t.shared k = s.shared k := by rw [moved,update_of_ne different]
  rw [(lifetimes owners observers after).1 p,(lifetimes owners observers before).1 p]
  refine ⟨?_,?_⟩
  · rintro (⟨k,e,held,ptr⟩ | ⟨k,b,deleting⟩)
    · by_cases same : k = h
      · rw [same,moved,update_self] at held
        cases held
        exact .inl ptr
      · rw [other same] at held
        exact .inr ⟨.inl ⟨k,e,held,ptr⟩,fun _ => ⟨k,same,e,held,ptr⟩⟩
    · have different : k ≠ h := by
        rintro rfl
        rw [moved,update_self] at deleting
        contradiction
      rw [other different] at deleting
      exact .inr ⟨.inr ⟨k,b,deleting⟩,fun ptr => absurd ⟨k,b,deleting⟩ (good.not_doomed cell ptr)⟩
  · rintro (ptr | ⟨⟨k,e,held,ptr⟩ | ⟨k,b,deleting⟩,shared⟩)
    · exact .inl ⟨h,g,by rw [moved,update_self],ptr⟩
    · by_cases same : k = h
      · rw [same,cell] at held
        cases held
        obtain ⟨j,different,e,held,ptr⟩ := shared ptr
        exact .inl ⟨j,e,(other different).trans held,ptr⟩
      · exact .inl ⟨k,e,(other same).trans held,ptr⟩
    · have different : k ≠ h := by
        rintro rfl
        rw [cell] at deleting
        contradiction
      exact .inr ⟨k,b,(other different).trans deleting⟩

omit [Fintype H] [Fintype W] owners observers in
theorem unread_update {t : State H W} {h k : H} {c : Cell H} (unread : s.Unread (.inl k))
    (shared : t.shared = update s.shared h c) (weak : t.weak = s.weak) (quiet : c.reads (.inl k : H ⊕ W) = false) :
    t.Unread (.inl k) := by
  refine ⟨fun j => ?_,fun w => weak ▸ unread.2 w⟩
  rw [shared]
  by_cases same : j = h
  · rw [same,update_self]
    exact quiet
  · rw [update_of_ne same]
    exact unread.1 j

/-- `h.reset(p)` with a new object or with null. -/
theorem reset_hands_over (reached : (system H W).Reachable s) {h tmp : H} {f : Fields} {p : Option Address}
    {block : Address} (target : s.shared h = .built f) (scratch : s.shared tmp = .raw) (unread : s.Unread (.inl h))
    (new : ∀ q, p = some q → s.objects q = false) (room : s.blocks block = none) : ∃ t,
      reset s h p block tmp = some t ∧ (system H W).Reachable t ∧
      t.shared = update s.shared h (.built (if p = none then .null else ⟨p,some block⟩)) ∧ t.weak = s.weak ∧
      ∀ q, t.objects q = true ↔ p = some q ∨ (s.objects q = true ∧
        (f.ptr = some q → ∃ k, k ≠ h ∧ ∃ e, s.shared k = .built e ∧ e.ptr = some q)) := by
  have good := reachable_good owners observers reached
  have apart : h ≠ tmp := by
    rintro rfl
    rw [scratch] at target
    contradiction
  obtain ⟨t,done,later,shared,weak⟩ : ∃ t, reset s h p block tmp = some t ∧ (system H W).Reachable t ∧
      t.shared = update s.shared h (.built (if p = none then .null else ⟨p,some block⟩)) ∧ t.weak = s.weak := by
    by_cases same : p = f.ptr
    · refine ⟨s,by simp only [reset,target,same,ne_eq,not_true_eq_false,if_false],reached,?_,rfl⟩
      obtain rfl | ⟨b,c,rfl,-,-,owns⟩ := good.built target
      · rw [if_pos (show p = none from same),← target,update_eq_self]
      · have live := (good.object_iff _).mpr (.inl ⟨h,b,owns,rfl⟩)
        rw [new _ same] at live
        contradiction
    · have spare : s.Unread (.inl tmp) := good.unread_shared (by simp [scratch])
      obtain ⟨made,construct,shared,weak⟩ : ∃ made, step s (.construct tmp p block) = some made ∧
          made.shared = update s.shared tmp (.built (if p = none then .null else ⟨p,some block⟩)) ∧
          made.weak = s.weak := by
        cases p with
        | none =>
          have taken := show step s (.construct tmp none block) = _ by simp only [step,scratch]; rfl
          exact ⟨_,taken,rfl,rfl⟩
        | some q =>
          have taken := show step s (.construct tmp (some q) block) = _ by
            simp only [step,scratch,new q rfl,room,Option.isNone_none,and_self,if_true]; rfl
          exact ⟨_,taken,rfl,rfl⟩
      have at_h : made.shared h = .built f := by rw [shared,update_of_ne apart,target]
      have at_tmp : made.shared tmp = .built (if p = none then .null else ⟨p,some block⟩) := by
        rw [shared,update_self]
      have h_unread := unread_update unread shared weak rfl
      have tmp_unread := unread_update spare shared weak rfl
      have swap := show step made (.swap tmp h) = _ by
        simp only [step,at_h,at_tmp,h_unread,tmp_unread,and_self,if_true]; rfl
      have swapped := System.Reachable.step (Action.swap tmp h) (reached.step (.construct tmp p block) construct) swap
      obtain ⟨released,destroy,last⟩ := settle_destroyed owners observers swapped
        (by dsimp only; rw [update_of_ne apart.symm,update_self])
        (unread_update (unread_update (t := {made with shared := update made.shared tmp (.built f)})
          tmp_unread rfl rfl rfl) rfl rfl rfl)
      refine ⟨settle released tmp,?_,last.reached swapped,?_,last.weak.trans weak⟩
      · simp only [reset,target,same,ne_eq,not_false_eq_true,if_true,construct,swap,destroy,Option.bind_eq_bind,
          Option.bind_some,Option.pure_def]
      · rw [last.shared]
        dsimp only
        rw [update_comm apart,update_idem,shared,update_idem,← scratch,update_eq_self]
  refine ⟨t,done,later,shared,weak,fun q => ?_⟩
  rw [handover owners observers reached later target shared q]
  apply or_congr_left
  cases p <;> simp [Fields.null]

/-- `*dst = *src`, whatever the two handles held: afterwards both hold what `src`
held, no other handle has changed, and of the objects only the one that `dst` let go
can be gone, and is if nobody else holds it. -/
theorem assign_hands_over (reached : (system H W).Reachable s) {dst src me : H} {f g : Fields}
    (target : s.shared dst = .built f) (source : s.shared src = .built g) (scratch : s.shared me = .raw)
    (unread : s.Unread (.inl dst)) : ∃ t, assign s dst src me = some t ∧ (system H W).Reachable t ∧
      t.shared = update s.shared dst (.built g) ∧ t.weak = s.weak ∧
      ∀ p, t.objects p = true ↔ g.ptr = some p ∨ (s.objects p = true ∧
        (f.ptr = some p → ∃ k, k ≠ dst ∧ ∃ e, s.shared k = .built e ∧ e.ptr = some p)) := by
  have good := reachable_good owners observers reached
  have apart : dst ≠ me := by
    rintro rfl
    rw [scratch] at target
    contradiction
  obtain ⟨t,assigned,later,shared,weak⟩ : ∃ t, assign s dst src me = some t ∧ (system H W).Reachable t ∧
      t.shared = update s.shared dst (.built g) ∧ t.weak = s.weak := by
    by_cases same : f.ptr = g.ptr
    · refine ⟨s,by simp only [assign,target,source,same,ne_eq,not_true_eq_false,if_false],reached,?_,rfl⟩
      rw [← good.built_eq target source same,← target,update_eq_self]
    · have spare : s.Unread (.inl me) := good.unread_shared (by simp [scratch])
      obtain ⟨copied,copy,first⟩ := settle_copied owners observers reached scratch source
      have at_dst : (settle copied me).shared dst = .built f := by rw [first.shared,update_of_ne apart,target]
      have at_me : (settle copied me).shared me = .built g := by rw [first.shared,update_self]
      have dst_unread := unread_update unread first.shared first.weak rfl
      have me_unread := unread_update spare first.shared first.weak rfl
      have swap := show step (settle copied me) (.swap dst me) = _ by
        simp only [step,at_dst,at_me,dst_unread,me_unread,and_self,if_true]; rfl
      have swapped := System.Reachable.step (Action.swap dst me) (first.reached reached) swap
      obtain ⟨released,destroy,last⟩ := settle_destroyed owners observers swapped (update_self _ _ _)
        (unread_update (unread_update (t := {settle copied me with shared := update (settle copied me).shared dst (.built g)})
          me_unread rfl rfl rfl) rfl rfl rfl)
      refine ⟨settle released me,?_,last.reached swapped,?_,last.weak.trans first.weak⟩
      · simp only [assign,target,source,same,ne_eq,not_false_eq_true,if_true,copy,swap,destroy,Option.bind_eq_bind,
          Option.bind_some,Option.pure_def]
      · rw [last.shared]
        dsimp only
        rw [update_idem,first.shared,update_comm apart,update_idem,← scratch,update_eq_self]
  exact ⟨t,assigned,later,shared,weak,handover owners observers reached later target shared⟩

end Operations

theorem assign_hands_over_self : ∃ s t : State (Fin 3) Unit, assign s 0 1 2 = some t ∧ t.objects 5 = true := by
  obtain ⟨s,reached,first,second,scratch,weak⟩ := twoOwners_reached
  have unread : s.Unread (.inl 0) := by
    refine ⟨fun h => ?_,fun w => ?_⟩
    · obtain rfl | rfl | rfl : h = 0 ∨ h = 1 ∨ h = 2 := by omega
      · simp only [first,Cell.reads]
      · simp only [second,Cell.reads]
      · simp only [scratch,Cell.reads]
    · simp only [weak,WeakCell.reads]
  obtain ⟨t,assigned,-,-,-,objects⟩ := assign_hands_over (by simp) (by simp) reached first second scratch unread
  exact ⟨s,t,assigned,(objects 5).mpr (.inl rfl)⟩

end WebSearch.SharedPtr
