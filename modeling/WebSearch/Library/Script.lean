import Mathlib.Data.List.Basic

/-! Straight-line scripts. A command uses variables and assigns at most one. A script that
is made of blocks is well scoped when every block is, given what the blocks before it
assign. -/
namespace WebSearch.Library.Script

class Command (C : Type) (V : outParam Type) where
  uses : C → List V
  assigns : C → Option V

open Command
variable {C V B : Type} [Command C V]

def Assigned (script : List C) (v : V) : Prop := ∃ c ∈ script, assigns c = some v

def Used (script : List C) (v : V) : Prop := ∃ c ∈ script, v ∈ uses c

/-- Every variable that a command uses is assigned by an earlier command. -/
def WellScoped (script : List C) : Prop :=
  ∀ earlier c later, script = earlier ++ c :: later → ∀ v ∈ uses c, Assigned earlier v

/-- The same for a script that is run when some variables are known. -/
def ScopedIn (known : V → Prop) : List C → Prop
  | [] => True
  | c :: rest => (∀ v ∈ uses c, known v) ∧ ScopedIn (fun v => known v ∨ assigns c = some v) rest

@[simp] theorem assigned_nil {v : V} : ¬Assigned ([] : List C) v := by
  simp [Assigned]

@[simp] theorem assigned_cons {c : C} {script : List C} {v : V} :
    Assigned (c :: script) v ↔ assigns c = some v ∨ Assigned script v := by
  simp [Assigned]

@[simp] theorem assigned_append {first second : List C} {v : V} :
    Assigned (first ++ second) v ↔ Assigned first v ∨ Assigned second v := by
  simp [Assigned,or_and_right,exists_or]

@[simp] theorem assigned_flatMap {blocks : List B} {block : B → List C} {v : V} :
    Assigned (blocks.flatMap block) v ↔ ∃ b ∈ blocks, Assigned (block b) v := by
  simp only [Assigned,List.mem_flatMap]
  constructor
  · intro ⟨c,⟨b,member,inside⟩,sets⟩
    exact ⟨b,member,c,inside,sets⟩
  · intro ⟨b,member,c,inside,sets⟩
    exact ⟨c,⟨b,member,inside⟩,sets⟩

@[simp] theorem assigned_ite {p : Prop} [Decidable p] {first second : List C} {v : V} :
    Assigned (if p then first else second) v ↔ (p ∧ Assigned first v) ∨ (¬p ∧ Assigned second v) := by
  split <;> simp [*]

@[simp] theorem used_nil {v : V} : ¬Used ([] : List C) v := by
  simp [Used]

@[simp] theorem used_cons {c : C} {script : List C} {v : V} : Used (c :: script) v ↔ v ∈ uses c ∨ Used script v := by
  simp [Used]

@[simp] theorem used_append {first second : List C} {v : V} : Used (first ++ second) v ↔ Used first v ∨ Used second v := by
  simp [Used,or_and_right,exists_or]

theorem scopedIn_iff {known : V → Prop} {script : List C} : ScopedIn known script ↔
    ∀ earlier c later, script = earlier ++ c :: later → ∀ v ∈ uses c, known v ∨ Assigned earlier v := by
  induction script generalizing known with
  | nil => simp [ScopedIn]
  | cons first rest ih =>
    rw [ScopedIn,ih]
    constructor
    · intro ⟨head,tail⟩ earlier c later split v used
      cases earlier with
      | nil =>
        obtain ⟨rfl,rfl⟩ := List.cons.inj split
        exact .inl (head v used)
      | cons d earlier =>
        obtain ⟨rfl,tail_split⟩ := List.cons.inj split
        rw [assigned_cons,← or_assoc]
        exact tail earlier c later tail_split v used
    · intro all
      refine ⟨fun v used => ?_,fun earlier c later split v used => ?_⟩
      · exact (all [] first rest rfl v used).resolve_right assigned_nil
      · rw [or_assoc,← assigned_cons]
        exact all (first :: earlier) c later (by rw [split,List.cons_append]) v used

theorem wellScoped_iff {script : List C} : WellScoped script ↔ ScopedIn (fun _ => False) script := by
  simp only [WellScoped,scopedIn_iff,false_or]

theorem ScopedIn.mono {known more : V → Prop} {script : List C} (given : ScopedIn known script)
    (grows : ∀ v, known v → more v) : ScopedIn more script := by
  rw [scopedIn_iff] at given ⊢
  intro earlier c later split v used
  exact (given earlier c later split v used).imp_left (grows v)

theorem scopedIn_known {known : V → Prop} {script : List C} (all : ∀ c ∈ script, ∀ v ∈ uses c, known v) : ScopedIn known script := by
  rw [scopedIn_iff]
  intro earlier c later split v used
  exact .inl (all c (by simp [split]) v used)

theorem scopedIn_append {known : V → Prop} {first second : List C} : ScopedIn known (first ++ second) ↔
    ScopedIn known first ∧ ScopedIn (fun v => known v ∨ Assigned first v) second := by
  induction first generalizing known with
  | nil => simp [ScopedIn]
  | cons c first ih => simp only [List.cons_append,ScopedIn,ih,and_assoc,assigned_cons,or_assoc]

theorem scopedIn_flatMap {known : V → Prop} {blocks : List B} {block : B → List C} :
    ScopedIn known (blocks.flatMap block) ↔ ∀ before b after, blocks = before ++ b :: after →
      ScopedIn (fun v => known v ∨ ∃ a ∈ before, Assigned (block a) v) (block b) := by
  induction blocks generalizing known with
  | nil => simp [ScopedIn]
  | cons first rest ih =>
    rw [List.flatMap_cons,scopedIn_append,ih]
    constructor
    · intro ⟨head,tail⟩ before b after split
      cases before with
      | nil =>
        obtain ⟨rfl,rfl⟩ := List.cons.inj split
        exact head.mono fun v => .inl
      | cons a before =>
        obtain ⟨rfl,tail_split⟩ := List.cons.inj split
        apply (tail before b after tail_split).mono
        intro v set
        simpa only [List.exists_mem_cons_iff,or_assoc] using set
    · intro all
      refine ⟨(all [] first rest rfl).mono fun v set => by simpa using set,fun before b after split => ?_⟩
      apply (all (first :: before) b after (by rw [split,List.cons_append])).mono
      intro v set
      simpa only [List.exists_mem_cons_iff,or_assoc] using set

/-- What assigns nothing can be passed over. -/
theorem scopedIn_silent {known : V → Prop} {first second : List C} (silent : ∀ v, ¬Assigned first v) :
    ScopedIn known (first ++ second) ↔ ScopedIn known first ∧ ScopedIn known second := by
  simp only [scopedIn_append,silent,or_false]

/-- A block that only needs its imports, and uses each of them, is well scoped exactly
when they are known. -/
theorem scopedIn_imports {known imports : V → Prop} {block : List C} (enough : ScopedIn imports block)
    (used : ∀ v, imports v → Used block v) (foreign : ∀ v, imports v → ¬Assigned block v) :
    ScopedIn known block ↔ ∀ v, imports v → known v := by
  constructor
  · intro given v needed
    obtain ⟨c,inside,reads⟩ := used v needed
    obtain ⟨earlier,later,split⟩ := List.append_of_mem inside
    rcases scopedIn_iff.mp given earlier c later split v reads with done | own
    · exact done
    · rw [split] at foreign
      exact absurd (assigned_append.mpr (.inl own)) (foreign v needed)
  · intro all
    exact enough.mono all

/-! The same by computation. -/

def check [DecidableEq V] (known : List V) : List C → Bool
  | [] => true
  | c :: rest => (uses c).all (fun v => v ∈ known) && check ((assigns c).toList ++ known) rest

theorem check_iff [DecidableEq V] {known : List V} {script : List C} :
    check known script = true ↔ ScopedIn (fun v => v ∈ known) script := by
  induction script generalizing known with
  | nil => simp [check,ScopedIn]
  | cons c rest ih =>
    have grown : (fun v => v ∈ (assigns c).toList ++ known) = fun v => v ∈ known ∨ assigns c = some v := by
      funext v
      rw [List.mem_append,Option.mem_toList,or_comm]
    rw [check,Bool.and_eq_true,ih,grown,ScopedIn,List.all_eq_true]
    simp only [decide_eq_true_eq]

instance [DecidableEq V] (script : List C) : Decidable (WellScoped script) :=
  decidable_of_iff (check [] script = true) (by rw [check_iff,wellScoped_iff]; simp only [List.not_mem_nil])

end WebSearch.Library.Script
