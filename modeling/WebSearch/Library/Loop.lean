import Mathlib.Data.List.Basic

/-! Loops over a list that may fail. The invariant speaks of the elements the
loop has gone through. -/
namespace WebSearch.Library
variable {α β : Type} {m : Type → Type} [Monad m] [LawfulMonad m]

theorem except_bind_ok {ε : Type} {first : Except ε α} {next : α → Except ε β} {b : β} :
    first >>= next = .ok b ↔ ∃ a, first = .ok a ∧ next a = .ok b := by
  constructor
  · intro ended
    cases first with
    | error failure => cases ended
    | ok a => exact ⟨a,rfl,ended⟩
  · rintro ⟨a,rfl,ended⟩
    exact ended

theorem snoc_split {list before after : List β} {x y : β} (split : list ++ [y] = before ++ x :: after) :
    (before = list ∧ x = y ∧ after = []) ∨ ∃ rest, after = rest ++ [y] ∧ list = before ++ x :: rest := by
  rcases List.eq_nil_or_concat' after with rfl | ⟨rest,last,rfl⟩
  · obtain ⟨same,last⟩ := List.append_inj' split rfl
    exact .inl ⟨same.symm,(List.singleton_inj.mp last).symm,rfl⟩
  · rw [← List.cons_append,← List.append_assoc] at split
    obtain ⟨same,last⟩ := List.append_inj' split rfl
    exact .inr ⟨rest,by rw [List.singleton_inj.mp last],same⟩

theorem foldlM_ok {f : β → α → m β} (inv : List α → β → Prop) {xs : List α}
    (step : ∀ done x rest b, xs = done ++ x :: rest → inv done b → ∃ b', f b x = pure b' ∧ inv (done ++ [x]) b')
    {b : β} (start : inv [] b) : ∃ b', xs.foldlM f b = pure b' ∧ inv xs b' := by
  suffices general : ∀ rest done b, xs = done ++ rest → inv done b →
      ∃ b', rest.foldlM f b = pure b' ∧ inv xs b' from general xs [] b rfl start
  intro rest
  induction rest with
  | nil =>
    intro done b split before
    rw [List.append_nil] at split
    exact ⟨b,rfl,split ▸ before⟩
  | cons x rest ih =>
    intro done b split before
    obtain ⟨middle,stepped,after⟩ := step done x rest b split before
    obtain ⟨final,folded,holds⟩ := ih (done ++ [x]) middle (by rw [split,List.append_assoc,List.singleton_append]) after
    refine ⟨final,?_,holds⟩
    rw [List.foldlM_cons,stepped,pure_bind]
    exact folded

/-- The same for a loop that is known to have ended. -/
theorem foldlM_some {f : β → α → Option β} (inv : List α → β → Prop) {xs : List α}
    (step : ∀ done x rest b b', xs = done ++ x :: rest → inv done b → f b x = some b' → inv (done ++ [x]) b')
    {b final : β} (start : inv [] b) (ended : xs.foldlM f b = some final) : inv xs final := by
  suffices general : ∀ rest done b, xs = done ++ rest → inv done b → rest.foldlM f b = some final → inv xs final from
    general xs [] b rfl start ended
  intro rest
  induction rest with
  | nil =>
    intro done b split before ended
    rw [List.append_nil] at split
    rw [split]
    exact Option.some.inj ended ▸ before
  | cons x rest ih =>
    intro done b split before ended
    rw [List.foldlM_cons] at ended
    obtain ⟨middle,stepped,later⟩ := Option.bind_eq_some_iff.mp ended
    exact ih (done ++ [x]) middle (by rw [split,List.append_assoc,List.singleton_append])
      (step done x rest b middle split before stepped) later

/-- The same for a loop that stops at an error. -/
theorem foldlM_except {ε : Type} {f : β → α → Except ε β} (inv : List α → β → Prop) {xs : List α}
    (step : ∀ done x rest b b', xs = done ++ x :: rest → inv done b → f b x = .ok b' → inv (done ++ [x]) b')
    {b final : β} (start : inv [] b) (ended : xs.foldlM f b = .ok final) : inv xs final := by
  have total : xs.foldlM (fun b x => (f b x).toOption) b = some final := by
    clear step start
    induction xs generalizing b with
    | nil => exact congrArg some (Except.ok.inj ended)
    | cons x xs ih =>
      rw [List.foldlM_cons] at ended ⊢
      cases first : f b x with
      | error failure =>
        rw [first] at ended
        cases ended
      | ok middle =>
        rw [first] at ended
        exact ih ended
  refine foldlM_some inv (fun done x rest b b' split before stepped => ?_) start total
  apply step done x rest b b' split before
  cases called : f b x with
  | error failure =>
    rw [called] at stepped
    cases stepped
  | ok next =>
    rw [called] at stepped
    exact congrArg Except.ok (Option.some.inj stepped)

theorem mapM_map_ok {γ : Type} {f : β → m γ} {g : α → β} {h : α → γ} {xs : List α}
    (each : ∀ x ∈ xs, f (g x) = pure (h x)) : (xs.map g).mapM f = pure (xs.map h) := by
  induction xs with
  | nil => rfl
  | cons x xs ih =>
    rw [List.map_cons,List.mapM_cons,each x List.mem_cons_self,pure_bind,
      ih fun later member => each later (List.mem_cons_of_mem _ member),pure_bind]
    rfl

theorem mapM_range'_ok {f : Nat → m α} {start : Nat} {xs : List α} (each : ∀ i x, xs[i]? = some x → f (start + i) = pure x) :
    (List.range' start xs.length).mapM f = pure xs := by
  induction xs generalizing start with
  | nil => rfl
  | cons x xs ih =>
    have rest : ∀ i y, xs[i]? = some y → f (start + 1 + i) = pure y := by
      intro i y found
      have there := each (i + 1) y found
      rwa [← Nat.add_assoc,Nat.add_right_comm] at there
    have first : f start = pure x := each 0 x rfl
    rw [List.length_cons,List.range'_succ,List.mapM_cons,first,pure_bind,ih rest,pure_bind]

theorem mapM_range_ok {f : Nat → m α} {xs : List α} (each : ∀ i x, xs[i]? = some x → f i = pure x) :
    (List.range xs.length).mapM f = pure xs := by
  rw [List.range_eq_range']
  apply mapM_range'_ok
  intro i x found
  rw [Nat.zero_add]
  exact each i x found

/-- A loop whose body either goes on or stops with an error of a known kind. -/
theorem foldlM_or_error {ε : Type} {f : β → α → Except ε β} (inv : List α → β → Prop) (stopped : ε → Prop) {xs : List α}
    (step : ∀ done x rest b, xs = done ++ x :: rest → inv done b →
      (∃ b', f b x = .ok b' ∧ inv (done ++ [x]) b') ∨ ∃ failure, f b x = .error failure ∧ stopped failure)
    {b : β} (start : inv [] b) :
    (∃ b', xs.foldlM f b = .ok b' ∧ inv xs b') ∨ ∃ failure, xs.foldlM f b = .error failure ∧ stopped failure := by
  suffices general : ∀ rest done b, xs = done ++ rest → inv done b →
      (∃ b', rest.foldlM f b = .ok b' ∧ inv xs b') ∨ ∃ failure, rest.foldlM f b = .error failure ∧ stopped failure from
    general xs [] b rfl start
  intro rest
  induction rest with
  | nil =>
    intro done b split before
    rw [List.append_nil] at split
    exact .inl ⟨b,rfl,split ▸ before⟩
  | cons x rest ih =>
    intro done b split before
    rw [List.foldlM_cons]
    obtain ⟨middle,stepped,after⟩ | ⟨failure,failed,known⟩ := step done x rest b split before
    · rw [stepped]
      exact ih (done ++ [x]) middle (by rw [split,List.append_assoc,List.singleton_append]) after
    · rw [failed]
      exact .inr ⟨failure,rfl,known⟩

end WebSearch.Library
