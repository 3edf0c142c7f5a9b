import Mathlib.Data.List.Perm.Basic
import Mathlib.Data.List.Nodup

/-! `base/at_exit.{h,cc}`: the stack of `AtExitManager`s. A callback is a function with
its parameter, here one value of `κ`. -/
namespace WebSearch.AtExit

/-- `g_top_manager` and its chain of `next_manager_`s, each with its `stack_`, the
callback registered last on top. -/
abbrev Managers (κ : Type) := List (List κ)

variable {κ σ : Type}

/-- The constructor that may shadow another manager. -/
def shadow (managers : Managers κ) : Managers κ := [] :: managers

/-- Without a manager the callback is dropped. -/
def registerCallback (managers : Managers κ) (callback : κ) : Managers κ :=
  match managers with
  | [] => []
  | stack :: below => (callback :: stack) :: below

/-- The loop of `ProcessCallbacksNow`, with what a callback does to the rest of the program. -/
def callAll (call : κ → σ → σ) : List κ → σ → σ
  | [],world => world
  | top :: stack,world => callAll call stack (call top world)

def processCallbacksNow (call : κ → σ → σ) (managers : Managers κ) (world : σ) : Managers κ × σ :=
  match managers with
  | [] => ([],world)
  | stack :: below => ([] :: below,callAll call stack world)

/-- The destructor of the manager on top. -/
def destroy (call : κ → σ → σ) (managers : Managers κ) (world : σ) : Managers κ × σ :=
  let processed := processCallbacksNow call managers world
  (processed.1.tail,processed.2)

/-! Managers that come and go, with all callbacks that were accepted and all that have run. -/

structure History (κ : Type) where
  managers : Managers κ
  registered : List κ
  ran : List κ

inductive Operation (κ : Type)
  | shadow
  | register (callback : κ)
  | process
  | destroy

def History.step (h : History κ) : Operation κ → History κ
  | .shadow => {h with managers := shadow h.managers}
  | .register c => ⟨registerCallback h.managers c,if h.managers.isEmpty then h.registered else h.registered ++ [c],h.ran⟩
  | .process =>
    let processed := processCallbacksNow (fun c ran => ran ++ [c]) h.managers h.ran
    ⟨processed.1,h.registered,processed.2⟩
  | .destroy =>
    let destroyed := destroy (fun c ran => ran ++ [c]) h.managers h.ran
    ⟨destroyed.1,h.registered,destroyed.2⟩

theorem callAll_log (stack ran : List κ) : callAll (fun c ran => ran ++ [c]) stack ran = ran ++ stack := by
  induction stack generalizing ran with
  | nil => simp [callAll]
  | cons c stack ih => simp [callAll,ih]

theorem step_perm {h : History κ} (once : h.registered.Perm (h.ran ++ h.managers.flatten)) (o : Operation κ) :
    (h.step o).registered.Perm ((h.step o).ran ++ (h.step o).managers.flatten) := by
  obtain ⟨managers,registered,ran⟩ := h
  cases o with
  | shadow => simpa [History.step,shadow] using once
  | register c =>
    cases managers with
    | nil => simpa [History.step,registerCallback] using once
    | cons stack below =>
      have more : (registered ++ [c]).Perm (c :: registered) := List.perm_append_singleton c registered
      refine more.trans ((once.cons c).trans ?_)
      exact List.perm_middle.symm
  | process =>
    cases managers with
    | nil => simpa [History.step,processCallbacksNow] using once
    | cons stack below => simpa [History.step,processCallbacksNow,callAll_log] using once
  | destroy =>
    cases managers with
    | nil => simpa [History.step,destroy,processCallbacksNow] using once
    | cons stack below => simpa [History.step,destroy,processCallbacksNow,callAll_log] using once

/-- Whatever shadows what: once all managers are gone, each accepted callback has run exactly once. -/
theorem all_run_once (operations : List (Operation κ))
    (gone : (operations.foldl History.step ⟨[],[],[]⟩).managers = []) :
    (operations.foldl History.step ⟨[],[],[]⟩).registered.Perm (operations.foldl History.step ⟨[],[],[]⟩).ran := by
  have run (h : History κ) (once : h.registered.Perm (h.ran ++ h.managers.flatten)) :
      (operations.foldl History.step h).registered.Perm
        ((operations.foldl History.step h).ran ++ (operations.foldl History.step h).managers.flatten) := by
    clear gone
    induction operations generalizing h with
    | nil => exact once
    | cons o operations ih => exact ih _ (step_perm once o)
  simpa [gone] using run ⟨[],[],[]⟩ (by simp)

end WebSearch.AtExit
