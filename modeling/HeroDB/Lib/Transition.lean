-- Transition systems: an action takes a state to at most one next state. A property that
-- holds at the start and that each step keeps holds in every state of every run.
import Mathlib.Logic.Basic

namespace hero.transition

universe u v

/-- The first states of a system, and the state after an action. An action that is not
enabled gives `none`. -/
structure System (σ : Type u) (α : Type v) where
  init : σ → Prop
  step : σ → α → Option σ

namespace System

variable {σ : Type u} {α : Type v} (S : System σ α)

/-- A run from one state to another in which each step meets `ok`, a condition on the action
and on the state before it. -/
inductive Run (ok : σ → α → Prop) (s : σ) : σ → Prop
  | refl : Run ok s s
  | snoc {t u : σ} {a : α} : Run ok s t → ok t a → S.step t a = some u → Run ok s u

/-- A run from a first state reaches the state, and each step of the run meets `ok`. -/
def ReachableBy (ok : σ → α → Prop) (t : σ) : Prop := ∃ s, S.init s ∧ S.Run ok s t

/-- Some run from a first state reaches the state. -/
def Reachable (t : σ) : Prop := S.ReachableBy (fun _ _ => True) t

/-- The state after a list of actions, or `none` when one of them is not enabled. -/
def exec (s : σ) : List α → Option σ
  | [] => some s
  | a :: rest => (S.step s a).bind (fun t => exec t rest)

variable {S}

theorem Run.mono {ok ok' : σ → α → Prop} (himp : ∀ s a, ok s a → ok' s a) {s t : σ}
    (h : S.Run ok s t) : S.Run ok' s t := by
  induction h with
  | refl => exact .refl
  | snoc _ hok hstep ih => exact .snoc ih (himp _ _ hok) hstep

/-- The rule for a run: a property of its first state that each allowed step keeps is a
property of its last state. -/
theorem Run.keeps {ok : σ → α → Prop} {I : σ → Prop} {s t : σ} (h : S.Run ok s t)
    (hs : I s) (hstep : ∀ s a t, I s → ok s a → S.step s a = some t → I t) : I t := by
  induction h with
  | refl => exact hs
  | snoc _ hok ht ih => exact hstep _ _ _ ih hok ht

/-- The rule for an invariant of the states that the allowed runs reach. -/
theorem ReachableBy.invariant {ok : σ → α → Prop} {I : σ → Prop} {t : σ}
    (h : S.ReachableBy ok t) (hinit : ∀ s, S.init s → I s)
    (hstep : ∀ s a t, I s → ok s a → S.step s a = some t → I t) : I t := by
  obtain ⟨s, hs, hrun⟩ := h
  exact hrun.keeps (hinit s hs) hstep

/-- The rule for an invariant of every reachable state. -/
theorem Reachable.invariant {I : σ → Prop} {t : σ} (h : S.Reachable t)
    (hinit : ∀ s, S.init s → I s) (hstep : ∀ s a t, I s → S.step s a = some t → I t) : I t :=
  ReachableBy.invariant h hinit (fun s a t hI _ ht => hstep s a t hI ht)

/-- A condition that an invariant gives holds at every step of a run. -/
theorem Run.by_invariant {ok : σ → α → Prop} {I : σ → Prop} {s t : σ}
    (h : S.Run (fun _ _ => True) s t) (hs : I s)
    (hstep : ∀ s a t, I s → S.step s a = some t → I t) (hok : ∀ s a, I s → ok s a) :
    S.Run ok s t := by
  suffices hboth : S.Run ok s t ∧ I t from hboth.1
  induction h with
  | refl => exact ⟨.refl, hs⟩
  | snoc _ _ ht ih =>
    obtain ⟨hrun, hI⟩ := ih
    exact ⟨.snoc hrun (hok _ _ hI) ht, hstep _ _ _ hI ht⟩

theorem Reachable.by_invariant {ok : σ → α → Prop} {I : σ → Prop} {t : σ} (h : S.Reachable t)
    (hinit : ∀ s, S.init s → I s) (hstep : ∀ s a t, I s → S.step s a = some t → I t)
    (hok : ∀ s a, I s → ok s a) : S.ReachableBy ok t := by
  obtain ⟨s, hs, hrun⟩ := h
  exact ⟨s, hs, hrun.by_invariant (hinit s hs) hstep hok⟩

theorem Run.head {ok : σ → α → Prop} {s t u : σ} {a : α} (hok : ok s a)
    (hst : S.step s a = some t) (h : S.Run ok t u) : S.Run ok s u := by
  induction h with
  | refl => exact .snoc .refl hok hst
  | snoc _ hok' hstep ih => exact .snoc ih hok' hstep

theorem Run.trans {ok : σ → α → Prop} {s t u : σ} (h : S.Run ok s t) (h' : S.Run ok t u) :
    S.Run ok s u := by
  induction h' with
  | refl => exact h
  | snoc _ hok hstep ih => exact .snoc ih hok hstep

/-- A run of a system with one action goes on. -/
theorem run_on {S : System σ Unit} {s t u : σ} (h : S.Run (fun _ _ => True) s t)
    (hstep : S.step t () = some u) : S.Run (fun _ _ => True) s u :=
  .snoc h trivial hstep

/-- A list of enabled actions is a run. -/
theorem run_of_exec {s t : σ} {as : List α} (h : S.exec s as = some t) :
    S.Run (fun _ _ => True) s t := by
  induction as generalizing s with
  | nil => cases h; exact .refl
  | cons a rest ih =>
    simp only [exec, Option.bind_eq_some_iff] at h
    obtain ⟨u, hu, hrest⟩ := h
    exact .head trivial hu (ih hrest)

/-- The state after a list of actions that each pass a test, or `none`. -/
def exec_tested (S : System σ α) (test : σ → α → Bool) (s : σ) : List α → Option σ
  | [] => some s
  | a :: rest =>
    if test s a then (S.step s a).bind (fun t => S.exec_tested test t rest) else none

/-- A list of enabled actions that pass the test is a run that meets what the test implies. -/
theorem run_of_exec_tested {ok : σ → α → Prop} {test : σ → α → Bool}
    (himp : ∀ s a, test s a = true → ok s a) {s t : σ} {as : List α}
    (h : S.exec_tested test s as = some t) : S.Run ok s t := by
  induction as generalizing s with
  | nil => cases h; exact .refl
  | cons a rest ih =>
    simp only [exec_tested] at h
    split at h
    · rename_i htest
      rw [Option.bind_eq_some_iff] at h
      obtain ⟨u, hu, hrest⟩ := h
      exact .head (himp s a htest) hu (ih hrest)
    · cases h

/-! ## Logs -/

/-- A system together with the log of what an observer sees of each step. -/
def watched {ε : Type*} (S : System σ α) (observe : σ → α → Option ε) : System (σ × List ε) α where
  init t := S.init t.1 ∧ t.2 = []
  step t a := (S.step t.1 a).map (fun s => (s, t.2 ++ (observe t.1 a).toList))

/-- A step of the watched system is a step of the system, and its observation goes to the log. -/
theorem watched_step {ε : Type*} {observe : σ → α → Option ε} {t u : σ × List ε} {a : α}
    (h : (S.watched observe).step t a = some u) :
    S.step t.1 a = some u.1 ∧ u.2 = t.2 ++ (observe t.1 a).toList := by
  obtain ⟨s, hstep, rfl⟩ := Option.map_eq_some_iff.mp h
  exact ⟨hstep, rfl⟩

end System

end hero.transition
