import Mathlib.Data.List.Basic
import Mathlib.Logic.Relation

/-!
# Runs of a guarded transition system

A system is a partial step function on states and actions; an action whose guard
fails has no successor. `Reach` collects the states of all runs whose every step
meets a condition on the state before the step and the action taken. `run` is the
executable counterpart: it replays a list of actions and checks the condition.
-/
namespace RdmaMiddleware.TransitionSystem

variable {σ α : Type*}

/-- An initial-state predicate and a partial step function. -/
structure System (σ α : Type*) where
  init : σ → Prop
  step : σ → α → Option σ

/-- States reached from an initial one by steps that all meet `cond`. -/
inductive Reach (sys : System σ α) (cond : σ → α → Prop) : σ → Prop
  | start {s : σ} (h : sys.init s) : Reach sys cond s
  | next {s t : σ} {a : α} (hs : Reach sys cond s) (hc : cond s a)
      (ht : sys.step s a = some t) : Reach sys cond t

/-- The unconditional runs. -/
abbrev Reachable (sys : System σ α) : σ → Prop := Reach sys (fun _ _ => True)

variable {sys : System σ α} {cond cond' : σ → α → Prop}

/-- What holds initially and is preserved by one step holds in every state of a run. -/
theorem Reach.invariant {P : σ → Prop} (h0 : ∀ s, sys.init s → P s)
    (hstep : ∀ s a t, P s → cond s a → sys.step s a = some t → P t)
    {s : σ} (h : Reach sys cond s) : P s := by
  induction h with
  | start h => exact h0 _ h
  | next _ hc ht ih => exact hstep _ _ _ ih hc ht

/-- A second invariant may use one already established of the same runs. -/
theorem Reach.invariant_of {Q P : σ → Prop} (haux : ∀ s, Reach sys cond s → Q s)
    (h0 : ∀ s, sys.init s → P s)
    (hstep : ∀ s a t, Q s → P s → cond s a → sys.step s a = some t → P t)
    {s : σ} (h : Reach sys cond s) : P s := by
  induction h with
  | start h => exact h0 _ h
  | next hs hc ht ih => exact hstep _ _ _ (haux _ hs) ih hc ht

/-- A relation under which the second system stands still or takes a step of its own, for
each step of the first. -/
theorem Reach.simulation {τ β : Type*} {abs : System τ β} {condAbs : τ → β → Prop}
    {R : σ → τ → Prop} (h0 : ∀ s, sys.init s → ∃ t, abs.init t ∧ R s t)
    (hstep : ∀ s a s' t, Reach abs condAbs t → R s t → cond s a → sys.step s a = some s' →
      R s' t ∨ ∃ b t', condAbs t b ∧ abs.step t b = some t' ∧ R s' t')
    {s : σ} (h : Reach sys cond s) : ∃ t, Reach abs condAbs t ∧ R s t := by
  induction h with
  | start h =>
    obtain ⟨t, ht, hR⟩ := h0 _ h
    exact ⟨t, .start ht, hR⟩
  | next _ hc hs ih =>
    obtain ⟨t, ht, hR⟩ := ih
    rcases hstep _ _ _ t ht hR hc hs with hstay | ⟨b, t', hcb, hb, hR'⟩
    · exact ⟨t, ht, hstay⟩
    · exact ⟨t', .next ht hcb hb, hR'⟩

/-- Weakening the condition keeps every run. -/
theorem Reach.mono (hcc : ∀ s a, cond s a → cond' s a) {s : σ} (h : Reach sys cond s) :
    Reach sys cond' s := by
  induction h with
  | start h => exact .start h
  | next _ hc ht ih => exact .next ih (hcc _ _ hc) ht

/-- The system from one of its states on. -/
def System.after (sys : System σ α) (s : σ) : System σ α := { sys with init := (· = s) }

theorem Reach.of_after {s t : σ} (h : Reach sys cond s) (ht : Reach (sys.after s) cond t) :
    Reach sys cond t := by
  induction ht with
  | start hs =>
    obtain rfl : _ = s := hs
    exact h
  | next _ hc hstep ih => exact .next ih hc hstep

/-- Replay a list of actions, stopping when a guard or the test fails. -/
def run (sys : System σ α) (test : σ → α → Bool) : σ → List α → Option σ
  | s, [] => some s
  | s, a :: rest =>
    if test s a then
      match sys.step s a with
      | none => none
      | some t => run sys test t rest
    else none

theorem run_of_step {test : σ → α → Bool} {s t : σ} {a : α} (ht : sys.step s a = some t)
    (ha : test s a = true) (rest : List α) : run sys test s (a :: rest) = run sys test t rest := by
  simp [run, ha, ht]

theorem run_append {test : σ → α → Bool} (s : σ) (as bs : List α) :
    run sys test s (as ++ bs) = (run sys test s as).bind fun t => run sys test t bs := by
  induction as generalizing s with
  | nil => rfl
  | cons a rest ih =>
    by_cases ha : test s a = true
    · cases hs : sys.step s a with
      | none => simp [run, ha, hs]
      | some t => simp [run, ha, hs, ih]
    · simp [run, ha]

/-- A successful replay stays within the conditioned runs. -/
theorem reach_of_run {test : σ → α → Bool} (htest : ∀ s a, test s a = true → cond s a)
    {as : List α} {s t : σ} (hs : Reach sys cond s) (h : run sys test s as = some t) :
    Reach sys cond t := by
  induction as generalizing s with
  | nil => exact Option.some.inj h ▸ hs
  | cons a rest ih =>
    by_cases hta : test s a = true
    · cases hst : sys.step s a with
      | none => simp [run, hta, hst] at h
      | some u =>
        have hu : Reach sys cond u := .next hs (htest s a hta) hst
        exact ih hu (by simpa [run, hta, hst] using h)
    · simp [run, hta] at h

/-- A replay whose last state passes a check gives such a state among the conditioned runs. -/
theorem reach_of_run_any {test : σ → α → Bool} (htest : ∀ s a, test s a = true → cond s a)
    {as : List α} {s : σ} {check : σ → Bool} (hs : Reach sys cond s)
    (h : (run sys test s as).any check = true) :
    ∃ t, run sys test s as = some t ∧ Reach sys cond t ∧ check t = true := by
  cases ht : run sys test s as with
  | none =>
    rw [ht] at h
    cases h
  | some t => exact ⟨t, rfl, reach_of_run htest hs ht, by rwa [ht, Option.any_some] at h⟩

end RdmaMiddleware.TransitionSystem
