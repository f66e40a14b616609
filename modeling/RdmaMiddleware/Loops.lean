import Mathlib.Data.Nat.Notation
import Mathlib.Data.Sum.Basic

/-!
# Loops that may not end

A loop repeats a body that either goes on with a new state or stops with a result. It
returns when some number of rounds is enough.
-/
namespace RdmaMiddleware.Loops

variable {σ ρ : Type*} {body : σ → σ ⊕ ρ} {s t : σ} {r r' : ρ}

/-- `none`: still in the loop after `fuel` rounds. -/
def loop (body : σ → σ ⊕ ρ) : ℕ → σ → Option ρ
  | 0, _ => none
  | fuel + 1, s =>
    match body s with
    | .inl t => loop body fuel t
    | .inr r => some r

def Returns (body : σ → σ ⊕ ρ) (s : σ) (r : ρ) : Prop := ∃ fuel, loop body fuel s = some r

theorem loop_next (h : body s = .inl t) (fuel : ℕ) :
    loop body (fuel + 1) s = loop body fuel t := by
  simp only [loop, h]

theorem loop_stop (h : body s = .inr r) (fuel : ℕ) : loop body (fuel + 1) s = some r := by
  simp only [loop, h]

theorem Returns.stop (h : body s = .inr r) : Returns body s r := ⟨1, loop_stop h 0⟩

/-- A round that goes on changes nothing about where the loop ends. -/
theorem returns_next (h : body s = .inl t) : Returns body s r ↔ Returns body t r := by
  constructor
  · rintro ⟨fuel, hfuel⟩
    cases fuel with
    | zero => cases hfuel
    | succ fuel => exact ⟨fuel, loop_next h fuel ▸ hfuel⟩
  · rintro ⟨fuel, hfuel⟩
    exact ⟨fuel + 1, (loop_next h fuel).trans hfuel⟩

/-- A body that goes on with its own state never stops. -/
theorem not_returns_of_stuck (h : body s = .inl s) : ¬ Returns body s r := by
  rintro ⟨fuel, hfuel⟩
  induction fuel with
  | zero => cases hfuel
  | succ fuel ih => exact ih (loop_next h fuel ▸ hfuel)

/-- A loop has one result. -/
theorem Returns.unique (h : Returns body s r) (h' : Returns body s r') : r = r' := by
  obtain ⟨fuel, hfuel⟩ := h
  induction fuel generalizing s with
  | zero => cases hfuel
  | succ fuel ih =>
    cases hbody : body s with
    | inl t => exact ih ((returns_next hbody).mp h') (loop_next hbody fuel ▸ hfuel)
    | inr r₀ =>
      obtain ⟨fuel', hfuel'⟩ := h'
      cases fuel' with
      | zero => cases hfuel'
      | succ fuel' =>
        rw [loop_stop hbody] at hfuel hfuel'
        exact Option.some.inj (hfuel.symm.trans hfuel')

end RdmaMiddleware.Loops
