import Mathlib.Data.List.Basic
import Mathlib.Tactic

/-!
# Completion channels

An armed queue raises one event on its channel with the next entry, and is armed no more.
A reader that takes the event, arms the queue and only then empties it misses no entry: the
right to raise the next event is a token that is never doubled.
-/
namespace RdmaMiddleware.CompletionChannels

/-- A queue and the events of its channel that nobody has taken yet. -/
structure Channel (ω : Type*) where
  entries : List ω
  armed : Bool
  events : ℕ

/-- Where the reader stands. -/
inductive Reader
  | away
  /-- It has taken the event and not armed the queue. -/
  | unarmed
  | draining
  deriving DecidableEq

namespace Channel
variable {ω : Type*} {c : Channel ω} {r : Reader}

def push (c : Channel ω) (w : ω) : Channel ω :=
  { entries := c.entries ++ [w]
    armed := false
    events := if c.armed then c.events + 1 else c.events }

def getEvent (c : Channel ω) : Channel ω := { c with events := c.events - 1 }

def arm (c : Channel ω) : Channel ω := { c with armed := true }

def setEntries (c : Channel ω) (entries : List ω) : Channel ω := { c with entries := entries }

@[simp] theorem push_entries (w : ω) : (c.push w).entries = c.entries ++ [w] := rfl

@[simp] theorem setEntries_entries (entries : List ω) : (c.setEntries entries).entries = entries :=
  rfl

/-- Who may raise the next event, or has raised it. -/
def tokens (c : Channel ω) (r : Reader) : ℕ :=
  (if c.armed then 1 else 0) + c.events + if r = .unarmed then 1 else 0

theorem tokens_push (w : ω) : (c.push w).tokens r = c.tokens r := by
  by_cases h : c.armed = true
  · simp [tokens, push, h]
    omega
  · simp [tokens, push, h]

theorem tokens_setEntries (entries : List ω) : (c.setEntries entries).tokens r = c.tokens r := rfl

theorem tokens_getEvent (h : 0 < c.events) : c.getEvent.tokens .unarmed = c.tokens .away := by
  have hevents : c.events - 1 + 1 = c.events := Nat.sub_add_cancel h
  show (if c.armed = true then 1 else 0) + (c.events - 1) + 1 =
    (if c.armed = true then 1 else 0) + c.events + 0
  rw [Nat.add_assoc, hevents, Nat.add_zero]

/-- Arming makes the one token that the reader holds. -/
theorem tokens_arm (h : c.tokens .unarmed ≤ 1) : c.arm.tokens .draining = 1 := by
  simp only [tokens, arm, if_true] at *
  simp
  omega

/-- The reader that returns without arming has dropped the token. -/
theorem tokens_drop (h : c.tokens .unarmed ≤ 1) : c.armed = false ∧ c.events = 0 := by
  simp only [tokens, if_true] at h
  refine ⟨?_, by omega⟩
  by_contra harmed
  rw [Bool.not_eq_false] at harmed
  simp [harmed] at h

/-- An entry is seen to, or an event stands for it. -/
def Alert (c : Channel ω) (r : Reader) : Prop := c.entries ≠ [] → 0 < c.events ∨ r ≠ .away

/-- While the token is there, nobody needs to look for the new entry. -/
theorem alert_push (htoken : c.tokens r = 1) (w : ω) : (c.push w).Alert r := by
  intro _
  by_cases hr : r = .away
  · refine .inl ?_
    simp only [tokens, hr, reduceCtorEq, if_false, add_zero] at htoken
    by_cases harmed : c.armed = true
    · simp [Channel.push, harmed]
    · rw [if_neg harmed, Nat.zero_add] at htoken
      show 0 < if c.armed = true then c.events + 1 else c.events
      rw [if_neg harmed, htoken]
      exact Nat.one_pos
  · exact .inr hr

/-- The reader leaves an empty queue. -/
theorem alert_of_empty (h : c.entries = []) : c.Alert r := fun hne => absurd h hne

theorem alert_of_present (h : r ≠ .away) : c.Alert r := fun _ => .inr h

end Channel

end RdmaMiddleware.CompletionChannels
