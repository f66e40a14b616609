import Mathlib.Data.BitVec
import Mathlib.Logic.Function.Basic
import Mathlib.Tactic

/-!
# Mixing steps on machine words

The steps that multiplicative hash functions are made of lose nothing: each is injective on
the words of its width.
-/
namespace RdmaMiddleware.BitMixing

variable {w : ℕ}

/-- A word with itself shifted to the right. -/
theorem xor_ushiftRight_injective {r : ℕ} (hr : 0 < r) :
    Function.Injective fun x : BitVec w => x ^^^ (x >>> r) := by
  intro x y hxy
  have hbit : ∀ n i, w ≤ i + n → x.getLsbD i = y.getLsbD i := by
    -- from the topmost bit down
    intro n
    induction n with
    | zero =>
      intro i hi
      rw [BitVec.getLsbD_of_ge x i hi, BitVec.getLsbD_of_ge y i hi]
    | succ n ih =>
      intro i hi
      have habove := ih (i + r) (by omega)
      have heq := congrArg (fun z : BitVec w => z.getLsbD i) hxy
      simp only [BitVec.getLsbD_xor, BitVec.getLsbD_ushiftRight, Nat.add_comm r i] at heq
      rw [habove] at heq
      exact Bool.xor_right_inj.mp ((Bool.xor_comm _ _).trans (heq.trans (Bool.xor_comm _ _)))
  exact BitVec.eq_of_getLsbD_eq fun i _ => hbit w i (Nat.le_add_left w i)

theorem rotateLeft_injective {r : ℕ} (hr : r < w) :
    Function.Injective fun x : BitVec w => x.rotateLeft r := by
  intro x y hxy
  refine BitVec.eq_of_getLsbD_eq fun i hi => ?_
  have hbit : ∀ z : BitVec w, z.getLsbD i =
      (z.rotateLeft r).getLsbD (if i + r < w then i + r else i + r - w) := by
    intro z
    rw [BitVec.getLsbD_rotateLeft_of_le hr]
    by_cases hwrap : i + r < w
    · have hge : ¬ i + r < r := by omega
      simp [hwrap, hge]
    · have hlt : i + r - w < r := by omega
      have hback : w - r + (i + r - w) = i := by omega
      simp [hwrap, hlt, hback]
  rw [hbit x, hbit y]
  exact congrArg (fun z : BitVec w => z.getLsbD _) hxy

/-- Multiplication by a word that has an inverse. -/
theorem mul_injective {c d : BitVec w} (hcd : c * d = 1#w) :
    Function.Injective fun x : BitVec w => x * c := by
  intro x y hxy
  have hmul := congrArg (fun z : BitVec w => z * d) hxy
  simpa [BitVec.mul_assoc, hcd] using hmul

theorem xor_left_injective (y : BitVec w) : Function.Injective fun x : BitVec w => x ^^^ y := by
  intro a b hab
  have hxor := congrArg (fun z : BitVec w => z ^^^ y) hab
  simpa [BitVec.xor_assoc] using hxor

/-- A loop of steps that are injective in the state. -/
theorem foldl_injective {α β : Type*} {f : β → α → β} (hf : ∀ a, Function.Injective (f · a))
    (l : List α) : Function.Injective fun b => l.foldl f b := by
  induction l with
  | nil => exact Function.injective_id
  | cons a l ih => exact ih.comp (hf a)

end RdmaMiddleware.BitMixing
