import Mathlib.Data.Int.ModEq
import Mathlib.Data.BitVec
import Mathlib.Tactic

/-!
# C integers as they occur in the middleware

`int` is 32-bit two's complement, `size_t` is 64-bit. Lengths and positions are
kept as mathematical numbers; the two places where the representation shows are
the conversion of a `size_t` to an `int`, and masking with `size - 1`.
-/
namespace RdmaMiddleware.CInt

/-- Conversion to a 32-bit `int`. -/
def cInt (x : ℤ) : ℤ := x.bmod (2 ^ 32)

theorem cInt_of_range {x : ℤ} (h : -2 ^ 31 ≤ x) (h' : x < 2 ^ 31) : cInt x = x := by
  unfold cInt
  rw [Int.bmod_def]
  split_ifs <;> omega

theorem cInt_natCast {n : ℕ} (h : n < 2 ^ 31) : cInt (n : ℤ) = n :=
  cInt_of_range (by omega) (by omega)

theorem cInt_lt (x : ℤ) : cInt x < 2 ^ 31 := by
  unfold cInt
  rw [Int.bmod_def]
  split_ifs <;> omega

/-- The low `w` bytes of a number, least significant first. -/
def leBytes : ℕ → ℕ → List UInt8
  | 0, _ => []
  | w + 1, n => UInt8.ofNat (n % 256) :: leBytes w (n / 256)

/-- The number whose bytes are given, least significant first. -/
def leValue : List UInt8 → ℕ
  | [] => 0
  | b :: bs => b.toNat + 256 * leValue bs

@[simp] theorem length_leBytes (w n : ℕ) : (leBytes w n).length = w := by
  induction w generalizing n with
  | zero => rfl
  | succ w ih => simp [leBytes, ih]

theorem leValue_leBytes (w n : ℕ) : leValue (leBytes w n) = n % 256 ^ w := by
  induction w generalizing n with
  | zero => simp [leBytes, leValue, Nat.mod_one]
  | succ w ih =>
    have hbyte : (UInt8.ofNat (n % 256)).toNat = n % 256 := by simp
    rw [leBytes, leValue, ih, hbyte, Nat.pow_succ, Nat.mul_comm (256 ^ w) 256, Nat.mod_mul]

/-- The memory of an `int`. -/
def intBytes (x : ℤ) : List UInt8 := leBytes 4 (x % 2 ^ 32).toNat

/-- The `int` read from four bytes of memory. -/
def intOfBytes (bs : List UInt8) : ℤ := cInt (leValue (bs.take 4))

@[simp] theorem length_intBytes (x : ℤ) : (intBytes x).length = 4 := by simp [intBytes]

theorem intOfBytes_intBytes {x : ℤ} (h : -2 ^ 31 ≤ x) (h' : x < 2 ^ 31) (bs : List UInt8) :
    intOfBytes (intBytes x ++ bs) = x := by
  have htake : (intBytes x ++ bs).take 4 = intBytes x := by
    rw [List.take_append_of_le_length (by simp), List.take_of_length_le (by simp)]
  have hpos : 0 ≤ x % 2 ^ 32 := Int.emod_nonneg x (by norm_num)
  have hlt : x % 2 ^ 32 < 2 ^ 32 := Int.emod_lt_of_pos x (by norm_num)
  have hmod : (x % 2 ^ 32).toNat % 256 ^ 4 = (x % 2 ^ 32).toNat :=
    Nat.mod_eq_of_lt (by norm_num; omega)
  rw [intOfBytes, htake, intBytes, leValue_leBytes, hmod, Int.toNat_of_nonneg hpos]
  have hbmod : cInt (x % 2 ^ 32) = cInt x := Int.emod_bmod x (2 ^ 32)
  rw [hbmod, cInt_of_range h h']

/-- `x & (size - 1)`, an `int` operand being sign-extended to 64 bits. -/
def mask (x : ℤ) (size : ℕ) : ℕ :=
  (BitVec.ofInt 64 x &&& BitVec.ofNat 64 (size - 1)).toNat

/-- The sizes a ring can have: powers of two that an `int` holds. -/
def IsRingSize (n : ℕ) : Prop := ∃ k ≤ 30, n = 2 ^ k

theorem IsRingSize.pos {n : ℕ} (h : IsRingSize n) : 0 < n := by
  obtain ⟨k, _, rfl⟩ := h
  positivity

theorem IsRingSize.le {n : ℕ} (h : IsRingSize n) : n ≤ 2 ^ 30 := by
  obtain ⟨k, hk, rfl⟩ := h
  exact Nat.pow_le_pow_right (by omega) hk

/-- For a power of two, masking is reduction modulo the size, also of negative operands. -/
theorem mask_eq {n : ℕ} (h : IsRingSize n) (x : ℤ) : mask x n = (x % n).toNat := by
  obtain ⟨k, hk, rfl⟩ := h
  have hpos : 0 < 2 ^ k := by positivity
  have hle : 2 ^ k ≤ 2 ^ 30 := Nat.pow_le_pow_right (by omega) hk
  have hdvd : (2 : ℤ) ^ k ∣ 2 ^ 64 := pow_dvd_pow 2 (by omega)
  unfold mask
  rw [BitVec.toNat_and, BitVec.toNat_ofInt, BitVec.toNat_ofNat,
    Nat.mod_eq_of_lt (show 2 ^ k - 1 < 2 ^ 64 by omega), Nat.and_two_pow_sub_one_eq_mod]
  apply Int.natCast_inj.mp
  rw [Int.toNat_of_nonneg (Int.emod_nonneg _ (by positivity))]
  push_cast
  rw [Int.toNat_of_nonneg (Int.emod_nonneg _ (by norm_num))]
  exact Int.emod_emod_of_dvd x hdvd

theorem mask_natCast {n : ℕ} (h : IsRingSize n) (x : ℕ) : mask (x : ℤ) n = x % n := by
  rw [mask_eq h]
  exact_mod_cast Int.toNat_natCast (x % n)

theorem mask_lt {n : ℕ} (h : IsRingSize n) (x : ℤ) : mask x n < n := by
  have hpos : (0 : ℤ) < n := by exact_mod_cast h.pos
  rw [mask_eq h]
  have := Int.emod_lt_of_pos x hpos
  have := Int.emod_nonneg x hpos.ne'
  omega

/-- The masked difference of two pointers recovers the distance they stand for. -/
theorem mask_sub {n w r p q : ℕ} (h : IsRingSize n) (hp : p % n = w % n) (hq : q % n = r % n)
    (hrw : r ≤ w) (hwr : w < r + n) : mask ((p : ℤ) - q) n = w - r := by
  have hmod : ((p : ℤ) - q) % n = ((w : ℤ) - r) % n :=
    Int.ModEq.sub (Int.natCast_modEq_iff.mpr hp) (Int.natCast_modEq_iff.mpr hq)
  rw [mask_eq h, hmod, Int.emod_eq_of_lt (by omega) (by omega)]
  omega

/-- Distances subtract as long as the first is not the longer one. -/
theorem mask_diff {n : ℕ} (h : IsRingSize n) {d e : ℤ} (hle : mask d n ≤ mask e n) :
    mask (e - d) n = mask e n - mask d n := by
  have hpos : (0 : ℤ) < n := by exact_mod_cast h.pos
  have hd := Int.emod_nonneg d hpos.ne'
  have he := Int.emod_nonneg e hpos.ne'
  have he' := Int.emod_lt_of_pos e hpos
  rw [mask_eq h, mask_eq h] at hle
  have hmod : (e - d) % n = e % n - d % n := by
    rw [Int.sub_emod]
    exact Int.emod_eq_of_lt (by omega) (by omega)
  rw [mask_eq h, mask_eq h, mask_eq h, hmod]
  omega

end RdmaMiddleware.CInt
