import Mathlib.Algebra.Order.Ring.Nat
import Mathlib.Data.Nat.Log

/-!
# Lib — Rounding

Rounding a quotient to the nearest integer and an integer to its `p`
leading digits, ties to even both times. Integers that fit `p` significant
digits are exactly the fixed points of the second. Bits are base 2.
-/

namespace Rounding

/-! ## Quotients -/

/-- `n / d` rounded to the nearest integer, ties to even. -/
def roundDiv (n d : Nat) : Nat :=
  if 2 * (n % d) < d then n / d
  else if d < 2 * (n % d) then n / d + 1
  else n / d + n / d % 2

/-- A whole quotient is not rounded. -/
theorem roundDiv_mul {d : Nat} (hd : 0 < d) (k : Nat) : roundDiv (k * d) d = k := by
  rw [roundDiv, Nat.mul_mod_left, Nat.mul_div_cancel k hd]
  exact if_pos (by omega)

@[simp] theorem roundDiv_one (n : Nat) : roundDiv n 1 = n := by
  simpa using roundDiv_mul Nat.one_pos n

/-- Rounding adds at most one. -/
theorem roundDiv_le (n d : Nat) : roundDiv n d ≤ n / d + 1 := by
  unfold roundDiv
  split
  · omega
  · split <;> omega

/-! ## Significant digits -/

section Base

variable {b p n : Nat}

/-- How many base `b` digits of `n` lie below its `p` leading ones. -/
def excessIn (b p n : Nat) : Nat := Nat.log b n + 1 - p

/-- `n` rounded to its `p` leading base `b` digits. -/
def roundIn (b p n : Nat) : Nat :=
  roundDiv n (b ^ excessIn b p n) * b ^ excessIn b p n

/-- `n` can be written with `p` significant base `b` digits. -/
def FitsIn (b p n : Nat) : Prop := ∃ m e, m < b ^ p ∧ n = m * b ^ e

theorem fitsIn_of_lt (h : n < b ^ p) : FitsIn b p n := ⟨n, 0, h, by simp⟩

/-- The digits above the excess are `p` at most. -/
theorem lt_pow_excessIn (hb : 1 < b) (p n : Nat) : n < b ^ p * b ^ excessIn b p n := by
  calc n < b ^ (Nat.log b n + 1) := Nat.lt_pow_succ_log_self hb n
    _ ≤ b ^ (p + excessIn b p n) :=
        Nat.pow_le_pow_right (by omega) (by unfold excessIn; omega)
    _ = b ^ p * b ^ excessIn b p n := Nat.pow_add b _ _

/-- The low digits of a number that fits are zero. -/
theorem FitsIn.dvd (h : FitsIn b p n) (hb : 1 < b) : b ^ excessIn b p n ∣ n := by
  obtain ⟨m, e, hm, hn⟩ := h
  by_cases h0 : n = 0
  · subst h0
    exact Nat.dvd_zero _
  · have hlt : n < b ^ (p + e) := by
      rw [hn, Nat.pow_add]
      exact Nat.mul_lt_mul_of_pos_right hm (Nat.pow_pos (by omega))
    have hlog : Nat.log b n < p + e := Nat.log_lt_of_lt_pow h0 hlt
    have hle : excessIn b p n ≤ e := by
      unfold excessIn
      omega
    exact Nat.dvd_trans (Nat.pow_dvd_pow b hle) ⟨m, by rw [hn, Nat.mul_comm]⟩

theorem fitsIn_of_dvd (hb : 1 < b) (h : b ^ excessIn b p n ∣ n) : FitsIn b p n := by
  obtain ⟨m, hm⟩ := h
  refine ⟨m, excessIn b p n, ?_, by rw [Nat.mul_comm]; exact hm⟩
  have hbound : b ^ excessIn b p n * m < b ^ excessIn b p n * b ^ p := by
    rw [← hm, Nat.mul_comm]
    exact lt_pow_excessIn hb p n
  exact Nat.lt_of_mul_lt_mul_left hbound

/-- **Rounding is exact on what fits, and only there.** -/
theorem roundIn_eq_self_iff (hb : 1 < b) : roundIn b p n = n ↔ FitsIn b p n := by
  constructor
  · intro h
    have hdvd : b ^ excessIn b p n ∣ roundIn b p n := ⟨_, Nat.mul_comm _ _⟩
    rw [h] at hdvd
    exact fitsIn_of_dvd hb hdvd
  · intro h
    obtain ⟨m, hm⟩ := h.dvd hb
    have hn : n = m * b ^ excessIn b p n := by rw [Nat.mul_comm]; exact hm
    have hdiv : roundDiv n (b ^ excessIn b p n) = m := by
      calc roundDiv n (b ^ excessIn b p n)
          = roundDiv (m * b ^ excessIn b p n) (b ^ excessIn b p n) := by rw [← hn]
        _ = m := roundDiv_mul (Nat.pow_pos (by omega)) m
    rw [roundIn, hdiv, ← hn]

/-- Rounding up reaches the next power at most. -/
theorem roundDiv_excessIn_le (hb : 1 < b) (p n : Nat) :
    roundDiv n (b ^ excessIn b p n) ≤ b ^ p := by
  have hlt : n / b ^ excessIn b p n < b ^ p :=
    Nat.div_lt_of_lt_mul (by rw [Nat.mul_comm]; exact lt_pow_excessIn hb p n)
  have hle := roundDiv_le n (b ^ excessIn b p n)
  omega

/-- What has been rounded fits. -/
theorem roundIn_fitsIn (hb : 1 < b) (hp : 0 < p) (n : Nat) : FitsIn b p (roundIn b p n) := by
  rcases Nat.lt_or_eq_of_le (roundDiv_excessIn_le hb p n) with hlt | heq
  · exact ⟨_, _, hlt, rfl⟩
  · -- rounded up to the next power: a one and zeros
    exact ⟨1, p + excessIn b p n, Nat.one_lt_pow (by omega) hb, by
      rw [roundIn, heq, Nat.pow_add, Nat.one_mul]⟩

/-- Rounding does not leave the next power of the base. -/
theorem roundIn_le (hb : 1 < b) {k : Nat} (h : n < b ^ k) (p : Nat) : roundIn b p n ≤ b ^ k := by
  by_cases he : excessIn b p n = 0
  · rw [roundIn, he, Nat.pow_zero, Nat.mul_one, roundDiv_one]
    omega
  by_cases h0 : n = 0
  · have hzero : roundDiv 0 (b ^ excessIn b p 0) = 0 := by
      simpa using roundDiv_mul (Nat.pow_pos (by omega) : 0 < b ^ excessIn b p 0) 0
    rw [h0, roundIn, hzero, Nat.zero_mul]
    exact Nat.zero_le _
  · have hlog : Nat.log b n < k := Nat.log_lt_of_lt_pow h0 h
    calc roundIn b p n ≤ b ^ p * b ^ excessIn b p n :=
          Nat.mul_le_mul_right _ (roundDiv_excessIn_le hb p n)
      _ = b ^ (p + excessIn b p n) := (Nat.pow_add b _ _).symm
      _ ≤ b ^ k := Nat.pow_le_pow_right (by omega) (by unfold excessIn at he ⊢; omega)

end Base

/-! ## Significant bits -/

/-- How many bits of `n` lie below its `p` leading ones. -/
def excess (p n : Nat) : Nat := n.log2 + 1 - p

/-- `n` rounded to its `p` leading bits. -/
def roundBits (p n : Nat) : Nat :=
  roundDiv n (2 ^ excess p n) * 2 ^ excess p n

/-- `n` can be written with `p` significant bits. -/
def Fits (p n : Nat) : Prop := ∃ m e, m < 2 ^ p ∧ n = m * 2 ^ e

theorem excess_eq (p n : Nat) : excess p n = excessIn 2 p n := by
  rw [excess, excessIn, Nat.log2_eq_log_two]

theorem roundBits_eq (p n : Nat) : roundBits p n = roundIn 2 p n := by
  rw [roundBits, roundIn, excess_eq]

theorem fits_iff_dvd {p n : Nat} : Fits p n ↔ 2 ^ excess p n ∣ n := by
  rw [excess_eq]
  exact ⟨fun h => FitsIn.dvd h Nat.one_lt_two, fitsIn_of_dvd Nat.one_lt_two⟩

instance (p n : Nat) : Decidable (Fits p n) := decidable_of_iff _ fits_iff_dvd.symm

theorem roundBits_eq_self_iff {p n : Nat} : roundBits p n = n ↔ Fits p n := by
  rw [roundBits_eq]
  exact roundIn_eq_self_iff Nat.one_lt_two

end Rounding
