import Mathlib.Data.Nat.Bitwise
import Mathlib.Tactic.Ring

/-!
# Lib — Word64

Unsigned 64-bit arithmetic on natural numbers, and the masks an allocator
rounds with: clearing the low bits of a word rounds it down to a multiple,
setting low bits of a multiple adds them.
-/

namespace Word64

def add (a b : Nat) : Nat := (a + b) % 2 ^ 64

def sub (a b : Nat) : Nat := (a + 2 ^ 64 - b) % 2 ^ 64

/-- The complement. -/
def compl (a : Nat) : Nat := 2 ^ 64 - 1 - a

/-- The two's complement. -/
def neg (a : Nat) : Nat := (2 ^ 64 - a) % 2 ^ 64

def shl (a k : Nat) : Nat := (a <<< k) % 2 ^ 64

theorem add_of_lt {a b : Nat} (h : a + b < 2 ^ 64) : add a b = a + b := Nat.mod_eq_of_lt h

theorem sub_of_le {a b : Nat} (hb : b ≤ a) (ha : a < 2 ^ 64) : sub a b = a - b := by
  unfold sub
  omega

theorem sub_of_lt {a b : Nat} (ha : a < b) (hb : b ≤ 2 ^ 64) : sub a b = 2 ^ 64 - (b - a) := by
  unfold sub
  omega

theorem neg_of_pos {a : Nat} (ha : 0 < a) (hlt : a ≤ 2 ^ 64) : neg a = 2 ^ 64 - a := by
  unfold neg
  omega

/-! ## Masks -/

theorem testBit_high_mask {k : Nat} (hk : k ≤ 64) (i : Nat) :
    (2 ^ 64 - 2 ^ k).testBit i = (decide (k ≤ i) && decide (i < 64)) := by
  have hpow : (2 : Nat) ^ 64 - 2 ^ k = 2 ^ k * (2 ^ (64 - k) - 1) := by
    rw [Nat.mul_sub, ← Nat.pow_add, Nat.mul_one]
    congr 2
    omega
  rw [hpow, Nat.testBit_two_pow_mul, Nat.testBit_two_pow_sub_one]
  by_cases hi : k ≤ i
  · have hiff : i - k < 64 - k ↔ i < 64 := by omega
    simp [hi, hiff]
  · simp [hi]

/-- **Clearing the low bits rounds down.** -/
theorem and_high_mask {x k : Nat} (hx : x < 2 ^ 64) (hk : k ≤ 64) :
    x &&& (2 ^ 64 - 2 ^ k) = x / 2 ^ k * 2 ^ k := by
  refine Nat.eq_of_testBit_eq fun i => ?_
  rw [Nat.testBit_and, testBit_high_mask hk, Nat.mul_comm, Nat.testBit_two_pow_mul,
    Nat.testBit_div_two_pow]
  by_cases hi : k ≤ i
  · have hback : i - k + k = i := by omega
    by_cases hlt : i < 64
    · simp [hi, hlt, hback]
    · have hzero : x.testBit i = false :=
        Nat.testBit_lt_two_pow (Nat.lt_of_lt_of_le hx (Nat.pow_le_pow_right (by omega) (by omega)))
      simp [hi, hlt, hback, hzero]
  · simp [hi]

/-- Setting low bits of a multiple adds them. -/
theorem or_low {x k b : Nat} (hx : x % 2 ^ k = 0) (hb : b < 2 ^ k) : x ||| b = x + b := by
  have hdiv : 2 ^ k * (x / 2 ^ k) = x := Nat.mul_div_cancel' (Nat.dvd_of_mod_eq_zero hx)
  rw [← hdiv, ← Nat.two_pow_add_eq_or_of_lt hb]

/-- Reading the low bits. -/
theorem and_low (x k : Nat) : x &&& (2 ^ k - 1) = x % 2 ^ k := Nat.and_two_pow_sub_one_eq_mod x k

/-- Rounding up to a multiple of `2 ^ k` by a mask. -/
theorem round_up {x k : Nat} (hx : x + (2 ^ k - 1) < 2 ^ 64) (hk : k ≤ 64) :
    ∃ r, (x + (2 ^ k - 1)) &&& (2 ^ 64 - 2 ^ k) = r ∧ x ≤ r ∧ r < x + 2 ^ k ∧ r % 2 ^ k = 0 := by
  refine ⟨_, and_high_mask hx hk, ?_, ?_, Nat.mul_mod_left _ _⟩
  all_goals
    have hpos : 0 < 2 ^ k := Nat.two_pow_pos k
    have hmod := Nat.mod_lt (x + (2 ^ k - 1)) hpos
    have hdiv := Nat.div_add_mod (x + (2 ^ k - 1)) (2 ^ k)
    have hcomm := Nat.mul_comm (2 ^ k) ((x + (2 ^ k - 1)) / 2 ^ k)
    omega

/-- The top bit of a word shifted left is the bit shifted there. -/
theorem shl_top (x k : Nat) (hk : k < 64) : shl x k >>> 63 &&& 1 = (x >>> (63 - k)) % 2 := by
  have hand : shl x k >>> 63 &&& 1 = (shl x k >>> 63) % 2 := and_low _ 1
  rw [hand, shl, Nat.shiftLeft_eq, Nat.shiftRight_eq_div_pow, Nat.shiftRight_eq_div_pow]
  have hpow : (2 : Nat) ^ 63 = 2 ^ (63 - k) * 2 ^ k := by
    rw [← Nat.pow_add]
    congr 1
    omega
  have hmod : x * 2 ^ k % 2 ^ 64 / 2 ^ 63 = x * 2 ^ k / 2 ^ 63 % 2 := by
    rw [show (2 : Nat) ^ 64 = 2 ^ 63 * 2 from rfl, Nat.mod_mul_right_div_self]
  rw [hmod, Nat.mod_mod, hpow, Nat.mul_div_mul_right _ _ (Nat.two_pow_pos k)]

end Word64
