import SkyEngine.Lib.Rounding
import Mathlib.Data.Rat.Floor

/-!
# Lib — Binary64

IEEE binary64 values as far as conversions need them: from an integer,
from an exact fraction, to another format, and back to an integer by
truncation. A finite value is a sign (zero has two) and the exact
magnitude.
-/

namespace Binary64

open Rounding

/-- A binary64 value. -/
inductive Double where
  | nan
  | inf (neg : Bool)
  | finite (neg : Bool) (mag : ℚ)
  deriving DecidableEq, Repr

namespace Double

/-- Conversion from an integer: 53 significant bits, ties to even. The
integers converted here are far below the overflow threshold. -/
def ofInt (v : Int) : Double := .finite (decide (v < 0)) (roundBits 53 v.natAbs : Nat)

/-- Truncation toward zero; NaN and the infinities have none. -/
def trunc : Double → Option Int
  | .nan => none
  | .inf _ => none
  | .finite neg mag => some (if neg then -⌊mag⌋ else ⌊mag⌋)

/-- `x != 0`. -/
def isNonzero : Double → Bool
  | .nan => true
  | .inf _ => true
  | .finite _ mag => decide (mag ≠ 0)

def one : Double := .finite false 1

def zero : Double := .finite false 0

/-- **An integer survives exactly when it fits 53 significant bits.** -/
theorem trunc_ofInt_iff (v : Int) : (ofInt v).trunc = some v ↔ Fits 53 v.natAbs := by
  rw [← roundBits_eq_self_iff, ofInt, trunc]
  by_cases hv : v < 0
  · simp only [hv, decide_true, if_true, Option.some.injEq, Int.floor_natCast]
    omega
  · simp only [hv, decide_false, Bool.false_eq_true, if_false, Option.some.injEq,
      Int.floor_natCast]
    omega

end Double

/-! ## From a fraction -/

/-- A binary interchange format: its precision, the exponent of its least
positive value, and the exponent at which it overflows. -/
structure Format where
  precision : Nat
  minExp : Int
  maxExp : Nat

def binary64 : Format := ⟨53, -1074, 1024⟩

def binary32 : Format := ⟨24, -149, 128⟩

/-- `⌊log₂ (num / den)⌋` for a positive fraction. -/
def log2Div (num den : Nat) : Int :=
  let e : Int := (num.log2 : Int) - den.log2
  if num * 2 ^ (-e).toNat < den * 2 ^ e.toNat then e - 1 else e

/-- The value of a format nearest to `num / den` (ties to even), with
gradual underflow and overflow to infinity. -/
def ofFraction (fmt : Format) (neg : Bool) (num den : Nat) : Double :=
  if num = 0 then .finite neg 0
  else
    let q := max (log2Div num den + 1 - fmt.precision) fmt.minExp
    let mant := roundDiv (num * 2 ^ (-q).toNat) (den * 2 ^ q.toNat)
    if 2 ^ fmt.maxExp ≤ mant * 2 ^ q.toNat then .inf neg
    else .finite neg (mkRat (mant * 2 ^ q.toNat) (2 ^ (-q).toNat))

theorem log2Div_one {w : Nat} (hw : w ≠ 0) : log2Div w 1 = w.log2 := by
  have hle : 2 ^ w.log2 ≤ w := Nat.log2_self_le hw
  have hone : Nat.log2 1 = 0 := by decide
  unfold log2Div
  simp only [hone, Int.natCast_zero, Int.sub_zero, Int.toNat_natCast, Int.toNat_neg_natCast,
    Nat.pow_zero, Nat.mul_one, Nat.one_mul]
  rw [if_neg (by omega)]

/-- **An integer that fits the precision and does not overflow is its own
nearest value.** -/
theorem ofFraction_one {fmt : Format} (hmin : fmt.minExp ≤ 1 - fmt.precision)
    (hmax : fmt.precision ≤ fmt.maxExp) {w : Nat} (hfit : Fits fmt.precision w)
    (hw : w < 2 ^ fmt.maxExp) (neg : Bool) : ofFraction fmt neg w 1 = .finite neg (w : ℚ) := by
  by_cases h0 : w = 0
  · simp [ofFraction, h0]
  have hq : max (log2Div w 1 + 1 - fmt.precision) fmt.minExp = w.log2 + 1 - fmt.precision := by
    rw [log2Div_one h0]
    omega
  unfold ofFraction
  simp only [h0, if_false, hq, Nat.one_mul]
  by_cases hbig : fmt.precision ≤ w.log2 + 1
  · -- The unit is a power of two from 1 up, and divides `w`.
    have hpos : ((w.log2 : Int) + 1 - fmt.precision).toNat = excess fmt.precision w := by
      unfold excess
      omega
    have hneg : (-((w.log2 : Int) + 1 - fmt.precision)).toNat = 0 := by omega
    have hround : roundDiv w (2 ^ excess fmt.precision w) * 2 ^ excess fmt.precision w = w :=
      roundBits_eq_self_iff.mpr hfit
    have hmant : (roundDiv w (2 ^ excess fmt.precision w) : Int)
        * 2 ^ excess fmt.precision w = w := by
      exact_mod_cast hround
    rw [hpos, hneg, Nat.pow_zero, Nat.mul_one, hround, if_neg (by omega), hmant, Rat.mkRat_one]
    rfl
  · -- The unit is a fraction, and `w` is a whole number of them.
    have hpos : ((w.log2 : Int) + 1 - fmt.precision).toNat = 0 := by omega
    obtain ⟨k, hk⟩ : ∃ k, fmt.precision = w.log2 + 1 + k :=
      Nat.exists_eq_add_of_le (by omega)
    have hneg : (-((w.log2 : Int) + 1 - fmt.precision)).toNat = k := by omega
    have hlt : w * 2 ^ k < 2 ^ fmt.maxExp := by
      calc w * 2 ^ k < 2 ^ (w.log2 + 1) * 2 ^ k :=
            Nat.mul_lt_mul_of_pos_right Nat.lt_log2_self (Nat.two_pow_pos k)
        _ = 2 ^ fmt.precision := by rw [hk, Nat.pow_add 2 (w.log2 + 1) k]
        _ ≤ 2 ^ fmt.maxExp := Nat.pow_le_pow_right (by omega) hmax
    rw [hpos, hneg, Nat.pow_zero, roundDiv_one, Nat.mul_one, if_neg (by omega)]
    have hunit : (2 ^ k : ℚ) ≠ 0 := by positivity
    have hmag : mkRat ((w : Int) * 2 ^ k) (2 ^ k) = w := by
      rw [Rat.mkRat_eq_div]
      push_cast
      exact mul_div_cancel_right₀ _ hunit
    push_cast
    rw [mul_one, hmag]

/-- Conversion to the nearest value of another format. -/
def Double.convert (fmt : Format) : Double → Double
  | .nan => .nan
  | .inf neg => .inf neg
  | .finite neg mag => ofFraction fmt neg mag.num.natAbs mag.den

end Binary64
