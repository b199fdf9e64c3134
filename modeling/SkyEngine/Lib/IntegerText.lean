import SkyEngine.Lib.Numeral

/-!
# Lib — IntegerText

What `%g` prints for an integer, and what `atof` makes of that text: the
integer rounded to six significant digits.
-/

namespace CString

open Rounding Binary64

/-! ## Six digits -/

theorem log10Div_one {n : Nat} (hn : n ≠ 0) : log10Div n 1 = Nat.log 10 n := by
  have hle : 10 ^ Nat.log 10 n ≤ n := Nat.pow_log_le_self 10 hn
  unfold log10Div
  simp only [Nat.log_one_right, Int.natCast_zero, Int.sub_zero, Int.toNat_natCast,
    Int.toNat_neg_natCast, Nat.pow_zero, Nat.mul_one, Nat.one_mul]
  rw [if_neg (by omega)]

/-- Up to six digits, filled up with zeros. -/
theorem filled_lt {n : Nat} (hlog : Nat.log 10 n ≤ 5) : n * 10 ^ (5 - Nat.log 10 n) < 10 ^ 6 := by
  have hlt : n < 10 ^ (Nat.log 10 n + 1) := Nat.lt_pow_succ_log_self (by omega) n
  calc n * 10 ^ (5 - Nat.log 10 n) < 10 ^ (Nat.log 10 n + 1) * 10 ^ (5 - Nat.log 10 n) :=
        Nat.mul_lt_mul_of_pos_right hlt (Nat.pow_pos (by omega))
    _ = 10 ^ 6 := by
        rw [← Nat.pow_add]
        congr 1
        omega

/-- Up to six digits nothing is rounded. -/
theorem sixDigits_small {n : Nat} (hn : n ≠ 0) (hlog : Nat.log 10 n ≤ 5) :
    sixDigits n 1 = (n * 10 ^ (5 - Nat.log 10 n), (Nat.log 10 n : Int)) := by
  have hd : n * 10 ^ (5 - Nat.log 10 n) < 10 ^ 6 := filled_lt hlog
  have hz : ((5 : Int) - Nat.log 10 n).toNat = 5 - Nat.log 10 n := by omega
  have hk : ((Nat.log 10 n : Int) - 5).toNat = 0 := by omega
  unfold sixDigits
  simp only [log10Div_one hn, hz, hk, Nat.pow_zero, Nat.mul_one, roundDiv_one]
  rw [if_neg (by omega)]

/-- From seven digits on the number is rounded, and the exponent is at
least six. -/
theorem sixDigits_large {n : Nat} (hlog : 6 ≤ Nat.log 10 n) :
    ∃ d k, sixDigits n 1 = (d, ((6 + k : Nat) : Int)) ∧ d < 10 ^ 6
      ∧ d * 10 ^ (k + 1) = roundIn 10 6 n ∧ 6 + k ≤ Nat.log 10 n + 1 := by
  have hn : n ≠ 0 := by
    rintro rfl
    simp at hlog
  obtain ⟨k, hk⟩ := Nat.exists_eq_add_of_le hlog
  have hexcess : excessIn 10 6 n = k + 1 := by
    unfold excessIn
    omega
  have hle : roundDiv n (10 ^ (k + 1)) ≤ 10 ^ 6 := by
    have h := roundDiv_excessIn_le (by omega : 1 < 10) 6 n
    rwa [hexcess] at h
  have hz : ((5 : Int) - ((6 + k : Nat) : Int)).toNat = 0 := by omega
  have hk' : (((6 + k : Nat) : Int) - 5).toNat = k + 1 := by omega
  unfold sixDigits
  simp only [log10Div_one hn, hk, hz, hk', Nat.pow_zero, Nat.mul_one, Nat.one_mul]
  by_cases htop : roundDiv n (10 ^ (k + 1)) = 10 ^ 6
  · -- the rounding carried into a seventh digit
    refine ⟨10 ^ 5, k + 1, ?_, by norm_num, ?_, by omega⟩
    · rw [if_pos htop]
      rfl
    · rw [roundIn, hexcess, htop, Nat.pow_succ 10 (k + 1)]
      ring
  · refine ⟨roundDiv n (10 ^ (k + 1)), k, ?_, by omega, ?_, by omega⟩
    · rw [if_neg htop]
    · rw [roundIn, hexcess]

/-- The digits behind the last one of an integer are zeros. -/
theorem zeros_behind {n x : Nat} {l : Nat} (hl : l ≤ 5)
    (h : x ∈ (digitsOf (n * 10 ^ (5 - l))).drop (l + 1)) : x = 0 := by
  obtain ⟨i, hi, rfl⟩ := List.getElem_of_mem h
  rw [List.length_drop, length_digitsOf] at hi
  have hpow : 10 ^ (5 - l) = 10 ^ i * 10 * 10 ^ (5 - (l + 1 + i)) := by
    rw [← Nat.pow_succ, ← Nat.pow_add]
    congr 1
    omega
  have hdiv : n * 10 ^ (5 - l) / 10 ^ (5 - (l + 1 + i)) = n * 10 ^ i * 10 := by
    rw [hpow]
    calc n * (10 ^ i * 10 * 10 ^ (5 - (l + 1 + i))) / 10 ^ (5 - (l + 1 + i))
        = n * 10 ^ i * 10 * 10 ^ (5 - (l + 1 + i)) / 10 ^ (5 - (l + 1 + i)) := by ring_nf
      _ = n * 10 ^ i * 10 := Nat.mul_div_cancel _ (Nat.pow_pos (by omega))
  rw [List.getElem_drop]
  simp only [digitsOf, List.getElem_map, List.getElem_range, hdiv, Nat.mul_mod_left]

/-- The six digits of `d` with the point behind the first `j`. -/
def Numeral.pointAt (d j : Nat) (hj : 0 < j) (x : Option Int)
    (hx : ∀ y ∈ x, y.natAbs < 1000) : Numeral where
  whole := (digitsOf d).take j
  fraction := (digitsOf d).drop j
  exponent := x
  whole_ne := by
    intro h
    have hlen := congrArg List.length h
    rw [List.length_take, length_digitsOf, List.length_nil] at hlen
    omega
  digit_lt := by
    intro y hy
    rw [List.take_append_drop] at hy
    exact lt_ten_of_mem_digitsOf hy
  exponent_lt := hx

/-- The text is a number, and its value is `v`. -/
def Shows (t : Bytes) (v : Nat) : Prop :=
  ∃ (m : Numeral) (e : Nat), t = m.text ∧ m.scale = e ∧ m.mantissa * 10 ^ e = v

/-- Up to six digits: no exponent, and nothing behind the point. -/
theorem magnitudeText_small {n : Nat} (hn : n ≠ 0) (hlog : Nat.log 10 n ≤ 5) :
    Shows (magnitudeText n 1) n := by
  let m := Numeral.pointAt (n * 10 ^ (5 - Nat.log 10 n)) (Nat.log 10 n + 1) (by omega) none
    (by simp)
  have htrim : trimmed m.fraction = [] := trimmed_zeros fun _ h => zeros_behind hlog h
  refine ⟨m, 0, ?_, ?_, ?_⟩
  · unfold magnitudeText
    rw [sixDigits_small hn hlog]
    simp only
    rw [if_neg (by omega), if_neg (by omega), Int.toNat_natCast]
    exact (List.append_nil _).symm
  · unfold Numeral.scale
    rw [htrim]
    rfl
  · unfold Numeral.mantissa
    rw [htrim, List.append_nil, Nat.pow_zero, Nat.mul_one]
    calc natOfDigits 10 ((digitsOf (n * 10 ^ (5 - Nat.log 10 n))).take (Nat.log 10 n + 1))
        = n * 10 ^ (5 - Nat.log 10 n) / 10 ^ (6 - (Nat.log 10 n + 1)) :=
          natOfDigits_take_digitsOf (filled_lt hlog) (by omega)
      _ = n * 10 ^ (5 - Nat.log 10 n) / 10 ^ (5 - Nat.log 10 n) := by congr 2; omega
      _ = n := Nat.mul_div_cancel _ (Nat.pow_pos (by omega))

/-- From seven digits on: one digit, what is left of the other five, and the
exponent. -/
theorem magnitudeText_large {n : Nat} (hlog : 6 ≤ Nat.log 10 n) (hlt : Nat.log 10 n < 999) :
    Shows (magnitudeText n 1) (roundIn 10 6 n) := by
  obtain ⟨d, k, hsix, hd, hround, hk⟩ := sixDigits_large hlog
  let m := Numeral.pointAt d 1 (by omega) (some ((6 + k : Nat) : Int))
    (by simp only [Option.mem_some_iff, forall_eq']; omega)
  obtain ⟨z, hzeros, hz⟩ := trimmed_append_zeros m.fraction
  have hlen : m.fraction.length = 5 := by
    show ((digitsOf d).drop 1).length = 5
    simp
  have hdigits : m.mantissa * 10 ^ z = d := by
    calc m.mantissa * 10 ^ z
        = natOfDigits 10 ((m.whole ++ trimmed m.fraction) ++ List.replicate z 0) :=
          (natOfDigits_append_zeros _ _ _).symm
      _ = natOfDigits 10 (digitsOf d) := by
          rw [List.append_assoc, ← hzeros]
          exact congrArg _ (List.take_append_drop 1 (digitsOf d))
      _ = d := natOfDigits_digitsOf hd
  refine ⟨m, k + 1 + z, ?_, ?_, ?_⟩
  · unfold magnitudeText
    rw [hsix]
    simp only
    rw [if_pos (by omega)]
    rfl
  · show ((6 + k : Nat) : Int) - (trimmed m.fraction).length = _
    omega
  · rw [← hround, ← hdigits, Nat.pow_add]
    ring

/-- **`%g` prints an integer** as its six leading digits, rounded. -/
theorem magnitudeText_nat {n : Nat} (hn : n ≠ 0) (hlt : n < 10 ^ 20) :
    Shows (magnitudeText n 1) (roundIn 10 6 n) := by
  have hlog : Nat.log 10 n < 20 := Nat.log_lt_of_lt_pow hn hlt
  by_cases hsmall : Nat.log 10 n ≤ 5
  · have hfit : FitsIn 10 6 n := fitsIn_of_lt
      (Nat.lt_of_lt_of_le (Nat.lt_pow_succ_log_self (by omega) n)
        (Nat.pow_le_pow_right (by omega) (by omega)))
    rw [(roundIn_eq_self_iff (by omega)).mpr hfit]
    exact magnitudeText_small hn hsmall
  · exact magnitudeText_large (by omega) (by omega)

/-- `%g` and the sign of an integer. -/
theorem formatG_nat {n : Nat} (hlt : n < 10 ^ 20) :
    ∃ t, Shows t (roundIn 10 6 n) ∧
      ∀ neg, formatG (.finite neg n) = (if neg then ascii ['-'] else []) ++ t := by
  by_cases hn : n = 0
  · subst hn
    let zero : Numeral := ⟨[0], [], none, by simp, by simp, by simp⟩
    refine ⟨zero.text, ⟨zero, 0, rfl, rfl, rfl⟩, fun neg => ?_⟩
    simp only [formatG, Nat.cast_zero, if_true]
    rfl
  · refine ⟨_, magnitudeText_nat hn hlt, fun neg => ?_⟩
    have hq : (n : ℚ) ≠ 0 := by exact_mod_cast hn
    simp only [formatG, hq, if_false, Rat.num_natCast, Rat.den_natCast, Int.natAbs_natCast]

/-! ## There and back -/

/-- Six significant digits take fewer bits than a double has. -/
theorem fits_roundIn {n : Nat} (hlt : n < 10 ^ 20) :
    Fits 53 (roundIn 10 6 n) ∧ roundIn 10 6 n ≤ 10 ^ 20 := by
  have hexcess : excessIn 10 6 n ≤ 14 := by
    unfold excessIn
    have hlog : Nat.log 10 n < 20 := Nat.log_lt_of_lt_pow' (by omega) hlt
    omega
  have hle : roundDiv n (10 ^ excessIn 10 6 n) ≤ 10 ^ 6 := roundDiv_excessIn_le (by omega) 6 n
  constructor
  · refine ⟨roundDiv n (10 ^ excessIn 10 6 n) * 5 ^ excessIn 10 6 n, excessIn 10 6 n, ?_, ?_⟩
    · calc roundDiv n (10 ^ excessIn 10 6 n) * 5 ^ excessIn 10 6 n ≤ 10 ^ 6 * 5 ^ 14 :=
            Nat.mul_le_mul hle (Nat.pow_le_pow_right (by omega) hexcess)
        _ < 2 ^ 53 := by norm_num
    · rw [roundIn, Nat.mul_assoc, ← Nat.mul_pow]
  · calc roundIn 10 6 n ≤ 10 ^ 6 * 10 ^ 14 :=
          Nat.mul_le_mul hle (Nat.pow_le_pow_right (by omega) hexcess)
      _ = 10 ^ 20 := by norm_num

/-- **Printing an integer and reading it back** rounds it to six significant
digits. -/
theorem atof_formatG_nat {n : Nat} (hlt : n < 10 ^ 20) (neg : Bool) :
    atof (formatG (.finite neg n)) = .finite neg (roundIn 10 6 n : Nat) := by
  obtain ⟨_, ⟨m, e, rfl, hscale, hvalue⟩, htext⟩ := formatG_nat hlt
  obtain ⟨hfits, hle⟩ := fits_roundIn hlt
  rw [htext, m.atof_text, scaled, hscale, Int.toNat_natCast, Int.toNat_neg_natCast, hvalue,
    Nat.pow_zero]
  have hmax : roundIn 10 6 n < 2 ^ binary64.maxExp := by
    calc roundIn 10 6 n ≤ 10 ^ 20 := hle
      _ < 2 ^ 67 := by norm_num
      _ ≤ 2 ^ binary64.maxExp := Nat.pow_le_pow_right (by omega) (by decide)
  exact ofFraction_one (by decide) (by decide) hfits hmax neg

theorem nul_not_mem_formatG_nat {n : Nat} (hlt : n < 10 ^ 20) (neg : Bool) :
    (0 : UInt8) ∉ formatG (.finite neg n) := by
  obtain ⟨_, ⟨m, e, rfl, -, -⟩, htext⟩ := formatG_nat hlt
  rw [htext, List.mem_append]
  rintro (hsign | hmem)
  · revert hsign
    cases neg <;> decide
  · exact (Numeral.isNumeric_of_mem hmem).ne_nul rfl

end CString
