import SkyEngine.Meta.Scalar
import SkyEngine.Lib.IntegerText

/-!
# Meta — TextRoundTrip

A value cast to `TgcString` and the text cast back to the value's own type.
A `bool` is written as a word and read as a number, an integer is written
with six significant digits, and a string ends at its first NUL.
-/

namespace SkyEngine.Meta

open Function (update)
open Binary64 CString Rounding

/-- The string type's `DynamicCast` of `v`, and `t`'s `DynamicCast` of the
text. -/
def throughText (buf : Buffers) (v : Datum) (t : ScalarType) : Except Fault Datum := do
  let (text, buf) ← castScalar buf v .tgcString
  let (back, _) ← castScalar buf text t
  .ok back

/-! ## Words and strings -/

/-- Neither word is a number. -/
theorem throughText_bool (buf : Buffers) (b : Bool) :
    throughText buf (.bool b) .bool = .ok (.bool false) := by
  cases b <;> rfl

theorem throughText_tgcString (buf : Buffers) (s : Bytes) :
    throughText buf (.tgcString s) .tgcString = .ok (.tgcString (cText s)) := by
  show Except.ok (Datum.tgcString (cText (cText s))) = _
  rw [cText_cText]

/-! ## Integers -/

theorem IntType.Holds.natAbs_lt {t : IntType} {v : Int} (h : t.Holds v) :
    v.natAbs < 2 ^ 64 := by
  cases t <;> simp only [IntType.Holds, IntType.signed, IntType.bits] at h <;> norm_num at h <;>
    omega

/-- A fixed-width integer has at most twenty digits, rounded or not. -/
theorem ofInt_lt {t : IntType} {v : Int} (h : t.Holds v) : roundBits 53 v.natAbs < 10 ^ 20 := by
  rw [roundBits_eq]
  calc roundIn 2 53 v.natAbs ≤ 2 ^ 64 := roundIn_le Nat.one_lt_two h.natAbs_lt 53
    _ < 10 ^ 20 := by norm_num

/-- The text in the buffer is the whole number. -/
theorem cText_formatG {n : Nat} (hlt : n < 10 ^ 20) (neg : Bool) :
    cText ((formatG (.finite neg n)).take 64) = formatG (.finite neg n) := by
  have hlen := length_formatG_le (.finite neg n)
  rw [List.take_of_length_le (by omega)]
  exact cText_of_no_nul (nul_not_mem_formatG_nat hlt neg)

/-- The buffer is read before anything else is printed there. -/
theorem castScalar_int_text (buf : Buffers) {t : IntType} (v : t.Val) :
    castScalar buf (.int t v) .tgcString
      = .ok (.tgcString (formatG (.ofInt v)), (Datum.printNumber buf (.int t) (.ofInt v)).2) := by
  have htext : (Datum.printNumber buf (.int t) (.ofInt v)).1.read
      (Datum.printNumber buf (.int t) (.ofInt v)).2 = .ok (formatG (.ofInt v)) := by
    show Except.ok (cText (update buf (.int t) ((formatG (.ofInt v)).take 64) (.int t))) = _
    rw [Function.update_self]
    exact congrArg Except.ok (cText_formatG (ofInt_lt v.property) _)
  show ((Datum.printNumber buf (.int t) (.ofInt v)).1.read
      (Datum.printNumber buf (.int t) (.ofInt v)).2 >>= fun text =>
        .ok (Datum.tgcString text, (Datum.printNumber buf (.int t) (.ofInt v)).2)) = _
  rw [htext]
  rfl

/-- **An integer through its text** is rounded to a double, then to six
digits, and has to fit its type again. -/
theorem throughText_int (buf : Buffers) {t : IntType} (v : t.Val) :
    throughText buf (.int t v) (.number (.int t))
      = (castInt t (.finite (decide (v.val < 0))
          (roundIn 10 6 (roundBits 53 v.val.natAbs) : Nat))).map (.int t) := by
  have hlt := ofInt_lt v.property
  have hread : atof (cText (formatG (.ofInt v)))
      = .finite (decide (v.val < 0)) (roundIn 10 6 (roundBits 53 v.val.natAbs) : Nat) := by
    rw [Double.ofInt, cText_of_no_nul (nul_not_mem_formatG_nat hlt _)]
    exact atof_formatG_nat hlt _
  unfold throughText
  rw [castScalar_int_text, ← hread]
  show (castInt t (atof (cText (formatG (.ofInt v)))) >>= _) >>= _ >>= _ = _
  cases castInt t (atof (cText (formatG (.ofInt v)))) <;> rfl

/-- An integer arrives when its magnitude does. -/
theorem castInt_finite_iff {t : IntType} (v : t.Val) (w : Nat) :
    castInt t (.finite (decide (v.val < 0)) w) = .ok v ↔ w = v.val.natAbs := by
  rw [castInt_ok_iff, Double.trunc, Option.some.injEq, Int.floor_natCast]
  by_cases hneg : v.val < 0
  · simp only [hneg, decide_true, if_true]
    omega
  · simp only [hneg, decide_false, Bool.false_eq_true, if_false]
    omega

/-- The rounded number is the number exactly when six digits suffice. -/
theorem rounded_eq_iff {n : Nat} (hlt : n < 10 ^ 20) :
    roundIn 10 6 (roundBits 53 n) = n ↔ FitsIn 10 6 n := by
  constructor
  · intro h
    -- whatever has been rounded has six digits
    have hfits := roundIn_fitsIn (by omega : 1 < 10) (by omega : 0 < 6) (roundBits 53 n)
    rwa [h] at hfits
  · intro h
    -- six digits fit a double, so the first rounding changes nothing either
    have hsix : roundIn 10 6 n = n := (roundIn_eq_self_iff (by omega)).mpr h
    have hfits : Fits 53 n := by
      have hfits := (fits_roundIn hlt).1
      rwa [hsix] at hfits
    rw [roundBits_eq_self_iff.mpr hfits, hsix]

/-- **What survives its text**: `false`, the integers of at most six
significant decimal digits, and the strings without a NUL. -/
theorem throughText_iff (buf : Buffers) :
    (∀ b, throughText buf (.bool b) .bool = .ok (.bool b) ↔ b = false)
      ∧ (∀ (t : IntType) (v : t.Val),
          throughText buf (.int t v) (.number (.int t)) = .ok (.int t v)
            ↔ FitsIn 10 6 v.val.natAbs)
      ∧ ∀ s, throughText buf (.tgcString s) .tgcString = .ok (.tgcString s)
          ↔ (0 : UInt8) ∉ s := by
  refine ⟨fun b => ?_, fun t v => ?_, fun s => ?_⟩
  · rw [throughText_bool]
    constructor
    · intro h
      cases h
      rfl
    · rintro rfl
      rfl
  · have hlt : v.val.natAbs < 10 ^ 20 := by
      have hbits := v.property.natAbs_lt
      omega
    rw [throughText_int, ← rounded_eq_iff hlt, ← castInt_finite_iff]
    constructor
    · intro h
      obtain ⟨w, hw, hv⟩ := map_ok h
      cases hv
      exact hw
    · intro h
      rw [h]
      rfl
  · rw [throughText_tgcString]
    constructor
    · intro h
      have hs : cText s = s := Datum.tgcString.inj (Except.ok.inj h)
      rw [← hs]
      exact nul_not_mem_cText s
    · intro h
      rw [cText_of_no_nul h]

/-- `true`, seven digits, and a NUL in the middle. -/
theorem throughText_lossy :
    throughText (fun _ => []) (.bool true) .bool = .ok (.bool false)
      ∧ throughText (fun _ => []) (.int .int32 ⟨1234567, by decide⟩) (.number (.int .int32))
        = .ok (.int .int32 ⟨1234570, by decide⟩)
      ∧ throughText (fun _ => []) (.tgcString [65, 0, 66]) .tgcString
        = .ok (.tgcString [65]) := by
  have hround : roundIn 10 6 (roundBits 53 (Int.natAbs 1234567)) = 1234570 := by decide
  refine ⟨throughText_bool _ _, ?_, throughText_tgcString _ _⟩
  have hcast : castInt .int32 (.finite (decide ((1234567 : Int) < 0)) (1234570 : Nat))
      = .ok ⟨1234570, by decide⟩ := castInt_ok_iff.mpr rfl
  rw [throughText_int]
  show (castInt .int32 (.finite (decide ((1234567 : Int) < 0))
    (roundIn 10 6 (roundBits 53 (Int.natAbs 1234567)) : Nat))).map _ = _
  rw [hround, hcast]
  rfl

end SkyEngine.Meta
