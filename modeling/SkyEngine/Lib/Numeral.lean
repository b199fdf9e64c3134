import SkyEngine.Lib.CString

/-!
# Lib — Numeral

A printed decimal number taken apart into its digits and its exponent, and
what `atof` reads back from one.
-/

namespace CString

open Rounding Binary64

/-! ## Digits -/

theorem natOfDigits_concat (b : Nat) (ds : List Nat) (d : Nat) :
    natOfDigits b (ds ++ [d]) = b * natOfDigits b ds + d := by
  simp [natOfDigits]

theorem natOfDigits_append_zeros (b : Nat) (ds : List Nat) (z : Nat) :
    natOfDigits b (ds ++ List.replicate z 0) = natOfDigits b ds * b ^ z := by
  induction z with
  | zero => simp
  | succ z ih =>
      rw [List.replicate_succ', ← List.append_assoc, natOfDigits_concat, ih, Nat.pow_succ,
        Nat.add_zero]
      ring

@[simp] theorem length_digitsOf (d : Nat) : (digitsOf d).length = 6 := by simp [digitsOf]

theorem lt_ten_of_mem_digitsOf {d x : Nat} (h : x ∈ digitsOf d) : x < 10 := by
  simp only [digitsOf, List.mem_map] at h
  obtain ⟨i, -, rfl⟩ := h
  exact Nat.mod_lt _ (by omega)

/-- The leading digits are the number without the low ones. -/
theorem natOfDigits_take_digitsOf {d : Nat} (hd : d < 10 ^ 6) {j : Nat} (hj : j ≤ 6) :
    natOfDigits 10 ((digitsOf d).take j) = d / 10 ^ (6 - j) := by
  induction j with
  | zero =>
      rw [List.take_zero, Nat.div_eq_of_lt hd]
      rfl
  | succ j ih =>
      have hlen : j < (digitsOf d).length := by
        rw [length_digitsOf]
        omega
      have hdigit : (digitsOf d)[j] = d / 10 ^ (5 - j) % 10 := by simp [digitsOf]
      have hpow : 10 ^ (6 - j) = 10 ^ (5 - j) * 10 := by
        rw [show 6 - j = 5 - j + 1 by omega, Nat.pow_succ]
      -- one digit more is one step more of Horner's rule
      rw [← List.take_concat_get' _ j hlen, natOfDigits_concat, ih (by omega), hdigit, hpow,
        ← Nat.div_div_eq_div_mul, Nat.div_add_mod, show 6 - (j + 1) = 5 - j by omega]

theorem natOfDigits_digitsOf {d : Nat} (hd : d < 10 ^ 6) : natOfDigits 10 (digitsOf d) = d := by
  have h := natOfDigits_take_digitsOf hd (Nat.le_refl 6)
  rwa [List.take_of_length_le (by simp), Nat.sub_self, Nat.pow_zero, Nat.div_one] at h

/-! ## Trailing zeros -/

/-- The digits of a fraction that are printed. -/
def trimmed (ds : List Nat) : List Nat := ds.rdropWhile (· = 0)

theorem trimmed_append_zeros (ds : List Nat) :
    ∃ z, ds = trimmed ds ++ List.replicate z 0 ∧ (trimmed ds).length + z = ds.length := by
  have hzeros : ds.rtakeWhile (· = 0) = List.replicate (ds.rtakeWhile (· = 0)).length 0 := by
    refine List.eq_replicate_of_mem fun x hx => ?_
    simpa using List.mem_rtakeWhile_imp hx
  have happ : trimmed ds ++ ds.rtakeWhile (· = 0) = ds := List.rdropWhile_append_rtakeWhile
  refine ⟨(ds.rtakeWhile (· = 0)).length, ?_, ?_⟩
  · rw [← hzeros]
    exact happ.symm
  · rw [← List.length_append, happ]

theorem mem_of_mem_trimmed {ds : List Nat} {x : Nat} (h : x ∈ trimmed ds) : x ∈ ds :=
  (List.rdropWhile_prefix _ _).subset h

theorem trimmed_zeros {ds : List Nat} (h : ∀ d ∈ ds, d = 0) : trimmed ds = [] := by
  rw [trimmed, List.rdropWhile_eq_nil_iff]
  intro d hd
  simpa using h d hd

theorem fractionText_eq (ds : List Nat) :
    fractionText ds
      = if trimmed ds = [] then [] else ascii ['.'] ++ (trimmed ds).map digitByte := rfl

/-! ## Bytes -/

/-- A byte of a printed number. -/
def IsNumeric (b : UInt8) : Prop := (decDigit b).isSome ∨ b ∈ ascii ['.', 'e', '+', '-']

instance (b : UInt8) : Decidable (IsNumeric b) := by
  unfold IsNumeric
  exact inferInstance

theorem decDigit_digitByte {d : Nat} (h : d < 10) : decDigit (digitByte d) = some d := by
  revert d
  decide

theorem isNumeric_digitByte {d : Nat} (h : d < 10) : IsNumeric (digitByte d) :=
  Or.inl (by rw [decDigit_digitByte h]; rfl)

/-- A digit is no space, no sign and no letter. -/
theorem digitByte_plain {d : Nat} (h : d < 10) :
    isSpace (digitByte d) = false ∧ digitByte d ≠ 45 ∧ digitByte d ≠ 43
      ∧ lower [digitByte d] = [digitByte d] ∧ digitByte d ≠ 105 ∧ digitByte d ≠ 110 := by
  revert d
  decide

theorem IsNumeric.ne_nul {b : UInt8} (h : IsNumeric b) : b ≠ 0 := by
  rintro rfl
  revert h
  decide

/-- No number begins like a hexadecimal one, whatever the case. -/
theorem IsNumeric.lower_ne {b : UInt8} (h : IsNumeric b) : lower [b] ≠ ascii ['x'] := by
  intro hx
  simp only [lower, ascii, List.map_cons, List.map_nil, List.cons.injEq, and_true] at hx
  split at hx
  · have hb : b = 88 := by
      have hb32 : b + 32 = 88 + 32 := hx
      exact (UInt8.add_left_inj 32).mp hb32
    subst hb
    revert h
    decide
  · subst hx
    revert h
    decide

theorem spanDigits_map {ds : List Nat} {rest : Bytes} (hds : ∀ d ∈ ds, d < 10)
    (hrest : ∀ b ∈ rest.head?, decDigit b = none) :
    spanDigits decDigit (ds.map digitByte ++ rest) = (ds, rest) := by
  induction ds with
  | nil =>
      cases rest with
      | nil => rfl
      | cons b rest =>
          have hb : decDigit b = none := hrest b rfl
          simp [spanDigits, hb]
  | cons d ds ih =>
      have hd : decDigit (digitByte d) = some d := decDigit_digitByte (hds d (by simp))
      simp [spanDigits, hd, ih fun x hx => hds x (List.mem_cons_of_mem _ hx)]

/-- An exponent is its marker, its sign and at most three digits. -/
theorem exponentText_digits {x : Int} (h : x.natAbs < 1000) :
    ∃ ds, (∀ d ∈ ds, d < 10) ∧ natOfDigits 10 ds = x.natAbs ∧
      exponentText x = 101 :: (if x < 0 then 45 else 43) :: ds.map digitByte := by
  refine ⟨if x.natAbs < 100 then [x.natAbs / 10, x.natAbs % 10]
    else [x.natAbs / 100, x.natAbs / 10 % 10, x.natAbs % 10], ?_, ?_, ?_⟩
  · intro d hd
    split at hd <;> simp only [List.mem_cons, List.not_mem_nil, or_false] at hd <;> omega
  · split <;> simp only [natOfDigits, List.foldl_cons, List.foldl_nil] <;> omega
  · unfold exponentText
    by_cases hx : x < 0
    · simp only [hx, if_true]
      rfl
    · simp only [hx, if_false]
      rfl

theorem exponentOf_exponentText {x : Int} (h : x.natAbs < 1000) :
    exponentOf 'e' (exponentText x) = x := by
  obtain ⟨ds, hds, hval, htext⟩ := exponentText_digits h
  have hspan : spanDigits decDigit (ds.map digitByte) = (ds, []) := by
    simpa using @spanDigits_map ds [] hds (by simp)
  have hmarker : (lower [101] == ascii ['e']) = true := by decide
  rw [htext]
  by_cases hx : x < 0
  · simp only [exponentOf, List.take_succ_cons, List.take_zero, hmarker, List.drop_succ_cons,
      List.drop_zero, hx, if_true, signOf, hspan, hval]
    omega
  · have hplus : ((43 : UInt8) = 45) = False := by decide
    simp only [exponentOf, List.take_succ_cons, List.take_zero, hmarker, List.drop_succ_cons,
      List.drop_zero, hx, if_false, signOf, hplus, if_true, hspan, hval, Bool.false_eq_true]
    omega

/-! ## Lengths -/

theorem length_fractionText_le (ds : List Nat) : (fractionText ds).length ≤ ds.length + 1 := by
  have hle : (trimmed ds).length ≤ ds.length := (List.rdropWhile_prefix _ _).length_le
  rw [fractionText_eq]
  split
  · exact Nat.zero_le _
  · rw [List.length_append, List.length_map]
    show 1 + (trimmed ds).length ≤ ds.length + 1
    omega

theorem length_exponentText_le (x : Int) : (exponentText x).length ≤ 5 := by
  unfold exponentText
  simp only [List.length_append, List.length_map]
  split <;> split <;> simp [ascii]

theorem length_magnitudeText_le (num den : Nat) : (magnitudeText num den).length ≤ 12 := by
  unfold magnitudeText
  rcases sixDigits num den with ⟨d, x⟩
  simp only
  split
  · have hfrac := length_fractionText_le ((digitsOf d).drop 1)
    have hexp := length_exponentText_le x
    simp only [List.length_append, List.length_map, List.length_take, List.length_drop,
      length_digitsOf] at hfrac ⊢
    omega
  · split
    · have hfrac := length_fractionText_le (List.replicate (-x - 1).toNat 0 ++ digitsOf d)
      simp only [List.length_append, List.length_replicate, length_digitsOf] at hfrac ⊢
      simp only [ascii, List.length_map, List.length_cons, List.length_nil]
      omega
    · have hfrac := length_fractionText_le ((digitsOf d).drop (x.toNat + 1))
      simp only [List.length_append, List.length_map, List.length_take, List.length_drop,
        length_digitsOf] at hfrac ⊢
      omega

/-- **What `%g` prints is short.** -/
theorem length_formatG_le (x : Double) : (formatG x).length ≤ 13 := by
  cases x with
  | nan => decide
  | inf neg => cases neg <;> decide
  | finite neg mag =>
      have hmag := length_magnitudeText_le mag.num.natAbs mag.den
      have hsign : (if neg then ascii ['-'] else []).length ≤ 1 := by cases neg <;> decide
      unfold formatG
      rw [List.length_append]
      by_cases hzero : mag = 0
      · rw [if_pos hzero]
        show _ + 1 ≤ 13
        omega
      · rw [if_neg hzero]
        omega

/-! ## Numerals -/

/-- A printed number: the digits before and behind the point, and the
exponent if there is one. -/
structure Numeral where
  whole : List Nat
  fraction : List Nat
  exponent : Option Int
  whole_ne : whole ≠ []
  digit_lt : ∀ d ∈ whole ++ fraction, d < 10
  exponent_lt : ∀ x ∈ exponent, x.natAbs < 1000

namespace Numeral

def exponentPart (m : Numeral) : Bytes := m.exponent.elim [] exponentText

def text (m : Numeral) : Bytes :=
  m.whole.map digitByte ++ fractionText m.fraction ++ m.exponentPart

/-- The printed digits as one number. -/
def mantissa (m : Numeral) : Nat := natOfDigits 10 (m.whole ++ trimmed m.fraction)

/-- The power of ten of the last printed digit. -/
def scale (m : Numeral) : Int := m.exponent.getD 0 - (trimmed m.fraction).length

theorem exponentPart_head (m : Numeral) : ∀ b ∈ m.exponentPart.head?, b = 101 := by
  intro b hb
  unfold exponentPart at hb
  cases hx : m.exponent with
  | none => simp [hx] at hb
  | some x =>
      obtain ⟨ds, -, -, htext⟩ := exponentText_digits (m.exponent_lt x hx)
      simpa [hx, htext, eq_comm] using hb

theorem exponentOf_exponentPart (m : Numeral) :
    exponentOf 'e' m.exponentPart = m.exponent.getD 0 := by
  unfold exponentPart
  cases hx : m.exponent with
  | none => rfl
  | some x => exact exponentOf_exponentText (m.exponent_lt x hx)

/-- **What is printed is what the reader takes apart.** -/
theorem mantissaOf_text (m : Numeral) :
    mantissaOf decDigit 10 m.text
      = some (m.mantissa, (trimmed m.fraction).length, m.exponentPart) := by
  have hwhole : ∀ d ∈ m.whole, d < 10 := fun d hd => m.digit_lt d (List.mem_append_left _ hd)
  have hfrac : ∀ d ∈ trimmed m.fraction, d < 10 := fun d hd =>
    m.digit_lt d (List.mem_append_right _ (mem_of_mem_trimmed hd))
  have hexp : ∀ b ∈ m.exponentPart.head?, decDigit b = none := by
    intro b hb
    rw [m.exponentPart_head b hb]
    rfl
  by_cases htrim : trimmed m.fraction = []
  · have hspan : spanDigits decDigit m.text = (m.whole, m.exponentPart) := by
      rw [text, fractionText_eq, if_pos htrim, List.append_nil]
      exact spanDigits_map hwhole hexp
    unfold mantissaOf
    rw [hspan]
    simp only [mantissa, htrim, List.append_nil, List.length_nil]
    cases hrest : m.exponentPart with
    | nil => simp [m.whole_ne]
    | cons b rest =>
        have hb : b = 101 := m.exponentPart_head b (by rw [hrest]; rfl)
        simp [hb, m.whole_ne]
  · have hspan : spanDigits decDigit m.text
        = (m.whole, 46 :: ((trimmed m.fraction).map digitByte ++ m.exponentPart)) := by
      rw [text, fractionText_eq, if_neg htrim, List.append_assoc]
      refine spanDigits_map hwhole fun b hb => ?_
      have hpoint : (46 : UInt8) = b := by simpa [ascii] using hb
      rw [← hpoint]
      rfl
    unfold mantissaOf
    rw [hspan]
    simp [mantissa, spanDigits_map hfrac hexp, m.whole_ne]

theorem decValue_text (m : Numeral) (neg : Bool) :
    decValue neg m.text = some (scaled neg m.mantissa 10 m.scale) := by
  simp [decValue, mantissaOf_text, exponentOf_exponentPart, scale]

theorem isNumeric_of_mem {m : Numeral} {b : UInt8} (h : b ∈ m.text) : IsNumeric b := by
  have hdigits : ∀ {ds : List Nat}, (∀ d ∈ ds, d < 10) → b ∈ ds.map digitByte → IsNumeric b := by
    intro ds hds hb
    obtain ⟨d, hd, rfl⟩ := List.mem_map.mp hb
    exact isNumeric_digitByte (hds d hd)
  rw [text, List.mem_append, List.mem_append] at h
  rcases h with (hwhole | hfrac) | hexp
  · exact hdigits (fun d hd => m.digit_lt d (List.mem_append_left _ hd)) hwhole
  · rw [fractionText_eq] at hfrac
    split at hfrac
    · cases hfrac
    · rcases List.mem_append.mp hfrac with hpoint | htrim
      · exact Or.inr (List.mem_singleton.mp hpoint ▸ by decide)
      · exact hdigits (fun d hd =>
          m.digit_lt d (List.mem_append_right _ (mem_of_mem_trimmed hd))) htrim
  · unfold exponentPart at hexp
    cases hx : m.exponent with
    | none => simp [hx] at hexp
    | some x =>
        obtain ⟨ds, hds, -, htext⟩ := exponentText_digits (m.exponent_lt x hx)
        rw [hx, Option.elim_some, htext] at hexp
        rcases List.mem_cons.mp hexp with rfl | hexp
        · decide
        · rcases List.mem_cons.mp hexp with hsign | hexp
          · subst hsign
            split <;> decide
          · exact hdigits hds hexp

/-- A number starts with a digit. -/
theorem text_eq_cons (m : Numeral) : ∃ d rest, d < 10 ∧ m.text = digitByte d :: rest := by
  obtain ⟨d, ds, hds⟩ := List.exists_cons_of_ne_nil m.whole_ne
  refine ⟨d, ds.map digitByte ++ fractionText m.fraction ++ m.exponentPart, ?_, ?_⟩
  · exact m.digit_lt d (by simp [hds])
  · simp [text, hds]

/-- **`atof` of a printed number** is its digits times a power of ten. -/
theorem atof_text (m : Numeral) (neg : Bool) :
    atof ((if neg then ascii ['-'] else []) ++ m.text)
      = scaled neg m.mantissa 10 m.scale := by
  obtain ⟨d, rest, hd, htext⟩ := m.text_eq_cons
  obtain ⟨hspace, hminus, hplus, hlower, hi, hn⟩ := digitByte_plain hd
  have hsign : signOf (((if neg then ascii ['-'] else []) ++ m.text).dropWhile isSpace)
      = (neg, m.text) := by
    cases neg with
    | false => simp [htext, hspace, signOf, hminus, hplus]
    | true =>
        have hdash : isSpace 45 = false := by decide
        simp [ascii, hdash, signOf]
  have hhead : ∀ k, lower (m.text.take (k + 1)) = digitByte d :: lower (rest.take k) := by
    intro k
    rw [htext, List.take_succ_cons]
    exact congrArg (· ++ lower (rest.take k)) hlower
  -- the keywords fail at the first byte, `0x` at the second
  have hinf : lower (m.text.take 3) ≠ ascii ['i', 'n', 'f'] := by
    rw [hhead]
    exact fun h => hi (List.cons.inj h).1
  have hnan : lower (m.text.take 3) ≠ ascii ['n', 'a', 'n'] := by
    rw [hhead]
    exact fun h => hn (List.cons.inj h).1
  have hhex : lower (m.text.take 2) ≠ ascii ['0', 'x'] := by
    rw [hhead]
    intro h
    cases rest with
    | nil => cases (List.cons.inj h).2
    | cons b rest =>
        have hb : IsNumeric b := isNumeric_of_mem (by rw [htext]; simp)
        exact hb.lower_ne (List.cons.inj h).2
  unfold atof
  rw [hsign]
  simp only [hinf, hnan, hhex, if_false, decValue_text]
  rfl

end Numeral

end CString
