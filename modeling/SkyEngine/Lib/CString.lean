import SkyEngine.Lib.Binary64
import Mathlib.Data.List.DropRight
import Mathlib.Data.List.TakeWhile
import Mathlib.Data.Nat.Log

/-!
# Lib — CString

C strings, and the two conversions of the C library between them and
numbers: `snprintf` with `%g` and `atof`. Both are exact on the number's
value and round once.
-/

namespace CString

open Rounding Binary64

/-- A C string or the contents of a `std::string`. -/
abbrev Bytes := List UInt8

/-- What a reader of a C string sees: everything before the first NUL. -/
def cText (b : Bytes) : Bytes := b.takeWhile (· ≠ 0)

theorem cText_of_no_nul {b : Bytes} (h : (0 : UInt8) ∉ b) : cText b = b := by
  rw [cText, List.takeWhile_eq_self_iff]
  intro x hx
  have hne : x ≠ 0 := fun he => h (he ▸ hx)
  simpa using hne

theorem nul_not_mem_cText (b : Bytes) : (0 : UInt8) ∉ cText b := by
  intro h
  simpa using List.mem_takeWhile_imp h

@[simp] theorem cText_cText (b : Bytes) : cText (cText b) = cText b :=
  cText_of_no_nul (nul_not_mem_cText b)

/-- The bytes of ASCII characters. -/
def ascii (cs : List Char) : Bytes := cs.map fun c => UInt8.ofNat c.toNat

/-! ## `%g` -/

/-- `⌊log₁₀ (num / den)⌋` for a positive fraction. -/
def log10Div (num den : Nat) : Int :=
  let e : Int := (Nat.log 10 num : Int) - Nat.log 10 den
  if num * 10 ^ (-e).toNat < den * 10 ^ e.toNat then e - 1 else e

/-- Six significant decimal digits of a positive fraction (ties to even)
and the exponent of the first. -/
def sixDigits (num den : Nat) : Nat × Int :=
  let x := log10Div num den
  let d := roundDiv (num * 10 ^ (5 - x).toNat) (den * 10 ^ (x - 5).toNat)
  if d = 10 ^ 6 then (10 ^ 5, x + 1) else (d, x)

def digitByte (d : Nat) : UInt8 := UInt8.ofNat (48 + d)

/-- The six digits, first to last. -/
def digitsOf (d : Nat) : List Nat := (List.range 6).map fun i => d / 10 ^ (5 - i) % 10

/-- The fraction without its trailing zeros, and no point when none is
left. -/
def fractionText (ds : List Nat) : Bytes :=
  let kept := ds.rdropWhile (· = 0)
  if kept = [] then [] else ascii ['.'] ++ kept.map digitByte

/-- The exponent has at least two digits. -/
def exponentText (x : Int) : Bytes :=
  let e := x.natAbs
  let sign := if x < 0 then ascii ['e', '-'] else ascii ['e', '+']
  let digits := if e < 100 then [e / 10, e % 10] else [e / 100, e / 10 % 10, e % 10]
  sign ++ digits.map digitByte

def magnitudeText (num den : Nat) : Bytes :=
  let (d, x) := sixDigits num den
  let ds := digitsOf d
  if x < -4 ∨ 6 ≤ x then
    (ds.take 1).map digitByte ++ fractionText (ds.drop 1) ++ exponentText x
  else if x < 0 then
    ascii ['0'] ++ fractionText (List.replicate (-x - 1).toNat 0 ++ ds)
  else
    (ds.take (x.toNat + 1)).map digitByte ++ fractionText (ds.drop (x.toNat + 1))

/-- `%g`. -/
def formatG : Double → Bytes
  | .nan => ascii ['n', 'a', 'n']
  | .inf neg => (if neg then ascii ['-'] else []) ++ ascii ['i', 'n', 'f']
  | .finite neg mag =>
      (if neg then ascii ['-'] else [])
        ++ if mag = 0 then ascii ['0'] else magnitudeText mag.num.natAbs mag.den

/-! ## `atof` -/

def isSpace (b : UInt8) : Bool := b == 32 || (9 ≤ b && b ≤ 13)

def decDigit (b : UInt8) : Option Nat :=
  if 48 ≤ b ∧ b ≤ 57 then some (b.toNat - 48) else none

def hexDigit (b : UInt8) : Option Nat :=
  if 48 ≤ b ∧ b ≤ 57 then some (b.toNat - 48)
  else if 65 ≤ b ∧ b ≤ 70 then some (b.toNat - 55)
  else if 97 ≤ b ∧ b ≤ 102 then some (b.toNat - 87)
  else none

/-- The digits at the front, and what follows them. -/
def spanDigits (digit : UInt8 → Option Nat) : Bytes → List Nat × Bytes
  | [] => ([], [])
  | b :: rest =>
      match digit b with
      | none => ([], b :: rest)
      | some d => (d :: (spanDigits digit rest).1, (spanDigits digit rest).2)

def natOfDigits (base : Nat) (ds : List Nat) : Nat := ds.foldl (fun n d => base * n + d) 0

/-- An optional sign at the front. -/
def signOf : Bytes → Bool × Bytes
  | [] => (false, [])
  | b :: rest =>
      if b = 45 then (true, rest) else if b = 43 then (false, rest) else (false, b :: rest)

/-- The case-folded bytes, for keywords. -/
def lower (s : Bytes) : Bytes := s.map fun b => if 65 ≤ b ∧ b ≤ 90 then b + 32 else b

/-- An exponent behind its marker; without a digit it does not count. -/
def exponentOf (marker : Char) (s : Bytes) : Int :=
  match lower (s.take 1) == ascii [marker], signOf (s.drop 1) with
  | false, _ => 0
  | true, (neg, rest) =>
      let n : Int := natOfDigits 10 (spanDigits decDigit rest).1
      if neg then -n else n

/-- Digits with an optional point: their value without the point, how many
stand behind it, and what follows. -/
def mantissaOf (digit : UInt8 → Option Nat) (base : Nat) (s : Bytes) :
    Option (Nat × Nat × Bytes) :=
  let (ip, rest) := spanDigits digit s
  let (fp, rest) := match rest with
    | b :: rest' => if b = 46 then spanDigits digit rest' else ([], rest)
    | [] => ([], rest)
  if ip = [] ∧ fp = [] then none
  else some (natOfDigits base (ip ++ fp), fp.length, rest)

/-- `m * base ^ e`. -/
def scaled (neg : Bool) (m base : Nat) (e : Int) : Double :=
  ofFraction binary64 neg (m * base ^ e.toNat) (base ^ (-e).toNat)

/-- A hexadecimal number behind its `0x`. -/
def hexValue (neg : Bool) (s : Bytes) : Option Double := do
  let (m, k, rest) ← mantissaOf hexDigit 16 s
  some (scaled neg m 2 (exponentOf 'p' rest - 4 * k))

def decValue (neg : Bool) (s : Bytes) : Option Double := do
  let (m, k, rest) ← mantissaOf decDigit 10 s
  some (scaled neg m 10 (exponentOf 'e' rest - k))

/-- `atof`: the longest prefix that is a number, or 0. -/
def atof (s : Bytes) : Double :=
  let (neg, s) := signOf (s.dropWhile isSpace)
  if lower (s.take 3) = ascii ['i', 'n', 'f'] then .inf neg
  else if lower (s.take 3) = ascii ['n', 'a', 'n'] then .nan
  else
    let hex := if lower (s.take 2) = ascii ['0', 'x'] then hexValue neg (s.drop 2) else none
    (hex <|> decValue neg s).getD .zero

end CString
