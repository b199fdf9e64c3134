import SkyEngine.Basic
import SkyEngine.Lib.CString
import Mathlib.Logic.Function.Basic

/-!
# Meta — Scalar

The metatypes that are not classes (`MetaTypeNumber<T>`,
`MetaTypeString<T>` in `Base/Meta.hpp`, `MetaTypeBool` in `Base/Meta.cpp`):
`ToNumber`, `ToString` and `DynamicCast`.

`MetaTypeNumber<T>::ToString` prints into a static buffer, one for each
number type, and returns a pointer to it. The buffers are part of the
state, and a `cstring` is a reference.
-/

namespace SkyEngine.Meta

open Function (update)
open Binary64 CString

/-! ## Types -/

/-- The registered fixed-width integer types. -/
inductive IntType where
  | uint8 | int8 | uint16 | int16 | uint32 | int32 | uint64 | int64
  deriving DecidableEq, Repr

namespace IntType

def bits : IntType → Nat
  | .uint8 => 8
  | .int8 => 8
  | .uint16 => 16
  | .int16 => 16
  | .uint32 => 32
  | .int32 => 32
  | .uint64 => 64
  | .int64 => 64

def signed : IntType → Bool
  | .uint8 => false
  | .int8 => true
  | .uint16 => false
  | .int16 => true
  | .uint32 => false
  | .int32 => true
  | .uint64 => false
  | .int64 => true

/-- The integers the type can hold. -/
def Holds (t : IntType) (v : Int) : Prop :=
  if t.signed then -2 ^ (t.bits - 1) ≤ v ∧ v < 2 ^ (t.bits - 1) else 0 ≤ v ∧ v < 2 ^ t.bits

instance (t : IntType) (v : Int) : Decidable (t.Holds v) := by
  unfold Holds
  exact inferInstance

/-- A value of the type. -/
abbrev Val (t : IntType) := { v : Int // t.Holds v }

end IntType

/-- The types of `META_REGISTER_TYPE_NUMBER`. -/
inductive NumberType where
  | int (t : IntType)
  | float
  | double
  deriving DecidableEq, Repr

/-- The metatypes that are not classes. -/
inductive ScalarType where
  | bool
  | number (n : NumberType)
  | cstring
  | tgcString
  deriving DecidableEq, Repr

/-! ## Values -/

/-- What a `const char *` points to: nothing, text nobody changes, or the
static buffer of a number type. -/
inductive TextRef where
  | null
  | owned (s : Bytes)
  | buffer (n : NumberType)
  deriving DecidableEq

/-- The text in each static buffer. -/
abbrev Buffers := NumberType → Bytes

/-- A value together with its metatype (`Variable`). `obj` stands for every
value whose metatype is a class, `void` included. -/
inductive Datum where
  | bool (b : Bool)
  | int (t : IntType) (v : t.Val)
  | float (x : Double)
  | double (x : Double)
  | cstring (s : TextRef)
  | tgcString (s : Bytes)
  | obj
  deriving DecidableEq

/-- The C string at a pointer. -/
def TextRef.read (buf : Buffers) : TextRef → Except Fault Bytes
  | .null => .error .nullDeref
  | .owned s => .ok (cText s)
  | .buffer n => .ok (cText (buf n))

namespace Datum

/-- The number type of a number. -/
def numberType : Datum → Option NumberType
  | .int t _ => some (.int t)
  | .float _ => some .float
  | .double _ => some .double
  | _ => none

/-- `ToNumber`. A class answers 0. -/
def toNumber (buf : Buffers) : Datum → Except Fault Double
  | .bool b => .ok (if b then .one else .zero)
  | .int _ v => .ok (.ofInt v)
  | .float x => .ok x
  | .double x => .ok x
  | .cstring s => do
      let text ← s.read buf
      .ok (atof text)
  | .tgcString s => .ok (atof (cText s))
  | .obj => .ok .zero

/-- `snprintf(buf, 65, "%g", ToNumber(object))` into the buffer of the
type. -/
def printNumber (buf : Buffers) (n : NumberType) (x : Double) : TextRef × Buffers :=
  (.buffer n, update buf n ((formatG x).take 64))

/-- `ToString`. A class answers `""`. -/
def toText (buf : Buffers) : Datum → TextRef × Buffers
  | .bool b =>
      (.owned (if b then ascii ['t', 'r', 'u', 'e'] else ascii ['f', 'a', 'l', 's', 'e']), buf)
  | .int t v => printNumber buf (.int t) (.ofInt v)
  | .float x => printNumber buf .float x
  | .double x => printNumber buf .double x
  | .cstring s => (s, buf)
  | .tgcString s => (.owned s, buf)
  | .obj => (.owned [], buf)

end Datum

/-! ## `DynamicCast` -/

/-- `(value_type)num` for an integer type: truncation, undefined outside
the type's range. -/
def castInt (t : IntType) (num : Double) : Except Fault t.Val :=
  match num.trunc with
  | none => .error .badCast
  | some v => if h : t.Holds v then .ok ⟨v, h⟩ else .error .badCast

/-- `(value_type)num`. -/
def castNumber (num : Double) : NumberType → Except Fault Datum
  | .int t => do
      let v ← castInt t num
      .ok (.int t v)
  | .float => .ok (.float (num.convert binary32))
  | .double => .ok (.double num)

/-- `DynamicCast` of `source` to a scalar type. A `std::string` copies the
text, a `cstring` keeps the pointer. -/
def castScalar (buf : Buffers) (source : Datum) : ScalarType → Except Fault (Datum × Buffers)
  | .bool => do
      let num ← source.toNumber buf
      .ok (.bool num.isNonzero, buf)
  | .number n => do
      let num ← source.toNumber buf
      let v ← castNumber num n
      .ok (v, buf)
  | .cstring =>
      let (s, buf) := source.toText buf
      .ok (.cstring s, buf)
  | .tgcString => do
      let (s, buf) := source.toText buf
      let text ← s.read buf
      .ok (.tgcString text, buf)

/-! ## Integers through a double -/

/-- A cast returns what truncation returns. -/
theorem castInt_ok_iff {t : IntType} {num : Double} {v : t.Val} :
    castInt t num = .ok v ↔ num.trunc = some v.val := by
  unfold castInt
  cases htr : num.trunc with
  | none => simp
  | some k =>
      by_cases hk : t.Holds k
      · simp [hk, Subtype.ext_iff]
      · have hne : k ≠ v.val := fun he => hk (he ▸ v.property)
        simp [hk, hne]

/-- **What a cast of an integer does**: it arrives exactly when it fits the
53 bits of a double. -/
theorem castInt_ofInt_iff {t : IntType} {v : Int} (hv : t.Holds v) :
    castInt t (.ofInt v) = .ok ⟨v, hv⟩ ↔ Rounding.Fits 53 v.natAbs := by
  rw [castInt_ok_iff]
  exact Double.trunc_ofInt_iff v

end SkyEngine.Meta
