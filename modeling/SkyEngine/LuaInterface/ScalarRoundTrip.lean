import SkyEngine.Meta.Scalar
import SkyEngine.Lib.Lua

/-!
# LuaInterface — ScalarRoundTrip

`WriteType` and `ReadType` of the metatypes that are not classes. Numbers
travel as Lua numbers, which are doubles, and strings as C strings.
-/

namespace SkyEngine.Meta

open Binary64 CString Lua Rounding

variable {P F σ : Type}

section Defs

variable (api : Api P F σ)

/-- `WriteType`. A null `cstring` is pushed as `nil`. -/
def writeScalar (buf : Buffers) (v : Datum) (L : σ) : Except Fault σ :=
  match v with
  | .bool b => .ok (api.push L (.boolean b))
  | .int _ x => .ok (api.push L (.number (.ofInt x)))
  | .float x => .ok (api.push L (.number x))
  | .double x => .ok (api.push L (.number x))
  | .cstring .null => .ok (api.push L .nil)
  | .cstring s => do
      let text ← s.read buf
      .ok (api.pushstring L text)
  | .tgcString s => .ok (api.pushstring L s)
  | .obj => .error .badPointer

/-- `ReadType` into `object`; the message is that of the error raised. A
string is read up to its first NUL, and a value that is no string leaves
`object` as it was. -/
def readScalar (t : ScalarType) (L : σ) (index : Int) (object : Datum) :
    Except Fault (Datum × Option String) :=
  match t with
  | .bool => .ok (.bool (api.toboolean L index), none)
  | .number q =>
      match api.checknumber L index with
      | .error err => .ok (object, some err)
      | .ok num => do
          let v ← castNumber num q
          .ok (v, none)
  | .cstring =>
      if api.isstring L index = false then .ok (object, none)
      else
        match api.checklstring L index with
        | .error err => .ok (object, some err)
        | .ok text => .ok (.cstring (.owned text), none)
  | .tgcString =>
      if api.isstring L index = false then .ok (object, none)
      else
        match api.checklstring L index with
        | .error err => .ok (object, some err)
        | .ok text => .ok (.tgcString (cText text), none)

/-- What `WriteType` pushes, `ReadType` restores, on the same slot. -/
def ScalarRoundTrips (buf : Buffers) (L : σ) (object : Datum) (t : ScalarType) (v : Datum) :
    Prop :=
  ∃ L', writeScalar api buf v L = .ok L' ∧ readScalar api t L' (-1) object = .ok (v, none)

end Defs

variable (api : Api P F σ) (buf : Buffers) (L : σ) (object : Datum)

theorem bool_roundTrips (b : Bool) : ScalarRoundTrips api buf L object .bool (.bool b) := by
  refine ⟨api.push L (.boolean b), rfl, ?_⟩
  have hget : (api.view (api.push L (.boolean b))).get? (-1) = some (.boolean b) := by
    rw [api.push_eq]
    exact State.get?_top _ rfl
  rw [readScalar, api.toboolean_eq _ _ _ hget]
  rfl

/-- What is read back is the cast of the double that was pushed. -/
theorem readScalar_int (t : IntType) (v : t.Val) :
    readScalar api (.number (.int t)) (api.push L (.number (.ofInt v))) (-1) object
      = (castInt t (.ofInt v)).map fun x => (.int t x, none) := by
  have hget : (api.view (api.push L (.number (.ofInt v)))).get? (-1)
      = some (.number (.ofInt v)) := by
    rw [api.push_eq]
    exact State.get?_top _ rfl
  simp only [readScalar, api.checknumber_eq _ _ _ hget, castNumber]
  cases castInt t (.ofInt v) with
  | error e => rfl
  | ok x => rfl

theorem int_roundTrips_iff (t : IntType) (v : t.Val) :
    ScalarRoundTrips api buf L object (.number (.int t)) (.int t v)
      ↔ Fits 53 v.val.natAbs := by
  rw [← castInt_ofInt_iff v.2]
  constructor
  · intro h
    obtain ⟨L', hwrite, hread⟩ := h
    cases hwrite
    rw [readScalar_int] at hread
    cases hc : castInt t (.ofInt v) with
    | error e =>
        rw [hc] at hread
        cases hread
    | ok x =>
        rw [hc] at hread
        cases hread
        rfl
  · intro h
    refine ⟨_, rfl, ?_⟩
    rw [readScalar_int, h]
    rfl

/-- What is read back is the text before the first NUL. -/
theorem readScalar_tgcString (s : Bytes) :
    readScalar api .tgcString (api.pushstring L s) (-1) object
      = .ok (.tgcString (cText s), none) := by
  have hget : (api.view (api.pushstring L s)).get? (-1) = some (.string (cText s)) := by
    rw [api.pushstring_eq]
    exact State.get?_top _ rfl
  have hstring : api.isstring (api.pushstring L s) (-1) = true := by
    rw [api.isstring_eq]
    left
    rw [State.typeAt, hget]
    rfl
  simp only [readScalar, hstring, Bool.true_eq_false, if_false, api.checklstring_eq _ _ _ hget,
    cText_cText]

theorem tgcString_roundTrips_iff (s : Bytes) :
    ScalarRoundTrips api buf L object .tgcString (.tgcString s) ↔ 0 ∉ s := by
  constructor
  · intro h
    obtain ⟨L', hwrite, hread⟩ := h
    cases hwrite
    rw [readScalar_tgcString] at hread
    have htext : cText s = s := Datum.tgcString.inj (Prod.mk.inj (Except.ok.inj hread)).1
    rw [← htext]
    exact nul_not_mem_cText s
  · intro h
    refine ⟨_, rfl, ?_⟩
    rw [readScalar_tgcString, cText_of_no_nul h]

/-- **What survives Lua**, for every interpreter, state and previous
content of the variable: every `bool`, the integers of 53 significant bits,
and the strings without a NUL; nothing else of these types does. -/
theorem scalarRoundTrips_iff :
    (∀ b, ScalarRoundTrips api buf L object .bool (.bool b))
      ∧ (∀ (t : IntType) (v : t.Val),
        ScalarRoundTrips api buf L object (.number (.int t)) (.int t v)
          ↔ Fits 53 v.val.natAbs)
      ∧ ∀ s, ScalarRoundTrips api buf L object .tgcString (.tgcString s) ↔ 0 ∉ s :=
  ⟨bool_roundTrips api buf L object, int_roundTrips_iff api buf L object,
    tgcString_roundTrips_iff api buf L object⟩

/-- An `int64_t` too precise for a double, and a string with a NUL in the
middle. -/
theorem lost_in_lua :
    ¬ ScalarRoundTrips (Api.reference (P := Unit) (F := Unit)) (fun _ => []) State.empty .obj
        (.number (.int .int64)) (.int .int64 ⟨2 ^ 53 + 1, by decide⟩)
      ∧ ¬ ScalarRoundTrips (Api.reference (P := Unit) (F := Unit)) (fun _ => []) State.empty .obj
        .tgcString (.tgcString [65, 0, 66]) := by
  rw [int_roundTrips_iff, tgcString_roundTrips_iff]
  decide

end SkyEngine.Meta
