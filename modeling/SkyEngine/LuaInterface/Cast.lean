import SkyEngine.Meta.TypeCheck

/-!
# LuaInterface — Cast

`MetaLuaCast` (`Base/LuaInterface.cpp`), the `cast` entry of a bound class.
It reads its first argument as an `Object`, looks up the run-time class and
would write the object back as one of that class if `IsDerivedFrom` ever
said yes. The file's own `IsDerivedFrom` says no to everything, so scripts
get `nil`.
-/

namespace SkyEngine.Meta

open Lua

variable {κ σ : Type} [DecidableEq κ] {R : Registrations κ}

omit [DecidableEq κ] in
/-- `IsDerivedFrom`, a stub in `LuaInterface.cpp`. -/
def isDerivedFrom (_ _ : MetaPtr κ) : Bool := false

/-- The class of the object `MetaLuaCast` has read, `MetaClassVoid` for
null. -/
def castSource (R : Registrations κ) (sys : MetaSystem κ) (ids : ObjectIds) (pBase : Int) :
    Except Fault (MetaPtr κ) :=
  if pBase = 0 then .ok (sys.self R.voidType) else sys.getMetaClassById (ids pBase)

section

variable (api : LuaApi κ σ) (sys : MetaSystem κ) (lay : Layout R) (ids : ObjectIds)

/-- The end of `MetaLuaCast`: `sourceType` is the class that was looked up.
`ppSourceObj` is never null, so the two tests of it are left out. -/
def castObject (upval sourceType : MetaPtr κ) (pBase : Int) (L : σ) : Except Fault σ :=
  let sourceClass :=
    if (sys.obj sourceType).isClass then sourceType else sys.self R.voidType
  if isDerivedFrom sourceClass upval then
    writeType api sys lay ids sourceClass (lay.downcast sourceClass.type pBase) L
  else .ok (api.push L .nil)

/-- `MetaLuaCast`; the message is that of the error it raises. `objectType`
is the class `Object` itself. -/
def metaLuaCast (objectType : κ) (upval : MetaPtr κ) (L : σ) :
    Except Fault (σ × Option String) := do
  let mc := sys.self objectType
  let r ← readType api sys lay ids mc L 1 0
  match r.error with
  | some err => .ok (r.state, some err)
  | none => do
      let pBase := lay.upcast mc.type r.object
      let sourceType ← castSource R sys ids pBase
      let L ← castObject api sys lay ids upval sourceType pBase r.state
      .ok (L, none)

/-- **`cast` yields nothing but `nil`**: whatever its argument, it either
raises the error of `ReadType` and leaves Lua alone, or pushes `nil`. -/
theorem metaLuaCast_view {objectType : κ} {upval : MetaPtr κ} {L L' : σ}
    {err : Option String}
    (h : metaLuaCast api sys lay ids objectType upval L = .ok (L', err)) :
    api.view L' = if err.isSome then api.view L else (api.view L).push .nil := by
  obtain ⟨r, hread, h⟩ := bind_ok h
  have hview := readType_view api sys lay ids _ _ _ _ hread
  cases herr : r.error with
  | some e =>
      simp only [herr] at h
      cases h
      exact hview
  | none =>
      simp only [herr] at h
      obtain ⟨sourceType, _, h⟩ := bind_ok h
      obtain ⟨L₁, hcast, h⟩ := bind_ok h
      cases h
      -- the stub never lets the object through
      simp only [castObject, isDerivedFrom, Bool.false_eq_true, if_false] at hcast
      cases hcast
      rw [api.push_eq, hview]
      rfl

end

end SkyEngine.Meta
