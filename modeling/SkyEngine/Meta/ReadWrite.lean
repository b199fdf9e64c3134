import SkyEngine.Meta.Cast
import SkyEngine.Lib.Lua

/-!
# Meta — ReadWrite

`MetaClass::WriteType` and `MetaClass::ReadType`: objects travel through
Lua as full userdata that hold one pointer and are labelled, through the
`__metaclass` entry of their metatable, with the class that wrote them.

Both are functions on the state of an arbitrary Lua interpreter
(`Lua.Api`); their specifications speak about the state as the manual
describes it.
-/

namespace SkyEngine.Meta

open Function
open Forest Position Lua

/-! ## The engine's Lua values -/

/-- Pointers the engine meets in light userdata. `MetaLuaBindClass` stores
metaclasses, other code may store anything. -/
inductive LightPtr (κ : Type) where
  | metaClass (mc : MetaPtr κ)
  | other (address : Int)
  deriving DecidableEq

/-- The C functions `MetaLuaBindClass` puts into a metatable. -/
inductive MetaLuaFunction where
  | eq | index | toString | cast | newImpl | deleteImpl
  deriving DecidableEq, Repr

abbrev LuaApi (κ σ : Type) := Api (LightPtr κ) MetaLuaFunction σ

abbrev LuaState (κ : Type) := State (LightPtr κ) MetaLuaFunction

abbrev LuaValue (κ : Type) := Value (LightPtr κ) MetaLuaFunction

variable {κ σ : Type} [DecidableEq κ] {R : Registrations κ}

/-! ## `WriteType` -/

/-- `SizeOfType()`: a pointer, except for `MetaClassVoid`. -/
def sizeOfType (R : Registrations κ) (c : κ) : Nat := if c = R.voidType then 0 else 8

/-- The `Object` whose class id `WriteType` and `MetaLuaCast` look up. -/
def baseObject (lay : Layout R) (mc : MetaPtr κ) (pObject : Int) : Option Int :=
  let pBase := lay.upcast mc.type pObject
  if pBase = 0 then none else some pBase

/-- The pointer `WriteType` stores: that of the run-time class. -/
def writtenPointer (sys : MetaSystem κ) (lay : Layout R) (ids : ObjectIds) (this : MetaPtr κ)
    (pObject : Int) : Except Fault Int :=
  match baseObject lay this pObject with
  | none => .ok pObject
  | some pBase => do
      let mc ← sys.getMetaClassById (ids pBase)
      .ok (lay.downcast mc.type pBase)

/-- `MetaClass::WriteType`; `pObject` is `*ppObject`. -/
def writeType (api : LuaApi κ σ) (sys : MetaSystem κ) (lay : Layout R) (ids : ObjectIds)
    (this : MetaPtr κ) (pObject : Int) (L : σ) : Except Fault σ :=
  if pObject = 0 then .ok (api.push L .nil)
  else do
    let result ← writtenPointer sys lay ids this pObject
    if sizeOfType R this.type = 0 then .error .outOfBounds
    else
      let (u, L) := api.newuserdata L (sizeOfType R this.type)
      let L := api.poke L u result
      let L := api.getglobal L (sys.obj this).name
      .ok (api.setmetatable L)

/-! ## `ReadType` -/

/-- `snprintf(buffer, 1024, "Expected %s, but got %s.", …)`; class names
are identifiers, one byte to a character. -/
def expectedMessage (expected got : String) : String :=
  String.ofList (("Expected " ++ expected ++ ", but got " ++ got ++ ".").toList.take 1023)

/-- How a `ReadType` call ends: the Lua state, `*object`, and the message
if it raised an error. -/
structure ReadResult (σ : Type) where
  state : σ
  object : Int
  error : Option String := none

/-- The check of the label against the expected class `this`. The loop of
the source walks the list of `this`. -/
def acceptsClass (sys : MetaSystem κ) (this metaClass : MetaPtr κ) : Bool :=
  if metaClass = this then true
  else if (sys.obj this).topoOrder = -1 then false
  else decide ((sys.obj this).topoOrder ∈ (sys.obj this).baseTopoIdList)

/-- `MetaClass::ReadType`; `object` is `*object` on entry. -/
def readType (api : LuaApi κ σ) (sys : MetaSystem κ) (lay : Layout R) (ids : ObjectIds)
    (this : MetaPtr κ) (L : σ) (index : Int) (object : Int) :
    Except Fault (ReadResult σ) :=
  let raise (L : σ) (err : String) : Except Fault (ReadResult σ) :=
    .ok ⟨L, object, some (expectedMessage (sys.obj this).name err)⟩
  if api.type L index = .nil then .ok ⟨L, 0, none⟩
  else
    match api.touserdata L index with
    | none => raise L (api.typename (api.type L index))
    | some pObject =>
        match api.getmetatable L index with
        | none => raise L (api.typename (api.type L index))
        | some L =>
            let L := api.getfield L (-1) "__metaclass"
            let metaClass := api.touserdata L (-1)
            let L := api.settop L (-3)
            match metaClass with
            | none => raise L "<unknown userdata>"
            | some (.light (.metaClass metaClass)) =>
                if acceptsClass sys this metaClass then do
                  let result ← dynamicCast sys lay ids this (api.peek L pObject) metaClass
                  .ok ⟨L, result, none⟩
                else raise L (sys.obj metaClass).name
            | some _ => .error .badPointer

/-! ## What Lua sees -/

/-- The full userdata `u` is labelled with the class `c`. -/
def Labelled (v : LuaState κ) (u : Nat) (c : κ) : Prop :=
  ∃ t, v.metatable u = some t ∧ v.field t "__metaclass" = .lightuserdata (.metaClass (.copy c))

/-- The metatable of `c` is bound: the global of its name is a table that
carries `c` as `__metaclass`. -/
def Bound (R : Registrations κ) (v : LuaState κ) (c : κ) : Prop :=
  ∃ t < v.tableCount, v.global (R.nameOf c) = .table t
    ∧ v.field t "__metaclass" = .lightuserdata (.metaClass (.copy c))

/-- The state after a userdata with pointer `a`, labelled by the table `t`,
was created on top of `v`. -/
def pushObject (v : LuaState κ) (a : Int) (t : Nat) : LuaState κ :=
  { v with
    stack := .userdata v.userdataCount :: v.stack
    block := update v.block v.userdataCount a
    metatable := update v.metatable v.userdataCount (some t)
    userdataCount := v.userdataCount + 1 }

theorem Registry.name_eq {sys : MetaSystem κ} {ord tops : List κ}
    (h : Registry R sys ord tops) (c : κ) : (sys.obj (.copy c)).name = R.nameOf c := by
  rw [h.name, Registrations.nameOf]
  simp only [Registrations.statics]
  cases R.find c with
  | none => rfl
  | some r => rfl

section Specs

variable (api : LuaApi κ σ) (sys : MetaSystem κ) (lay : Layout R) (ids : ObjectIds)

/-- A null pointer is written as `nil`. -/
theorem writeType_null (this : MetaPtr κ) (L : σ) :
    writeType api sys lay ids this 0 L = .ok (api.push L .nil) := by
  simp [writeType]

/-- **What `WriteType` does to Lua**: one fresh userdata on top that holds
the written pointer and has the global of the class's name for a metatable,
or none if that is `nil`. -/
theorem writeType_view {this : MetaPtr κ} {pObject : Int} (hp : pObject ≠ 0) {L L' : σ}
    (hset : (∃ t, (api.view L).global (sys.obj this).name = .table t)
      ∨ (api.view L).global (sys.obj this).name = .nil)
    (h : writeType api sys lay ids this pObject L = .ok L') :
    ∃ a, writtenPointer sys lay ids this pObject = .ok a
      ∧ api.view L' = { api.view L with
          stack := .userdata (api.view L).userdataCount :: (api.view L).stack
          block := update (api.view L).block (api.view L).userdataCount a
          metatable := update (api.view L).metatable (api.view L).userdataCount
            ((api.view L).global (sys.obj this).name).table?
          userdataCount := (api.view L).userdataCount + 1 } := by
  rw [writeType, if_neg hp] at h
  obtain ⟨a, ha, h⟩ := bind_ok h
  refine ⟨a, ha, ?_⟩
  split at h
  · cases h
  · cases h
    obtain ⟨hu, hnew⟩ := api.newuserdata_eq L (sizeOfType R this.type)
    let L₂ := api.poke (api.newuserdata L (sizeOfType R this.type)).2 (api.view L).userdataCount a
    have h₂ : api.view L₂ = { (api.view L).newUserdata with
        block := update (api.view L).block (api.view L).userdataCount a } := by
      show api.view (api.poke _ _ _) = _
      rw [api.poke_eq, hnew]
      rfl
    have h₃ : api.view (api.getglobal L₂ (sys.obj this).name)
        = (api.view L₂).push ((api.view L).global (sys.obj this).name) := by
      rw [api.getglobal_eq, h₂]
      rfl
    rw [hu]
    rcases hset with ⟨t, ht⟩ | hnil
    · rw [ht, h₂] at h₃
      rw [api.setmetatable_table (api.getglobal L₂ (sys.obj this).name) t
        (api.view L).userdataCount (api.view L).stack (by rw [h₃]; rfl), h₃, ht]
      simp [State.push, State.newUserdata, Value.table?]
    · rw [hnil, h₂] at h₃
      rw [api.setmetatable_nil (api.getglobal L₂ (sys.obj this).name)
        (api.view L).userdataCount (api.view L).stack (by rw [h₃]; rfl), h₃, hnil]
      simp [State.push, State.newUserdata, Value.table?]

/-- `WriteType` returns as soon as it knows what to write. -/
theorem writeType_total {c : κ} (hv : c ≠ R.voidType) {pObject a : Int}
    (ha : writtenPointer sys lay ids (.copy c) pObject = .ok a) (L : σ) :
    ∃ L', writeType api sys lay ids (.copy c) pObject L = .ok L' := by
  have hsize : sizeOfType R c = 8 := if_neg hv
  by_cases hp : pObject = 0
  · exact ⟨_, if_pos hp⟩
  · simp only [writeType, if_neg hp, ha, bind, Except.bind, MetaPtr.type, hsize]
    exact ⟨_, rfl⟩

/-- **`WriteType` of a live pointer** pushes one fresh userdata that holds
the written pointer and carries the class's own metatable. -/
theorem writeType_spec {ord tops : List κ} (h : Registry R sys ord tops) {c : κ}
    (hv : c ≠ R.voidType)
    {pObject a : Int} (hp : pObject ≠ 0)
    (ha : writtenPointer sys lay ids (.copy c) pObject = .ok a) {L : σ} {t : Nat}
    (ht : (api.view L).global (R.nameOf c) = .table t) :
    ∃ L', writeType api sys lay ids (.copy c) pObject L = .ok L'
      ∧ api.view L' = pushObject (api.view L) a t := by
  obtain ⟨L', hwrite⟩ := writeType_total api sys lay ids hv ha L
  rw [← h.name_eq] at ht
  obtain ⟨a', ha', hview⟩ := writeType_view api sys lay ids hp (.inl ⟨t, ht⟩) hwrite
  cases ha.symm.trans ha'
  rw [ht] at hview
  exact ⟨L', hwrite, hview⟩

/-- **`ReadType` of a labelled userdata**: the label decides between the
cast of the stored pointer and the error, and nothing in Lua changes. -/
theorem readType_spec (this : MetaPtr κ) {L : σ} {index : Int} {u : Nat} {c : κ}
    (hu : (api.view L).get? index = some (.userdata u)) (hc : Labelled (api.view L) u c)
    (object : Int) :
    ∃ L', api.view L' = api.view L
      ∧ readType api sys lay ids this L index object
        = if acceptsClass sys this (.copy c) then
            (dynamicCast sys lay ids this ((api.view L).block u) (.copy c)).map
              fun result => ⟨L', result, none⟩
          else .ok ⟨L', object,
            some (expectedMessage (sys.obj this).name (sys.obj (.copy c)).name)⟩ := by
  obtain ⟨t, ht, hfield⟩ := hc
  obtain ⟨htype, hptr⟩ := api.userdata_at hu
  obtain ⟨L₁, hmeta, hlabel, h₃⟩ := api.metafield_of_userdata hu ht "__metaclass"
  rw [hfield] at hlabel
  have hlight : api.touserdata (api.getfield L₁ (-1) "__metaclass") (-1)
      = some (.light (.metaClass (.copy c))) := hlabel
  have hpeek : api.peek (api.settop (api.getfield L₁ (-1) "__metaclass") (-3)) (.block u)
      = (api.view L).block u := by
    rw [api.peek_eq, h₃]
  have hne : ¬ LuaType.userdata = LuaType.nil := by decide
  refine ⟨api.settop (api.getfield L₁ (-1) "__metaclass") (-3), h₃, ?_⟩
  simp only [readType, htype, hne, if_false, hptr, hmeta, hlight, hpeek]
  split
  · cases dynamicCast sys lay ids this ((api.view L).block u) (.copy c) with
    | error e => rfl
    | ok r => rfl
  · rfl

/-- `nil` is read as null, whatever the expected class. -/
theorem readType_nil (this : MetaPtr κ) {L : σ} {index : Int}
    (hnil : (api.view L).get? index = some .nil) (object : Int) :
    readType api sys lay ids this L index object = .ok ⟨L, 0, none⟩ := by
  have htype : api.type L index = .nil := by
    rw [api.type_eq, State.typeAt, hnil]
    rfl
  simp [readType, htype]

end Specs

end SkyEngine.Meta
