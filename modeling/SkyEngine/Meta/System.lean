import SkyEngine.Meta.Types
import Mathlib.Logic.Function.Basic

/-!
# Meta — System

`MetaSystemExample::Initialize` and its recursion `m_RecursiveInit`
(`Base/Meta.cpp`), with the lookups that read what they built.

Nothing here is a specification. The recursion takes fuel because the
C++ one need not end (a class that names itself as its parent calls itself
before it has an id), and the order in which the loop walks the hash map
`m_metaClasses` is an argument, `walk`.
-/

namespace SkyEngine.Meta

open Function (update)

variable {κ : Type} [DecidableEq κ]

/-! ## Copying the metatypes -/

/-- The metatype objects, the `m_self` of each static object, and the
name tables of `MetaSystemDataContainer`. -/
structure MetaData (κ : Type) where
  obj : MetaPtr κ → MetaClass κ
  self : κ → MetaPtr κ
  metaTypes : MetaStrHashMap (MetaPtr κ) := ∅
  metaClasses : MetaStrHashMap (MetaPtr κ) := ∅

/-- Before `Initialize`: only the static objects exist, each active. -/
def Registrations.statics (R : Registrations κ) : MetaData κ where
  obj
    | .original c => ((R.find c).map (·.metaType)).getD { name := "", kind := .plain }
    | .copy _ => { name := "", kind := .plain }
  self := .original

/-- One turn of the copy loop: `Copy`, `SetName`, both `SetActive`, and
the name tables (a later entry of the same name replaces an earlier). -/
def copyMetaType (d : MetaData κ) (it : Registration κ) : MetaData κ :=
  let mt := { d.obj (.original it.type) with name := it.name }
  { obj := update d.obj (.copy it.type) mt
    self := update d.self it.type (.copy it.type)
    metaTypes := d.metaTypes.insert it.name (.copy it.type)
    metaClasses :=
      if mt.isClass then d.metaClasses.insert it.name (.copy it.type) else d.metaClasses }

def Registrations.copyMetaTypes (R : Registrations κ) : MetaData κ :=
  R.types.foldl copyMetaType R.statics

/-- `MetaClassImpl<T>::Must_call_META_REGISTER_CLASS()`: the active object
of a registered class, null otherwise. Also `GetMetaClassByType<T *>()`. -/
def Registrations.mustCall (R : Registrations κ) (self : κ → MetaPtr κ) (c : κ) :
    Option (MetaPtr κ) :=
  if c ∈ R.classes then some (self c) else none

/-- `GetMetaTypeByType<T>()`. -/
def Registrations.getMetaTypeByType (R : Registrations κ) (self : κ → MetaPtr κ) (t : κ) :
    Option (MetaPtr κ) :=
  if t ∈ R.types.map (·.type) then some (self t) else none

/-! ## `m_RecursiveInit` -/

/-- What the recursion works on: the objects and the two counters. -/
structure InitState (κ : Type) where
  obj : MetaPtr κ → MetaClass κ
  globalId : Int
  topoId : Int

def InitState.modify (s : InitState κ) (p : MetaPtr κ) (f : MetaClass κ → MetaClass κ) :
    InitState κ :=
  { s with obj := update s.obj p (f (s.obj p)) }

/-- `SkyAssert(*globalId < kMaxClasses); mc->m_globalId = (*globalId)++;
mc->m_baseTopoIdList.clear();` -/
def takeGlobalId (mc : MetaPtr κ) (s : InitState κ) : Except Fault (InitState κ) :=
  if s.globalId < kMaxClasses then
    .ok { s.modify mc fun c => { c with globalId := s.globalId, baseTopoIdList := [] } with
          globalId := s.globalId + 1 }
  else
    .error .assertion

/-- The first child of `superClass` gives it a topology id, which also
goes onto its own list. -/
def takeTopoOrder (superClass : MetaPtr κ) (s : InitState κ) : InitState κ :=
  if (s.obj superClass).topoOrder = -1 then
    let id := s.topoId
    { s.modify superClass fun c =>
        { c with topoOrder := id, baseTopoIdList := c.baseTopoIdList ++ [id] } with
      topoId := id + 1 }
  else s

/-- The child's list starts as a copy of its parent's. -/
def inheritBases (mc superClass : MetaPtr κ) (s : InitState κ) : InitState κ :=
  if superClass ≠ mc then
    s.modify mc fun c =>
      { c with baseTopoIdList := c.baseTopoIdList ++ (s.obj superClass).baseTopoIdList }
  else s

/-- `m_parent()` of a metaclass: `none` without an accessor, a null
dereference when the accessor answers null. -/
def superOf (mustCall : κ → Option (MetaPtr κ)) (mc : MetaClass κ) :
    Except Fault (Option (MetaPtr κ)) :=
  match mc.parent with
  | none => .ok none
  | some p =>
      match mustCall p with
      | none => .error .nullDeref
      | some superClass => .ok (some superClass)

/-- `m_RecursiveInit` after its recursive call: the class takes its id,
then asks for its parent again and takes over the parent's list. -/
def finishInit (mustCall : κ → Option (MetaPtr κ)) (mc : MetaPtr κ) (s : InitState κ) :
    Except Fault (InitState κ) := do
  let s ← takeGlobalId mc s
  let superClass ← superOf mustCall (s.obj mc)
  let s := match superClass with
    | none => s
    | some superClass => inheritBases mc superClass (takeTopoOrder superClass s)
  .ok (s.modify mc fun c => { c with metaDataContainer := some {} })

/-- `MetaSystemExample::m_RecursiveInit`. -/
def recursiveInit (mustCall : κ → Option (MetaPtr κ)) :
    Nat → MetaPtr κ → InitState κ → Except Fault (InitState κ)
  | 0, _, _ => .error .outOfFuel
  | fuel + 1, mc, s =>
      if (s.obj mc).globalId ≠ -1 then .ok s
      else do
        let superClass ← superOf mustCall (s.obj mc)
        let s ← match superClass with
          | none => .ok s
          | some superClass => recursiveInit mustCall fuel superClass s
        finishInit mustCall mc s

/-! ## `Initialize` -/

/-- `m_classes[globalId] = mc`. -/
def storeClass (classes : Fin kMaxClasses → MetaPtr κ) (globalId : Int) (mc : MetaPtr κ) :
    Except Fault (Fin kMaxClasses → MetaPtr κ) :=
  if h : 0 ≤ globalId ∧ globalId < kMaxClasses then
    .ok (update classes ⟨globalId.toNat, by omega⟩ mc)
  else
    .error .outOfBounds

/-- One turn of the class loop. -/
def visitClass (mustCall : κ → Option (MetaPtr κ)) (fuel : Nat)
    (st : InitState κ × (Fin kMaxClasses → MetaPtr κ)) (mc : MetaPtr κ) :
    Except Fault (InitState κ × (Fin kMaxClasses → MetaPtr κ)) := do
  let s ← recursiveInit mustCall fuel mc st.1
  let classes ← storeClass st.2 (s.obj mc).globalId mc
  .ok (s, classes)

/-- `MetaMemberFunction::Initialize`: the signature from the C++ types. -/
def initializeSignature (R : Registrations κ) (self : κ → MetaPtr κ)
    (it : FunctionRegistration κ) : FunctionSignature κ where
  ret := match it.ret with
    | none => some (self R.voidType)
    | some t => R.getMetaTypeByType self t
  argArray := it.args.map (R.getMetaTypeByType self)
  argCount := it.args.length

/-- One turn of the member-function loop. -/
def fileFunction (R : Registrations κ) (self : κ → MetaPtr κ)
    (obj : MetaPtr κ → MetaClass κ) (it : FunctionRegistration κ) :
    Except Fault (MetaPtr κ → MetaClass κ) :=
  let mf : MetaMemberFunction κ :=
    { name := it.name, reg := it, signature := initializeSignature R self it }
  match R.mustCall self it.owner with
  | none => .error .nullDeref
  | some owner =>
      match (obj owner).metaDataContainer with
      | none => .error .nullDeref
      | some data =>
          .ok (update obj owner { obj owner with
            metaDataContainer := some { functions := data.functions.insert it.name mf } })

/-- The initialised system: the objects, the name tables, `m_classes` and
the id the `MetaSystemExample` object ends up with. -/
structure MetaSystem (κ : Type) extends MetaData κ where
  classes : Fin kMaxClasses → MetaPtr κ
  metaClassId : Int

/-- `MetaSystemExample::Initialize`, as the one call the singleton check
lets through. -/
def initializeSystem (R : Registrations κ) (walk : List (MetaPtr κ)) (fuel : Nat) :
    Except Fault (MetaSystem κ) := do
  let d := R.copyMetaTypes
  let start : InitState κ := { obj := d.obj, globalId := 0, topoId := 0 }
  let (s, classes) ← walk.foldlM (visitClass (R.mustCall d.self) fuel)
    (start, fun _ => d.self R.voidType)
  let obj ← R.functions.foldlM (fileFunction R d.self) s.obj
  .ok { d with
    obj := obj
    classes := classes
    metaClassId := (obj (d.self R.systemType)).globalId }

/-- `walk` is one order in which a range-for may visit `m_metaClasses`. -/
def Registrations.Walk (R : Registrations κ) (walk : List (MetaPtr κ)) : Prop :=
  walk.Perm (R.copyMetaTypes.metaClasses.entries.map (·.2))

/-! ## Lookups -/

namespace MetaSystem

/-- `GetMetaClassById`: an unchecked read of `m_classes`. -/
def getMetaClassById (sys : MetaSystem κ) (globalId : Int) : Except Fault (MetaPtr κ) :=
  if h : 0 ≤ globalId ∧ globalId < kMaxClasses then
    .ok (sys.classes ⟨globalId.toNat, by omega⟩)
  else
    .error .outOfBounds

/-- `GetMetaClassByName`. -/
def getMetaClassByName (sys : MetaSystem κ) (name : String) : Option (MetaPtr κ) :=
  sys.metaClasses.lookup name

/-- `MetaClassId(T)` once the system is up. -/
def metaClassIdOf (sys : MetaSystem κ) (c : κ) : Int :=
  (sys.obj (sys.self c)).globalId

end MetaSystem

end SkyEngine.Meta
