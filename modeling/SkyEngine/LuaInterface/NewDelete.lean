import SkyEngine.LuaInterface.Bind
import SkyEngine.Memory.Heap
import SkyEngine.Lib.Lifetimes

/-!
# LuaInterface — NewDelete

`MetaLuaNewImpl` and `MetaLuaDeleteImpl` (`Base/LuaInterface.cpp`), the
`new` and `delete` that `MetaLuaBindClass` puts into a class's table. Both
take a `Heap` as an optional last argument and fall back to the `operator
new` and `delete` of `Utils/StlAllocator.cpp`.

Neither records which allocator an object came from, nor that it is gone.
What happens to each object is therefore kept in a log beside the state.
-/

namespace SkyEngine.Meta

open Function (update)
open Forest Lua Blocks Lifetimes
open Memory (Allocators stlAllocate)

/-- Who hands out storage: `operator new`, or the `Heap` at an address. -/
inductive Owner where
  | operatorNew
  | heap (h : Int)
  deriving DecidableEq, Repr

/-- Objects are named by the userdata that `new` returns for them. -/
abbrev LuaObject (κ : Type) := Object Nat κ Owner

abbrev LuaLog (κ : Type) := Log Nat κ Owner

/-- What the two functions read besides their arguments: Lua, the
initialised system, the classes, the class `Heap` and `tag_LuaInterface`. -/
structure Engine (κ σ : Type) [DecidableEq κ] (R : Registrations κ) where
  api : LuaApi κ σ
  sys : MetaSystem κ
  lay : Layout R
  info : ObjectInfo κ
  heapType : κ
  tag : Nat

/-- What the machine answers during one call: the allocators and the sizes
they report (`mspace_usable_size`, `_aligned_msize`), the class id that a
constructor of a class leaves in the `Object` it makes at an address, and the
class and address that a destructor call through a `c *` reaches (the
complete object's when the destructor is virtual, `c` itself otherwise). -/
structure Machine (κ : Type) where
  allocators : Allocators
  usableSize : Nat → Nat
  alignedMsize : Nat → Nat
  classId : κ → Int → Int
  complete : κ → Int → κ × Int

/-- The state the calls act on. `heaps` are the `Heap` objects by address
(one that Lua makes is never initialised, so it hands nothing out, whatever
its entry says) and `mspaces` the live blocks of their mspaces; `blocks` are
those of `StlAllocator`, `operator new`'s and the heaps' fallback blocks;
`log` is what was done to the objects made so far. -/
structure World (κ σ : Type) where
  lua : σ
  ids : ObjectIds
  heaps : Int → Memory.Heap
  mspaces : Int → List Block
  blocks : List Block
  log : LuaLog κ

/-- A call from Lua: `T.new(...)` or `T.delete(...)`. -/
inductive LuaCall (κ : Type) where
  | new (T : κ) (args : List (LuaValue κ))
  | delete (T : κ) (args : List (LuaValue κ))

variable {κ σ : Type} [DecidableEq κ] {R : Registrations κ}

namespace World

variable (E : Engine κ σ R) (env : Machine κ) (w : World κ σ)

/-! ## Objects -/

/-- `operator new`. -/
def operatorNew (env : Allocators) (size : Nat) : Except Fault Block :=
  let size := if size = 0 then 1 else size
  match stlAllocate env size 0x10 0x10 with
  | none => .error .badAlloc
  | some b => .ok b

/-- A constructor of `c` runs at `a`: an `Object` gets its class id. -/
def construct (c : κ) (a : Int) : World κ σ :=
  let pObject := E.lay.upcast c a
  { w with
    ids := if pObject = 0 then w.ids else update w.ids pObject (env.classId c a) }

/-- `NewObject()`. `MetaClassVoid` is abstract too: it has no `new`. -/
def newObject (c : κ) : Except Fault (Int × World κ σ) :=
  if E.info.isAbstract c then .error .assertion
  else do
    let b ← operatorNew env.allocators (E.info.sizeOfObject c)
    .ok (b.addr, construct E env { w with blocks := b :: w.blocks } c b.addr)

/-- `ConstructObject(payload)`. -/
def constructObject (c : κ) (payload : Int) : Except Fault (Int × World κ σ) :=
  if E.info.isAbstract c then .error .assertion
  else if payload = 0 then .error .nullDeref
  else .ok (payload, construct E env w c payload)

/-- The pointer `Allocate` returns. -/
def payloadOf (a : Memory.Heap.Allocation) : Int :=
  match a.mspaceBlock, a.stlBlock with
  | some b, _ => b.addr
  | none, some b => b.addr
  | none, none => 0

/-- `pHeapObject->Allocate(SizeOfObject(), tag_LuaInterface,
AlignOfObject())`. -/
def heapAllocate (pHeapObject : Int) (c : κ) : Except Fault (Int × World κ σ) := do
  let a ← (w.heaps pHeapObject).allocate env.allocators (E.info.sizeOfObject c) E.tag
    (E.info.alignOfObject c)
  .ok (payloadOf a, { w with
    heaps := update w.heaps pHeapObject a.heap
    mspaces := update w.mspaces pHeapObject (a.mspaceBlock.toList ++ w.mspaces pHeapObject)
    blocks := a.stlBlock.toList ++ w.blocks })

/-- `DestructObject(p)`. -/
def destructObject (R : Registrations κ) (c : κ) (p : Int) : Except Fault (World κ σ) :=
  if c = R.voidType then .ok w
  else if p = 0 then .error .nullDeref
  else
    let (d, a) := env.complete c p
    .ok { w with log := .destroy d a :: w.log }

/-- `pHeapObject->Free(p)`. -/
def heapFree (pHeapObject p : Int) : Except Fault (World κ σ) :=
  if p = 0 then .ok w
  else do
    let (h, freed) ← (w.heaps pHeapObject).free env.usableSize env.alignedMsize p.toNat
    let w := { w with
      heaps := update w.heaps pHeapObject h
      log := .release (.heap pHeapObject) p :: w.log }
    match freed with
    | .none => .ok w
    | .stl b => .ok { w with blocks := Blocks.release w.blocks b }
    | .mspace _ b => .ok { w with
        mspaces := update w.mspaces pHeapObject (Blocks.release (w.mspaces pHeapObject) b) }

/-- `DeleteObject(p)`: the destructor, then `operator delete`. -/
def deleteObject (R : Registrations κ) (c : κ) (p : Int) : World κ σ :=
  if c = R.voidType then w
  else if p = 0 then w
  else
    let (d, a) := env.complete c p
    { w with
      blocks := Blocks.release w.blocks a.toNat
      log := .release .operatorNew a :: .destroy d a :: w.log }

/-! ## The two functions -/

/-- The optional `Heap` argument; null when there is none. -/
def readHeap (L : σ) (index : Int) : Except Fault (ReadResult σ) :=
  if E.api.type L index ≠ .none then
    readType E.api E.sys E.lay w.ids (E.sys.self E.heapType) L index 0
  else .ok ⟨L, 0, none⟩

/-- The branch of `MetaLuaNewImpl` that makes the object. -/
def makeObject (c : κ) (pHeapObject : Int) : Except Fault (Owner × Int × World κ σ) :=
  if pHeapObject ≠ 0 then do
    let (payload, w) ← heapAllocate E env w pHeapObject c
    let (pObject, w) ← constructObject E env w c payload
    .ok (.heap pHeapObject, pObject, w)
  else do
    let (pObject, w) ← newObject E env w c
    .ok (.operatorNew, pObject, w)

/-- `MetaLuaNewImpl` with upvalue `T`; the message is that of the error it
raises. The log names the object by the userdata `WriteType` creates. -/
def metaLuaNewImpl (T : MetaPtr κ) : Except Fault (World κ σ × Option String) := do
  let metaClassHeap := E.sys.self E.heapType
  let r ← readHeap E w w.lua 1
  match r.error with
  | some err => .ok ({ w with lua := r.state }, some err)
  | none => do
      let pHeapObject ← dynamicCast E.sys E.lay w.ids metaClassHeap r.object metaClassHeap
      let (owner, pObject, w) ← makeObject E env w T.type pHeapObject
      let u := (E.api.view r.state).userdataCount
      let L ← writeType E.api E.sys E.lay w.ids T pObject r.state
      .ok ({ w with lua := L, log := .made ⟨u, T.type, owner, pObject⟩ :: w.log }, none)

/-- The branch of `MetaLuaDeleteImpl` that disposes of the object. -/
def disposeObject (R : Registrations κ) (c : κ) (pHeapObject p : Int) :
    Except Fault (World κ σ) :=
  if pHeapObject ≠ 0 then do
    let w ← destructObject env w R c p
    heapFree env w pHeapObject p
  else .ok (deleteObject env w R c p)

/-- `MetaLuaDeleteImpl` with upvalue `T`. -/
def metaLuaDeleteImpl (T : MetaPtr κ) : Except Fault (World κ σ × Option String) := do
  let r ← readType E.api E.sys E.lay w.ids T w.lua 1 0
  match r.error with
  | some err => .ok ({ w with lua := r.state }, some err)
  | none => do
      let metaClassHeap := E.sys.self E.heapType
      let rh ← readHeap E w r.state 2
      match rh.error with
      | some err => .ok ({ w with lua := rh.state }, some err)
      | none => do
          let pHeapObject ← dynamicCast E.sys E.lay w.ids metaClassHeap rh.object metaClassHeap
          let w ← disposeObject env { w with lua := rh.state } R T.type pHeapObject r.object
          .ok (w, none)

def call : LuaCall κ → Except Fault (World κ σ × Option String)
  | .new T args => metaLuaNewImpl E env { w with lua := E.api.enter w.lua args } (.copy T)
  | .delete T args => metaLuaDeleteImpl E env { w with lua := E.api.enter w.lua args } (.copy T)

end World

end SkyEngine.Meta
