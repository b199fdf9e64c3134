import SkyEngine.Basic
import SkyEngine.Lib.Chain
import Mathlib.Logic.Function.Basic

/-!
# Meta — Objects

`MetaObject` and `MetaData` (`Base/Meta.hpp`): the registered things that
chain themselves onto `m_List()` when they are constructed, and the
key-value nodes that push themselves onto the field chain of one of them.
Both chains run through `m_prev` pointers, which copies share.

Objects and nodes are numbered in the order of their construction; a
pointer is such a number.
-/

namespace SkyEngine.MetaObjects

open Function (update)

/-- `MetaData`. -/
structure MetaData where
  key : String
  value : Option String
  prev : Option Nat := none
  deriving DecidableEq

/-- A `MetaObject<T>`; `kind` is the `T`. -/
structure MetaObject (τ : Type) where
  kind : τ
  name : String
  fields : Option Nat := none
  prev : Option Nat := none
  deriving DecidableEq

/-- Everything constructed so far, and the `m_List()` of each `T`. -/
structure Store (τ : Type) where
  data : List MetaData := []
  objects : List (MetaObject τ) := []
  list : τ → Option Nat := fun _ => none

variable {τ : Type}

namespace Store

/-- The `m_prev` of every node. -/
def dataLinks (s : Store τ) : List (Option Nat) := s.data.map (·.prev)

/-- The `m_prev` of every object. -/
def objectLinks (s : Store τ) : List (Option Nat) := s.objects.map (·.prev)

/-! ## Constructors -/

/-- `MetaObject(name)`. -/
def metaObject [DecidableEq τ] (s : Store τ) (kind : τ) (name : String) : Store τ :=
  { s with
    objects := s.objects ++ [{ kind := kind, name := name, prev := s.list kind }]
    list := update s.list kind (some s.objects.length) }

/-- `MetaObject(name, nolist)`. -/
def metaObjectNolist (s : Store τ) (kind : τ) (name : String) : Store τ :=
  { s with objects := s.objects ++ [{ kind := kind, name := name }] }

/-- `MetaObject(src)`. -/
def copyMetaObject (s : Store τ) (src : Nat) : Except Fault (Store τ) :=
  match s.objects[src]? with
  | none => .error .nullDeref
  | some o => .ok { s with objects := s.objects ++ [o] }

/-- `MetaData(target, key, value)`. -/
def metaData (s : Store τ) (target : Nat) (key : String) (value : Option String) :
    Except Fault (Store τ) :=
  match s.objects[target]? with
  | none => .error .nullDeref
  | some o => .ok { s with
      data := s.data ++ [{ key := key, value := value, prev := o.fields }]
      objects := s.objects.set target { o with fields := some s.data.length } }

/-- `MetaData(src)`. -/
def copyMetaData (s : Store τ) (src : Nat) : Except Fault (Store τ) :=
  match s.data[src]? with
  | none => .error .nullDeref
  | some d => .ok { s with data := s.data ++ [d] }

/-! ## Setters -/

def setKey (s : Store τ) (node : Nat) (key : String) : Except Fault (Store τ) :=
  match s.data[node]? with
  | none => .error .nullDeref
  | some d => .ok { s with data := s.data.set node { d with key := key } }

def setValue (s : Store τ) (node : Nat) (value : Option String) : Except Fault (Store τ) :=
  match s.data[node]? with
  | none => .error .nullDeref
  | some d => .ok { s with data := s.data.set node { d with value := value } }

def setName (s : Store τ) (object : Nat) (name : String) : Except Fault (Store τ) :=
  match s.objects[object]? with
  | none => .error .nullDeref
  | some o => .ok { s with objects := s.objects.set object { o with name := name } }

/-- `SetPrev`, with null or a pointer to an object. -/
def setPrev (s : Store τ) (object : Nat) (p : Option Nat) : Except Fault (Store τ) :=
  match s.objects[object]? with
  | none => .error .nullDeref
  | some o =>
      if p.all (· < s.objects.length) then
        .ok { s with objects := s.objects.set object { o with prev := p } }
      else .error .badPointer

/-- `SetFields`, with null or a pointer to a node. -/
def setFields (s : Store τ) (object : Nat) (p : Option Nat) : Except Fault (Store τ) :=
  match s.objects[object]? with
  | none => .error .nullDeref
  | some o =>
      if p.all (· < s.data.length) then
        .ok { s with objects := s.objects.set object { o with fields := p } }
      else .error .badPointer

/-- An assignment to `m_List()`, of null or a pointer to a `T`. -/
def setList [DecidableEq τ] (s : Store τ) (kind : τ) (p : Option Nat) :
    Except Fault (Store τ) :=
  if p.all (· < s.objects.length) then .ok { s with list := update s.list kind p }
  else .error .badPointer

/-! ## Lookup -/

/-- The loop of `GetMetaData`. -/
def findData (data : List MetaData) (key : String) :
    Nat → Option Nat → Except Fault (Option String)
  | _, none => .ok none
  | 0, some _ => .error .outOfFuel
  | fuel + 1, some p =>
      match data[p]? with
      | none => .error .nullDeref
      | some d => if d.key = key then .ok d.value else findData data key fuel d.prev

/-- `GetMetaData`. -/
def getMetaData (s : Store τ) (fuel object : Nat) (key : String) :
    Except Fault (Option String) :=
  match s.objects[object]? with
  | none => .error .nullDeref
  | some o => findData s.data key fuel o.fields

/-! ## The copy loops of `Initialize` -/

/-- One turn: the object is copied and the copy given a text of its own for
its name. -/
def copyListed (it : Nat) (s : Store τ) : Except Fault (Store τ) :=
  match s.objects[it]? with
  | none => .error .nullDeref
  | some o => do
      let s' ← s.copyMetaObject it
      s'.setName s.objects.length o.name

/-- `for (auto it = MetaObject<T>::m_List(); it; it = it->GetPrev())` with
the copying both loops of `Initialize` begin with. -/
def copyLoop (fuel : Nat) (kind : τ) (s : Store τ) : Except Fault (Store τ) :=
  Chain.forEach .outOfFuel .nullDeref objectLinks copyListed fuel (s.list kind) s

end Store

/-! ## Calls -/

/-- A constructor or a setter the program calls. -/
inductive Call (τ : Type) where
  | metaObject (kind : τ) (name : String)
  | metaObjectNolist (kind : τ) (name : String)
  | copyMetaObject (src : Nat)
  | metaData (target : Nat) (key : String) (value : Option String)
  | copyMetaData (src : Nat)
  | setKey (node : Nat) (key : String)
  | setValue (node : Nat) (value : Option String)
  | setPrev (object : Nat) (p : Option Nat)
  | setName (object : Nat) (name : String)
  | setFields (object : Nat) (p : Option Nat)
  | setList (kind : τ) (p : Option Nat)
  deriving DecidableEq

def Store.call [DecidableEq τ] (s : Store τ) : Call τ → Except Fault (Store τ)
  | .metaObject kind name => .ok (s.metaObject kind name)
  | .metaObjectNolist kind name => .ok (s.metaObjectNolist kind name)
  | .copyMetaObject src => s.copyMetaObject src
  | .metaData target key value => s.metaData target key value
  | .copyMetaData src => s.copyMetaData src
  | .setKey node key => s.setKey node key
  | .setValue node value => s.setValue node value
  | .setPrev object p => s.setPrev object p
  | .setName object name => s.setName object name
  | .setFields object p => s.setFields object p
  | .setList kind p => s.setList kind p

def Store.run [DecidableEq τ] (s : Store τ) (cs : List (Call τ)) : Except Fault (Store τ) :=
  cs.foldlM Store.call s

/-! ## Soundness of the pointers -/

/-- The `m_prev` of a node leads to an older one, and `m_fields` to a node
there is. (`SetPrev` can link objects in any way.) -/
structure Store.Sound (s : Store τ) : Prop where
  data_aged : Chain.Aged s.dataLinks
  fields_valid : ∀ o ∈ s.objects, Chain.Valid s.dataLinks o.fields

/-- Soundness from what the links of the nodes are. -/
theorem Store.sound_of_links {s : Store τ} {dataLinks : List (Option Nat)}
    (hdata : s.dataLinks = dataLinks) (hdata_aged : Chain.Aged dataLinks)
    (hfields : ∀ o ∈ s.objects, Chain.Valid dataLinks o.fields) : s.Sound := by
  subst hdata
  exact ⟨hdata_aged, hfields⟩

theorem Store.Sound.entry_link {s : Store τ} (h : s.Sound) {d : MetaData} (hd : d ∈ s.data) :
    Chain.Valid s.dataLinks d.prev := by
  obtain ⟨p, hp, rfl⟩ := List.getElem_of_mem hd
  exact h.data_aged.valid_link (p := p) (by simp [Store.dataLinks, List.getElem?_eq_getElem hp])

theorem Store.sound_empty : ({} : Store τ).Sound := by
  constructor
  case data_aged => exact Chain.aged_nil
  case fields_valid => simp

end SkyEngine.MetaObjects
