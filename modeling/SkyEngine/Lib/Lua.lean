import SkyEngine.Lib.CString
import Mathlib.Logic.Function.Basic

/-!
# Lib — Lua

The Lua 5.2 C API, as far as a host program that keeps one pointer in
each full userdata needs it. The interpreter itself is a parameter
(`Api`): an unknown state type with the API functions on it, and for each
function the sentence of the manual about it, stated on a `State` that the
unknown state is viewed as.

`P` are the pointers the host keeps in light userdata, `F` its C
functions. Tables are seen without metatables of their own, so `getfield`
and `setfield` are raw.
-/

namespace Lua

open Function (update)
open Binary64 CString

/-! ## Values and states -/

/-- What `lua_type` answers; `none` is `LUA_TNONE`. -/
inductive LuaType where
  | none | nil | boolean | lightuserdata | number | string | table | function | userdata
  deriving DecidableEq, Repr

/-- `lua_typename`. -/
def LuaType.name : LuaType → String
  | .none => "no value"
  | .nil => "nil"
  | .boolean => "boolean"
  | .lightuserdata => "userdata"
  | .number => "number"
  | .string => "string"
  | .table => "table"
  | .function => "function"
  | .userdata => "userdata"

/-- A Lua value; tables and full userdata by identity, a C closure with its
one upvalue. -/
inductive Value (P F : Type) where
  | nil
  | boolean (b : Bool)
  | lightuserdata (p : P)
  | number (n : Double)
  | string (s : Bytes)
  | table (t : Nat)
  | function (f : F) (upvalue : P)
  | userdata (u : Nat)
  deriving DecidableEq

/-- What `lua_touserdata` returns when it is not null: the block of a full
userdata or the pointer of a light one. -/
inductive UserPtr (P : Type) where
  | block (u : Nat)
  | light (p : P)
  deriving DecidableEq

variable {P F : Type}

def Value.type : Value P F → LuaType
  | .nil => .nil
  | .boolean _ => .boolean
  | .lightuserdata _ => .lightuserdata
  | .number _ => .number
  | .string _ => .string
  | .table _ => .table
  | .function _ _ => .function
  | .userdata _ => .userdata

def Value.userPtr : Value P F → Option (UserPtr P)
  | .lightuserdata p => some (.light p)
  | .userdata u => some (.block u)
  | _ => none

/-- The table a value is, if it is one. -/
def Value.table? : Value P F → Option Nat
  | .table t => some t
  | _ => none

theorem Value.userPtr_eq_light {v : Value P F} {p : P} :
    v.userPtr = some (.light p) ↔ v = .lightuserdata p := by
  cases v with
  | lightuserdata q => simp [userPtr]
  | _ => simp [userPtr]

/-- `lua_toboolean`: everything but `nil` and `false` counts as true. -/
def Value.truth : Value P F → Bool
  | .nil => false
  | .boolean b => b
  | _ => true

/-- A Lua state as the host sees it. `stack` is the running function's,
top first; `block` is the pointer kept in each full userdata; `field` has a
table's entries under text keys and `other` those under all other keys; the
counters give out identities. -/
structure State (P F : Type) where
  stack : List (Value P F)
  block : Nat → Int
  metatable : Nat → Option Nat
  field : Nat → String → Value P F
  other : Nat → Value P F → Value P F
  global : String → Value P F
  userdataCount : Nat
  tableCount : Nat

namespace State

variable (s : State P F)

/-- The value at an acceptable index: from the bottom when positive, from
the top when negative. -/
def get? (i : Int) : Option (Value P F) :=
  if 0 < i then
    if i ≤ s.stack.length then s.stack[(s.stack.length - i).toNat]? else none
  else if i < 0 then s.stack[(-i - 1).toNat]?
  else none

def typeAt (i : Int) : LuaType :=
  match s.get? i with
  | none => .none
  | some v => v.type

def push (v : Value P F) : State P F := { s with stack := v :: s.stack }

/-- A fresh full userdata on top of the stack. -/
def newUserdata : State P F :=
  { s with
    stack := .userdata s.userdataCount :: s.stack
    metatable := update s.metatable s.userdataCount none
    userdataCount := s.userdataCount + 1 }

/-- A fresh empty table on top of the stack. -/
def newTable : State P F :=
  { s with
    stack := .table s.tableCount :: s.stack
    field := update s.field s.tableCount fun _ => .nil
    other := update s.other s.tableCount fun _ => .nil
    tableCount := s.tableCount + 1 }

@[simp] theorem get?_top {v : Value P F} {rest : List (Value P F)} (h : s.stack = v :: rest) :
    s.get? (-1) = some v := by
  simp [get?, h]

@[simp] theorem push_stack (v : Value P F) : (s.push v).stack = v :: s.stack := rfl

/-- A C function finds its arguments from index 1 on. -/
theorem get?_args {args : List (Value P F)} (h : s.stack = args.reverse) (i : Nat) :
    s.get? (i + 1) = args[i]? := by
  have hpos : (0 : Int) < i + 1 := by omega
  simp only [get?, h, hpos, if_true, List.length_reverse]
  split
  · have hidx : ((args.length : Int) - (i + 1)).toNat = args.length - 1 - i := by omega
    rw [hidx, List.getElem?_reverse (by omega)]
    congr 1
    omega
  · rw [List.getElem?_eq_none (by omega)]

end State

/-! ## The API -/

/-- A Lua interpreter: the API functions on an unknown state, each with
what the manual says about it. Laws are silent where the manual is (an
invalid index, a value of another kind). -/
structure Api (P F σ : Type) where
  view : σ → State P F
  type : σ → Int → LuaType
  type_eq : ∀ s i, type s i = (view s).typeAt i
  typename : LuaType → String
  typename_eq : ∀ t, typename t = t.name
  touserdata : σ → Int → Option (UserPtr P)
  touserdata_eq : ∀ s i, touserdata s i = ((view s).get? i).bind Value.userPtr
  toboolean : σ → Int → Bool
  toboolean_eq : ∀ s i v, (view s).get? i = some v → toboolean s i = v.truth
  isstring : σ → Int → Bool
  isstring_eq : ∀ s i, isstring s i = true ↔
    (view s).typeAt i = .string ∨ (view s).typeAt i = .number
  /-- The number, or the message of the error raised. -/
  checknumber : σ → Int → Except String Double
  checknumber_eq : ∀ s i n, (view s).get? i = some (.number n) → checknumber s i = .ok n
  checklstring : σ → Int → Except String Bytes
  checklstring_eq : ∀ s i b, (view s).get? i = some (.string b) → checklstring s i = .ok b
  settop : σ → Int → σ
  settop_eq : ∀ (s : σ) (n : Nat), n ≤ (view s).stack.length →
    view (settop s (-n - 1)) = { view s with stack := (view s).stack.drop n }
  /-- `lua_pushnil`, `lua_pushboolean`, `lua_pushnumber`, `lua_pushinteger`
  and `lua_pushlightuserdata`. -/
  push : σ → Value P F → σ
  push_eq : ∀ s v, view (push s v) = (view s).push v
  pushstring : σ → Bytes → σ
  pushstring_eq : ∀ s b, view (pushstring s b) = (view s).push (.string (cText b))
  /-- `lua_pushcclosure` with one upvalue. -/
  pushcclosure : σ → F → σ
  pushcclosure_eq : ∀ s f p rest, (view s).stack = .lightuserdata p :: rest →
    view (pushcclosure s f) = { view s with stack := .function f p :: rest }
  createtable : σ → σ
  createtable_eq : ∀ s, view (createtable s) = (view s).newTable
  getfield : σ → Int → String → σ
  getfield_eq : ∀ s i k t, (view s).get? i = some (.table t) →
    view (getfield s i k) = (view s).push ((view s).field t k)
  /-- `t[k] = v` for the table below the top value `v`, which is popped. -/
  setfield : σ → String → σ
  setfield_eq : ∀ s k v t rest, (view s).stack = v :: .table t :: rest →
    view (setfield s k) = { view s with
      stack := .table t :: rest
      field := update (view s).field t (update ((view s).field t) k v) }
  getglobal : σ → String → σ
  getglobal_eq : ∀ s k, view (getglobal s k) = (view s).push ((view s).global k)
  setglobal : σ → String → σ
  setglobal_eq : ∀ s k v rest, (view s).stack = v :: rest →
    view (setglobal s k) = { view s with stack := rest, global := update (view s).global k v }
  /-- Pushes the metatable and succeeds, or does nothing and fails. -/
  getmetatable : σ → Int → Option σ
  getmetatable_pushes : ∀ s i s', getmetatable s i = some s' →
    ∃ t, view s' = (view s).push (.table t)
  getmetatable_eq : ∀ s i u, (view s).get? i = some (.userdata u) →
    (getmetatable s i).map view = ((view s).metatable u).map fun t => (view s).push (.table t)
  /-- `lua_setmetatable(L, -2)`. -/
  setmetatable : σ → σ
  setmetatable_table : ∀ s t u rest, (view s).stack = .table t :: .userdata u :: rest →
    view (setmetatable s) = { view s with
      stack := .userdata u :: rest, metatable := update (view s).metatable u (some t) }
  setmetatable_nil : ∀ s u rest, (view s).stack = .nil :: .userdata u :: rest →
    view (setmetatable s) = { view s with
      stack := .userdata u :: rest, metatable := update (view s).metatable u none }
  newuserdata : σ → Nat → Nat × σ
  newuserdata_eq : ∀ s n, (newuserdata s n).1 = (view s).userdataCount
    ∧ view (newuserdata s n).2 = (view s).newUserdata
  /-- The host writes its pointer into the block of a full userdata. -/
  poke : σ → Nat → Int → σ
  poke_eq : ∀ s u a, view (poke s u a) = { view s with block := update (view s).block u a }
  /-- The host reads the word a userdata pointer points to. -/
  peek : σ → UserPtr P → Int
  peek_eq : ∀ s u, peek s (.block u) = (view s).block u
  /-- Calling a C function: it sees its arguments and nothing below. -/
  enter : σ → List (Value P F) → σ
  enter_eq : ∀ s args, view (enter s args) = { view s with stack := args.reverse }

/-- Reading a field of a metatable just pushed, then popping both: the
host has the value and Lua is as it was before. -/
theorem Api.metafield {σ : Type} (api : Api P F σ) {s s₁ : σ} {t : Nat}
    (h : api.view s₁ = (api.view s).push (.table t)) (k : String) :
    api.touserdata (api.getfield s₁ (-1) k) (-1) = ((api.view s).field t k).userPtr
      ∧ api.view (api.settop (api.getfield s₁ (-1) k) (-3)) = api.view s := by
  have htop : (api.view s₁).get? (-1) = some (.table t) := by
    rw [h]
    exact State.get?_top _ rfl
  have hfield : api.view (api.getfield s₁ (-1) k)
      = ((api.view s).push (.table t)).push ((api.view s).field t k) := by
    rw [api.getfield_eq _ _ _ _ htop, h]
    rfl
  constructor
  · rw [api.touserdata_eq, hfield, State.get?_top _ rfl]
    rfl
  · have hlen : 2 ≤ (api.view (api.getfield s₁ (-1) k)).stack.length := by
      rw [hfield]
      simp [State.push]
    rw [show (-3 : Int) = -((2 : Nat) : Int) - 1 by rfl, api.settop_eq _ 2 hlen, hfield]
    rfl

/-- What the host finds at the index of a full userdata. -/
theorem Api.userdata_at {σ : Type} (api : Api P F σ) {s : σ} {i : Int} {u : Nat}
    (hu : (api.view s).get? i = some (.userdata u)) :
    api.type s i = .userdata ∧ api.touserdata s i = some (.block u) := by
  constructor
  · rw [api.type_eq, State.typeAt, hu]
    rfl
  · rw [api.touserdata_eq, hu]
    rfl

/-- The same for a full userdata whose metatable is `t`. -/
theorem Api.metafield_of_userdata {σ : Type} (api : Api P F σ) {s : σ} {i : Int} {u t : Nat}
    (hu : (api.view s).get? i = some (.userdata u)) (ht : (api.view s).metatable u = some t)
    (k : String) :
    ∃ s₁, api.getmetatable s i = some s₁
      ∧ api.touserdata (api.getfield s₁ (-1) k) (-1) = ((api.view s).field t k).userPtr
      ∧ api.view (api.settop (api.getfield s₁ (-1) k) (-3)) = api.view s := by
  have heq := api.getmetatable_eq s i u hu
  rw [ht] at heq
  obtain ⟨s₁, hmeta, h₁⟩ := Option.map_eq_some_iff.mp heq
  exact ⟨s₁, hmeta, api.metafield h₁ k⟩

/-! ## A reference interpreter -/

/-- The states themselves, with the functions the manual describes. -/
def Api.reference : Api P F (State P F) where
  view := id
  type := State.typeAt
  type_eq := fun _ _ => rfl
  typename := LuaType.name
  typename_eq := fun _ => rfl
  touserdata := fun s i => (s.get? i).bind Value.userPtr
  touserdata_eq := fun _ _ => rfl
  toboolean := fun s i => ((s.get? i).map Value.truth).getD false
  toboolean_eq := fun s i v h => by
    have h' : s.get? i = some v := h
    simp [h']
  isstring := fun s i => s.typeAt i == .string || s.typeAt i == .number
  isstring_eq := fun s i => by simp
  checknumber := fun s i =>
    match s.get? i with
    | some (.number n) => .ok n
    | _ => .error "number expected"
  checknumber_eq := fun s i n h => by
    have h' : s.get? i = some (.number n) := h
    simp [h']
  checklstring := fun s i =>
    match s.get? i with
    | some (.string b) => .ok b
    | _ => .error "string expected"
  checklstring_eq := fun s i b h => by
    have h' : s.get? i = some (.string b) := h
    simp [h']
  settop := fun s i => { s with stack := s.stack.drop (-i - 1).toNat }
  settop_eq := fun s n _ => by
    simp
  push := State.push
  push_eq := fun _ _ => rfl
  pushstring := fun s b => s.push (.string (cText b))
  pushstring_eq := fun _ _ => rfl
  pushcclosure := fun s f =>
    match s.stack with
    | .lightuserdata p :: rest => { s with stack := .function f p :: rest }
    | _ => s
  pushcclosure_eq := fun s f p rest h => by
    have h' : s.stack = .lightuserdata p :: rest := h
    simp [h']
  createtable := State.newTable
  createtable_eq := fun _ => rfl
  getfield := fun s i k =>
    match s.get? i with
    | some (.table t) => s.push (s.field t k)
    | _ => s
  getfield_eq := fun s i k t h => by
    have h' : s.get? i = some (.table t) := h
    simp [h']
  setfield := fun s k =>
    match s.stack with
    | v :: .table t :: rest =>
        { s with stack := .table t :: rest, field := update s.field t (update (s.field t) k v) }
    | _ => s
  setfield_eq := fun s k v t rest h => by
    have h' : s.stack = v :: .table t :: rest := h
    simp [h']
  getglobal := fun s k => s.push (s.global k)
  getglobal_eq := fun _ _ => rfl
  setglobal := fun s k =>
    match s.stack with
    | v :: rest => { s with stack := rest, global := update s.global k v }
    | [] => s
  setglobal_eq := fun s k v rest h => by
    have h' : s.stack = v :: rest := h
    simp [h']
  getmetatable := fun s i =>
    match s.get? i with
    | some (.userdata u) => (s.metatable u).map fun t => s.push (.table t)
    | _ => none
  getmetatable_pushes := fun s i s' h => by
    split at h
    · obtain ⟨t, _, rfl⟩ := Option.map_eq_some_iff.mp h
      exact ⟨t, rfl⟩
    · cases h
  getmetatable_eq := fun s i u h => by
    have h' : s.get? i = some (.userdata u) := h
    simp [h']
  setmetatable := fun s =>
    match s.stack with
    | .table t :: .userdata u :: rest =>
        { s with stack := .userdata u :: rest, metatable := update s.metatable u (some t) }
    | .nil :: .userdata u :: rest =>
        { s with stack := .userdata u :: rest, metatable := update s.metatable u none }
    | _ => s
  setmetatable_table := fun s t u rest h => by
    have h' : s.stack = .table t :: .userdata u :: rest := h
    simp [h']
  setmetatable_nil := fun s u rest h => by
    have h' : s.stack = .nil :: .userdata u :: rest := h
    simp [h']
  newuserdata := fun s _ => (s.userdataCount, s.newUserdata)
  newuserdata_eq := fun _ _ => ⟨rfl, rfl⟩
  poke := fun s u a => { s with block := update s.block u a }
  poke_eq := fun _ _ _ => rfl
  peek := fun s p =>
    match p with
    | .block u => s.block u
    | .light _ => 0
  peek_eq := fun _ _ => rfl
  enter := fun s args => { s with stack := args.reverse }
  enter_eq := fun _ _ => rfl

/-- A state with nothing in it. -/
def State.empty : State P F where
  stack := []
  block := fun _ => 0
  metatable := fun _ => none
  field := fun _ _ => .nil
  other := fun _ _ => .nil
  global := fun _ => .nil
  userdataCount := 0
  tableCount := 0

end Lua
