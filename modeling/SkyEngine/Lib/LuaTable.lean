import SkyEngine.Lib.Lua

/-!
# Lib — LuaTable

Two more functions of the Lua C API, for host functions that index values
themselves: `lua_pushvalue` and `lua_gettable`, each with its law. Any value
can be a key here, not only the texts of `lua_getfield`.
-/

namespace Lua

open CString

variable {P F : Type}

/-- The string a Lua string spells, if it is text. -/
def keyText (b : Bytes) : Option String := String.fromUTF8? ⟨b.toArray⟩

/-- The Lua string of a key. -/
def keyBytes (k : String) : Bytes := k.toUTF8.data.toList

theorem keyText_keyBytes (k : String) : keyText (keyBytes k) = some k := by
  have hbytes : (⟨(keyBytes k).toArray⟩ : ByteArray) = k.toByteArray := rfl
  rw [keyText, hbytes, String.fromUTF8?, dif_pos k.isValidUTF8]
  rfl

/-- The text a key is, if it is one. -/
def Value.text? : Value P F → Option String
  | .string b => keyText b
  | _ => none

@[simp] theorem Value.text?_keyBytes (k : String) :
    (Value.string (keyBytes k) : Value P F).text? = some k :=
  keyText_keyBytes k

/-- What a table has under a key. -/
def State.entry (s : State P F) (t : Nat) (k : Value P F) : Value P F :=
  match k.text? with
  | some k => s.field t k
  | none => s.other t k

/-- A table with entries under text keys only. -/
theorem State.entry_eq {s : State P F} {t : Nat} (h : ∀ k, s.other t k = .nil)
    (k : Value P F) : s.entry t k = (k.text?.map (s.field t)).getD .nil := by
  cases hk : k.text? with
  | some k => simp [entry, hk]
  | none => simp [entry, hk, h]

/-- An interpreter with these functions. `gettable` is silent about values
that are no tables; and, as two closures of one function are two keys that
look alike here, about entries under other keys than texts, unless there is
none. -/
structure TableApi (P F σ : Type) extends Api P F σ where
  pushvalue : σ → Int → σ
  pushvalue_eq : ∀ s i v, (view s).get? i = some v → view (pushvalue s i) = (view s).push v
  /-- The key on top gives way to the entry, or an error is raised. -/
  gettable : σ → Int → Except String σ
  gettable_eq : ∀ s i t k rest, (view s).get? i = some (.table t) →
    (view s).stack = k :: rest → (k.text? = none → (view s).other t k = .nil) →
    (gettable s i).map view = .ok { view s with stack := (view s).entry t k :: rest }

def TableApi.reference : TableApi P F (State P F) where
  toApi := Api.reference
  pushvalue := fun s i =>
    match s.get? i with
    | some v => s.push v
    | none => s
  pushvalue_eq := fun s i v h => by
    have h' : s.get? i = some v := h
    simp only [h']
    rfl
  gettable := fun s i =>
    match s.get? i, s.stack with
    | some (.table t), k :: rest => .ok { s with stack := s.entry t k :: rest }
    | _, _ => .error "attempt to index"
  gettable_eq := fun s i t k rest hi hs _ => by
    have hi' : s.get? i = some (.table t) := hi
    have hs' : s.stack = k :: rest := hs
    simp only [hi', hs']
    rfl

end Lua
