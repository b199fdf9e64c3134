import SkyEngine.LuaInterface.Ownership

/-!
# LuaInterface — Lifecycle

The objects of `new` and `delete` over whole runs of Lua calls. Nothing in
the two functions tells a good `delete` from a bad one, so what holds is a
contract: the lives of all objects are in order exactly as long as each
`delete` hits an object that is still there, at its address and with its
allocator.
-/

namespace SkyEngine.Meta

open Function (update update_self update_of_ne)
open Forest Lua Blocks Lifetimes

variable {κ σ : Type} [DecidableEq κ] {R : Registrations κ}

/-! ## Runs -/

namespace World

/-- The call is in order: whatever object a `delete` destroys has not been
destroyed, and whatever it releases is the whole of an object, not released,
and of that allocator. -/
def InOrder (E : Engine κ σ R) (w : World κ σ) (env : Machine κ) : LuaCall κ → Prop
  | .new _ _ => True
  | .delete T args => ∀ pHeapObject p, Accepts E w T args pHeapObject p →
      Due (disposal env R T pHeapObject p) w.log

end World

/-- The class in whose table the function was found. -/
def LuaCall.table : LuaCall κ → κ
  | .new T _ => T
  | .delete T _ => T

/-- The worlds reached from one in which the classes `bound` are bound, by
calls that satisfy `ok` or raise an error. Between the calls memory may
change, and with it what is read as class ids. -/
inductive Reaches (E : Engine κ σ R) (bound : List κ)
    (ok : World κ σ → Machine κ → LuaCall κ → Prop) : World κ σ → Prop
  | start {w : World κ σ} : w.log = [] → (∀ T ∈ bound, Bound R (E.api.view w.lua) T) →
      Reaches E bound ok w
  | call {w w' : World κ σ} {c : LuaCall κ} (env : Machine κ) : Reaches E bound ok w →
      c.table ∈ bound → w.Reliable env → ok w env c → w.call E env c = .ok (w', none) →
      Reaches E bound ok w'
  | raise {w w' : World κ σ} {c : LuaCall κ} {err : String} (env : Machine κ) :
      Reaches E bound ok w → c.table ∈ bound → w.call E env c = .ok (w', some err) →
      Reaches E bound ok w'
  | memory {w : World κ σ} (ids : ObjectIds) : Reaches E bound ok w →
      Reaches E bound ok { w with ids := ids }

/-- A host that binds its classes first can start from any Lua state. -/
theorem Reaches.of_bindAll (E : Engine κ σ R) {ord tops : List κ}
    (h : Registry R E.sys ord tops) {bound : List κ} (hbound : ∀ T ∈ bound, R.Listed T)
    (ok : World κ σ → Machine κ → LuaCall κ → Prop) (w : World κ σ) (hlog : w.log = []) :
    Reaches E bound ok { w with
      lua := bound.foldl (fun L c => metaLuaBindClass E.api E.sys E.info (.copy c) L) w.lua } :=
  .start hlog (bound_bindAll E.api h E.info bound hbound w.lua)

/-! ## The contract is exact -/

/-- What a run keeps: objects have names of their own, and the block of a live
one is still its owner's. -/
structure Contract (E : Engine κ σ R) (bound : List κ) (w : World κ σ) : Prop where
  kept : Kept w.log
  bound : ∀ T ∈ bound, Bound R (E.api.view w.lua) T
  made_lt : ∀ o, .made o ∈ w.log → o.id < (E.api.view w.lua).userdataCount
  storage : ∀ o, Live w.log o → 0 < o.addr ∧ w.HasBlock o.owner o.addr

namespace Contract

variable {E : Engine κ σ R} {bound : List κ} {w w' : World κ σ}

/-- The stack alone is of no interest. -/
theorem of_stack (h : Contract E bound w) {L : σ} {args : List (LuaValue κ)}
    (hL : E.api.view L = { E.api.view w.lua with stack := args }) :
    Contract E bound { w with lua := L } := by
  constructor
  case kept => exact h.kept
  case bound =>
    intro T hT
    show Bound R (E.api.view L) T
    rw [hL]
    exact h.bound T hT
  case made_lt =>
    intro o ho
    show o.id < (E.api.view L).userdataCount
    rw [hL]
    exact h.made_lt o ho
  case storage => exact h.storage

theorem new (h : Contract E bound w) {ord tops : List κ} (hreg : Registry R E.sys ord tops)
    {env : Machine κ} {T : κ} {args : List (LuaValue κ)} (hb : T ∈ bound)
    (hrel : w.Reliable env) (hcall : w.call E env (.new T args) = .ok (w', none)) :
    Contract E bound w' := by
  obtain ⟨owner, a, p, t, w₁, L, hobt, ha, hL, rfl⟩ :=
    World.new_ok hreg (h.bound T hb) hrel hcall
  obtain ⟨b, hans, rfl⟩ := hobt.answer
  let made : LuaObject κ := ⟨(E.api.view w.lua).userdataCount, T, owner, b.addr⟩
  have hspace : ∀ o, Live w.log o → o.addr ≠ b.addr := by
    intro o ho he
    apply hrel.not_live b hans o.owner
    rw [← he]
    exact (h.storage o ho).2
  have hrelease : ∀ o, releases o (.made made :: w.log) = releases o w.log :=
    fun o => hits_miss o w.log rfl
  constructor
  case kept =>
    refine h.kept.made (fun o ho => ?_) hspace
    have hlt := h.made_lt o ho
    show o.id ≠ (E.api.view w.lua).userdataCount
    omega
  case bound =>
    intro T' hT'
    show Bound R (E.api.view L) T'
    rw [hL]
    exact World.bound_pushObject (h.bound T' hT') _ _ _
  case made_lt =>
    intro o ho
    show o.id < (E.api.view L).userdataCount
    rw [hL]
    show o.id < (E.api.view w.lua).userdataCount + 1
    rcases List.mem_cons.mp ho with he | ho
    · cases he
      exact Nat.lt_succ_self _
    · exact (h.made_lt o ho).trans (Nat.lt_succ_self _)
  case storage =>
    intro o ho
    rcases List.mem_cons.mp ho.1 with he | hold
    · cases he
      exact ⟨ha, hobt.storage⟩
    · have hlive : Live w.log o := ⟨hold, by rw [← hrelease]; exact ho.2⟩
      obtain ⟨hpos, hstorage⟩ := h.storage o hlive
      exact ⟨hpos, hobt.keeps _ _ hstorage⟩

theorem delete (h : Contract E bound w) {env : Machine κ} {T : κ} {args : List (LuaValue κ)}
    (hin : World.InOrder E w env (.delete T args))
    (hcall : w.call E env (.delete T args) = .ok (w', none)) : Contract E bound w' := by
  obtain ⟨L, pHeap, p, hL, hacc, hdispose⟩ := World.delete_ok hcall
  obtain ⟨hlua, hlog, hkeep⟩ := World.disposeObject_ok hdispose
  have hlog : w'.log = World.disposal env R T pHeap p ++ w.log := hlog
  have hends := World.made_notMem_disposal (R := R) env T pHeap p
  have hafter := h.of_stack hL
  constructor
  case kept =>
    rw [hlog]
    exact h.kept.append hends (hin _ _ hacc)
  case bound =>
    rw [hlua]
    exact hafter.bound
  case made_lt =>
    intro o ho
    rw [hlog] at ho
    rw [hlua]
    exact hafter.made_lt o ((List.mem_append.mp ho).resolve_left (hends o))
  case storage =>
    intro o ho
    rw [hlog] at ho
    have hold := ho.of_append hends
    obtain ⟨hpos, hstorage⟩ := h.storage o hold
    have hocc := h.kept.occupant_of_live o hold
    exact ⟨hpos, hkeep _ _ hpos (fun owner => ho.not_released hends hocc owner) hstorage⟩

end Contract

section Sample

variable {sys : MetaSystem SampleType} {ord tops : List SampleType}
  {ok : World SampleType (LuaState SampleType) → Machine SampleType → LuaCall SampleType → Prop}
  {w : World SampleType (LuaState SampleType)}

end Sample

end SkyEngine.Meta
