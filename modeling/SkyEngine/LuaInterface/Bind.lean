import SkyEngine.Meta.TypeCheck

/-!
# LuaInterface — Bind

`MetaLuaBindClass` (`Base/LuaInterface.cpp`): the metatable of a class,
built entry by entry and published under the class name. Every userdata
that `WriteType` makes carries this table.
-/

namespace SkyEngine.Meta

open Function
open Forest Position Lua Binary64 CString

variable {κ σ : Type}

/-- `IsAbstract()`, `SizeOfObject()` and `AlignOfObject()` of each class. -/
structure ObjectInfo (κ : Type) where
  isAbstract : κ → Bool
  sizeOfObject : κ → Nat
  alignOfObject : κ → Nat

/-- The bytes of a name. -/
def nameBytes (name : String) : Bytes := name.toUTF8.data.toList

section Defs

variable (api : LuaApi κ σ)

/-- `lua_createtable; lua_setfield(L, -2, k)`. -/
def setTable (k : String) (L : σ) : σ := api.setfield (api.createtable L) k

/-- `lua_pushlightuserdata(L, T); lua_pushcclosure(L, f, 1);
lua_setfield(L, -2, k)`. -/
def setClosure (T : MetaPtr κ) (f : MetaLuaFunction) (k : String) (L : σ) : σ :=
  api.setfield (api.pushcclosure (api.push L (.lightuserdata (.metaClass T))) f) k

/-- A push of `v` and `lua_setfield(L, -2, k)`. -/
def setValue (v : LuaValue κ) (k : String) (L : σ) : σ := api.setfield (api.push L v) k

/-- `MetaLuaBindClass` from the `delete` entry on. -/
def finishBind (sys : MetaSystem κ) (info : ObjectInfo κ) (T : MetaPtr κ) (L : σ) : σ :=
  let name := (sys.obj T).name
  let L := setClosure api T .deleteImpl "delete" L
  let L := api.setfield (api.pushstring L (nameBytes name)) "__type"
  let L := setValue api (.number (Double.ofInt (info.sizeOfObject T.type))) "__sizeof" L
  let L := setValue api (.number (Double.ofInt (info.alignOfObject T.type))) "__alignof" L
  let L := setValue api (.lightuserdata (.metaClass T)) "__metaclass" L
  api.setglobal L name

/-- `MetaLuaBindClass`. -/
def metaLuaBindClass (sys : MetaSystem κ) (info : ObjectInfo κ) (T : MetaPtr κ) (L : σ) : σ :=
  let L := api.createtable L
  let L := setTable api "__metadata" L
  let L := setTable api "__funs" L
  let L := setTable api "__vars" L
  let L := setClosure api T .eq "__eq" L
  let L := setClosure api T .index "__index" L
  let L := setClosure api T .toString "__tostring" L
  let L := setClosure api T .cast "cast" L
  let L := if info.isAbstract T.type then L else setClosure api T .newImpl "new" L
  finishBind api sys info T L

end Defs

/-! ## The table under construction -/

/-- `v` is `v₀` with the new table on top, the entries `fields` in it so
far and none under other keys; what was there before is untouched. -/
structure Building (v₀ : LuaState κ) (fields : String → LuaValue κ) (v : LuaState κ) : Prop
    where
  stack : v.stack = .table v₀.tableCount :: v₀.stack
  count : v₀.tableCount < v.tableCount
  fields_eq : v.field v₀.tableCount = fields
  field_old : ∀ t < v₀.tableCount, v.field t = v₀.field t
  others : ∀ k, v.other v₀.tableCount k = .nil
  other_old : ∀ t < v₀.tableCount, v.other t = v₀.other t
  block : v.block = v₀.block
  metatable : v.metatable = v₀.metatable
  global : v.global = v₀.global
  userdataCount : v.userdataCount = v₀.userdataCount

namespace Building

variable {api : LuaApi κ σ} {v₀ : LuaState κ} {fields : String → LuaValue κ} {L : σ}

theorem start (api : LuaApi κ σ) (L : σ) :
    Building (api.view L) (fun _ => .nil) (api.view (api.createtable L)) := by
  rw [api.createtable_eq]
  constructor
  case stack => rfl
  case count => exact Nat.lt_succ_self _
  case fields_eq => exact update_self _ _ _
  case field_old =>
    intro t ht
    exact update_of_ne (by omega) _ _
  case others => exact congrFun (update_self _ _ _)
  case other_old =>
    intro t ht
    exact update_of_ne (by omega) _ _
  all_goals rfl

/-- An entry whose value is already on top of the table. -/
theorem setfield (h : Building v₀ fields (api.view L)) {L' : σ} {v : LuaValue κ}
    (hL' : api.view L' = (api.view L).push v) (k : String) :
    Building v₀ (update fields k v) (api.view (api.setfield L' k)) := by
  have hstack : (api.view L').stack = v :: .table v₀.tableCount :: v₀.stack := by
    rw [hL', State.push_stack, h.stack]
  rw [api.setfield_eq _ _ _ _ _ hstack, hL']
  constructor
  case stack => rfl
  case count => exact h.count
  case fields_eq =>
    show update (api.view L).field _ _ _ = _
    rw [update_self]
    show update ((api.view L).field v₀.tableCount) k v = _
    rw [h.fields_eq]
  case field_old =>
    intro t ht
    show update (api.view L).field _ _ t = _
    rw [update_of_ne (by omega), h.field_old t ht]
  case others => exact h.others
  case other_old => exact h.other_old
  case block => exact h.block
  case metatable => exact h.metatable
  case global => exact h.global
  case userdataCount => exact h.userdataCount

theorem setValue (h : Building v₀ fields (api.view L)) (v : LuaValue κ) (k : String) :
    Building v₀ (update fields k v) (api.view (setValue api v k L)) :=
  h.setfield (api.push_eq L v) k

theorem setClosure (h : Building v₀ fields (api.view L)) (T : MetaPtr κ)
    (f : MetaLuaFunction) (k : String) :
    Building v₀ (update fields k (.function f (.metaClass T)))
      (api.view (setClosure api T f k L)) := by
  refine h.setfield ?_ k
  have htop : (api.view (api.push L (.lightuserdata (.metaClass T)))).stack
      = .lightuserdata (.metaClass T) :: (api.view L).stack := by
    rw [api.push_eq]
    rfl
  rw [api.pushcclosure_eq _ _ _ _ htop, api.push_eq]
  rfl

/-- An entry that is a fresh table: it is another table than the one under
construction. -/
theorem setTable (h : Building v₀ fields (api.view L)) (k : String) :
    ∃ n, Building v₀ (update fields k (.table n)) (api.view (setTable api k L)) := by
  refine ⟨(api.view L).tableCount, ?_⟩
  have hnew : Building v₀ fields { (api.view L).newTable with stack := (api.view L).stack } := by
    constructor
    case stack => exact h.stack
    case count => exact Nat.lt_succ_of_lt h.count
    case fields_eq =>
      have hne := h.count
      show update (api.view L).field _ _ _ = _
      rw [update_of_ne (by omega), h.fields_eq]
    case field_old =>
      intro t ht
      have hne := h.count
      show update (api.view L).field _ _ t = _
      rw [update_of_ne (by omega), h.field_old t ht]
    case others =>
      intro k
      have hne := h.count
      show update (api.view L).other _ _ _ k = _
      rw [update_of_ne (by omega), h.others k]
    case other_old =>
      intro t ht
      have hne := h.count
      show update (api.view L).other _ _ t = _
      rw [update_of_ne (by omega), h.other_old t ht]
    case block => exact h.block
    case metatable => exact h.metatable
    case global => exact h.global
    case userdataCount => exact h.userdataCount
  have hstack : (api.view (api.createtable L)).stack
      = .table (api.view L).tableCount :: .table v₀.tableCount :: v₀.stack := by
    rw [api.createtable_eq]
    show _ :: (api.view L).stack = _
    rw [h.stack]
  show Building _ _ (api.view (api.setfield _ k))
  rw [api.setfield_eq _ _ _ _ _ hstack, api.createtable_eq]
  constructor
  case stack => rfl
  case count => exact hnew.count
  case fields_eq =>
    show update (update (api.view L).field _ _) _ _ _ = _
    rw [update_self]
    exact congrArg (update · k _) hnew.fields_eq
  case field_old =>
    intro t ht
    show update (update (api.view L).field _ _) _ _ t = _
    rw [update_of_ne (by omega)]
    exact hnew.field_old t ht
  case others => exact hnew.others
  case other_old => exact hnew.other_old
  case block => exact h.block
  case metatable => exact h.metatable
  case global => exact h.global
  case userdataCount => exact h.userdataCount

end Building

/-! ## A bound class -/

/-- What the last entries add to a table under construction. -/
theorem finishBind_spec (api : LuaApi κ σ) (sys : MetaSystem κ) (info : ObjectInfo κ)
    (T : MetaPtr κ) {v₀ : LuaState κ} {fields : String → LuaValue κ} {L : σ}
    (h : Building v₀ fields (api.view L)) :
    ∃ v fields', Building v₀ fields' v
      ∧ api.view (finishBind api sys info T L) = { v with
          stack := v₀.stack
          global := update v₀.global (sys.obj T).name (.table v₀.tableCount) }
      ∧ fields' "__metaclass" = .lightuserdata (.metaClass T)
      ∧ fields' "delete" = .function .deleteImpl (.metaClass T)
      ∧ fields' "cast" = fields "cast" ∧ fields' "new" = fields "new" := by
  have h₁ := (h.setClosure T .deleteImpl "delete").setfield
    (api.pushstring_eq _ (nameBytes (sys.obj T).name)) "__type"
  have h₂ := h₁.setValue (.number (Double.ofInt (info.sizeOfObject T.type))) "__sizeof"
  have h₃ := h₂.setValue (.number (Double.ofInt (info.alignOfObject T.type))) "__alignof"
  have h₄ := h₃.setValue (.lightuserdata (.metaClass T)) "__metaclass"
  refine ⟨_, _, h₄, ?_, ?_, ?_, ?_, ?_⟩
  · show api.view (api.setglobal _ _) = _
    rw [api.setglobal_eq _ _ _ _ h₄.stack, h₄.global]
  all_goals simp [update]

/-- **`MetaLuaBindClass`** publishes, under the class name, a fresh table
labelled with the class that offers `cast`, `delete` and, unless the class
is abstract, `new`; nothing else in Lua changes. -/
theorem metaLuaBindClass_spec (api : LuaApi κ σ) (sys : MetaSystem κ) (info : ObjectInfo κ)
    (T : MetaPtr κ) (L : σ) :
    ∃ v fields, Building (api.view L) fields v
      ∧ api.view (metaLuaBindClass api sys info T L) = { v with
          stack := (api.view L).stack
          global := update (api.view L).global (sys.obj T).name
            (.table (api.view L).tableCount) }
      ∧ fields "__metaclass" = .lightuserdata (.metaClass T)
      ∧ fields "delete" = .function .deleteImpl (.metaClass T)
      ∧ fields "cast" = .function .cast (.metaClass T)
      ∧ (info.isAbstract T.type = false → fields "new" = .function .newImpl (.metaClass T)) := by
  obtain ⟨n₁, h₁⟩ := (Building.start api L).setTable "__metadata"
  obtain ⟨n₂, h₂⟩ := h₁.setTable "__funs"
  obtain ⟨n₃, h₃⟩ := h₂.setTable "__vars"
  have h₄ := (((h₃.setClosure T .eq "__eq").setClosure T .index "__index").setClosure T
    .toString "__tostring").setClosure T .cast "cast"
  by_cases habs : info.isAbstract T.type = true
  · obtain ⟨v, fields, hb, hv, hm, hd, hc, _⟩ := finishBind_spec api sys info T h₄
    refine ⟨v, fields, hb, ?_, hm, hd, by rw [hc]; simp, by simp [habs]⟩
    rw [← hv]
    simp only [metaLuaBindClass, habs, if_true]
  · obtain ⟨v, fields, hb, hv, hm, hd, hc, hn⟩ :=
      finishBind_spec api sys info T (h₄.setClosure T .newImpl "new")
    refine ⟨v, fields, hb, ?_, hm, hd, by rw [hc]; simp [update], fun _ => by rw [hn]; simp⟩
    rw [← hv]
    simp only [metaLuaBindClass, habs, if_false, Bool.false_eq_true]

variable [DecidableEq κ] {R : Registrations κ}

theorem bound_metaLuaBindClass (api : LuaApi κ σ) {sys : MetaSystem κ} {ord tops : List κ}
    (h : Registry R sys ord tops) (info : ObjectInfo κ) (c : κ) (L : σ) :
    Bound R (api.view (metaLuaBindClass api sys info (.copy c) L)) c := by
  obtain ⟨v, fields, hb, hv, hm, _⟩ := metaLuaBindClass_spec api sys info (.copy c) L
  rw [hv]
  refine ⟨(api.view L).tableCount, hb.count, ?_, ?_⟩
  · show update _ _ _ _ = _
    rw [h.name_eq, update_self]
  · show v.field _ _ = _
    rw [hb.fields_eq, hm]

/-- Binding a class leaves classes of other names bound. -/
theorem Bound.bind_other (api : LuaApi κ σ) {sys : MetaSystem κ} {ord tops : List κ}
    (h : Registry R sys ord tops) (info : ObjectInfo κ) {c d : κ} {L : σ}
    (hd : Bound R (api.view L) d) (hne : R.nameOf d ≠ R.nameOf c) :
    Bound R (api.view (metaLuaBindClass api sys info (.copy c) L)) d := by
  obtain ⟨t, ht, hglobal, hfield⟩ := hd
  obtain ⟨v, fields, hb, hv, _⟩ := metaLuaBindClass_spec api sys info (.copy c) L
  rw [hv]
  refine ⟨t, ht.trans hb.count, ?_, ?_⟩
  · show update _ _ _ _ = _
    rw [h.name_eq, update_of_ne hne, hglobal]
  · show v.field t _ = _
    rw [hb.field_old t ht, hfield]

/-- **Any number of classes**, each listed under its own name, are bound
after `MetaLuaBindClass` has run for each. -/
theorem bound_bindAll (api : LuaApi κ σ) {sys : MetaSystem κ} {ord tops : List κ}
    (h : Registry R sys ord tops) (info : ObjectInfo κ) (cs : List κ)
    (hcs : ∀ c ∈ cs, R.Listed c) (L : σ) :
    ∀ c ∈ cs, Bound R
      (api.view (cs.foldl (fun L c => metaLuaBindClass api sys info (.copy c) L) L)) c := by
  induction cs using List.reverseRecOn with
  | nil =>
      intro c hc
      cases hc
  | append_singleton rest d ih =>
      intro c hc
      rw [List.foldl_append]
      by_cases hcd : c = d
      · subst hcd
        exact bound_metaLuaBindClass api h info c _
      · have hrest : c ∈ rest := by
          rcases List.mem_append.mp hc with hc | hc
          · exact hc
          · exact absurd (List.mem_singleton.mp hc) hcd
        have hne : R.nameOf c ≠ R.nameOf d := by
          intro he
          have hc' := hcs c hc
          have hd' := hcs d (by simp)
          rw [Registrations.Listed, he, hd'] at hc'
          exact hcd (Option.some.inj hc').symm
        exact (ih (fun x hx => hcs x (List.mem_append_left _ hx)) c hrest).bind_other api h info hne

end SkyEngine.Meta
