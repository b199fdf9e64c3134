import SkyEngine.Lib.LuaTable
import SkyEngine.LuaInterface.RoundTrip

/-!
# LuaInterface — Index

`MetaLuaIndex` and `MetaLuaToString` (`Base/LuaInterface.cpp`), the two
functions through which Lua reaches everything else in a bound class:
indexing an object is indexing its metatable, and its text is the name of
the class it was pushed as.
-/

namespace SkyEngine.Meta

open Function
open Lua Binary64 CString

variable {κ σ : Type}

abbrev LuaTableApi (κ σ : Type) := TableApi (LightPtr κ) MetaLuaFunction σ

/-! ## The two functions -/

/-- `MetaLuaIndex`. Without a metatable nothing is pushed, and the calls
that follow find the arguments themselves. -/
def metaLuaIndex (api : LuaTableApi κ σ) (L : σ) : Except String σ :=
  let L := (api.getmetatable L (-2)).getD L
  let L := api.pushvalue L (-2)
  api.gettable L (-2)

/-- `MetaLuaToString` with this upvalue. -/
def metaLuaToString (api : LuaApi κ σ) (sys : MetaSystem κ) (upvalue : LightPtr κ) (L : σ) :
    Except Fault σ :=
  match upvalue with
  | .metaClass upval => .ok (api.pushstring L (nameBytes (sys.obj upval).name))
  | .other address => if address = 0 then .error .assertion else .error .badPointer

/-! ## The table of a bound class -/

/-- The entries of the table `MetaLuaBindClass` builds, given the three
empty tables among them. -/
def classFields (sys : MetaSystem κ) (info : ObjectInfo κ) (T : MetaPtr κ)
    (metadata funs vars : Nat) (k : String) : LuaValue κ :=
  if k = "__metaclass" then .lightuserdata (.metaClass T)
  else if k = "__alignof" then .number (Double.ofInt (info.alignOfObject T.type))
  else if k = "__sizeof" then .number (Double.ofInt (info.sizeOfObject T.type))
  else if k = "__type" then .string (cText (nameBytes (sys.obj T).name))
  else if k = "delete" then .function .deleteImpl (.metaClass T)
  else if k = "new" then
    if info.isAbstract T.type then .nil else .function .newImpl (.metaClass T)
  else if k = "cast" then .function .cast (.metaClass T)
  else if k = "__tostring" then .function .toString (.metaClass T)
  else if k = "__index" then .function .index (.metaClass T)
  else if k = "__eq" then .function .eq (.metaClass T)
  else if k = "__vars" then .table vars
  else if k = "__funs" then .table funs
  else if k = "__metadata" then .table metadata
  else .nil

/-- What such a table gives for any key. -/
def classEntry (sys : MetaSystem κ) (info : ObjectInfo κ) (T : MetaPtr κ)
    (metadata funs vars : Nat) (k : LuaValue κ) : LuaValue κ :=
  (k.text?.map (classFields sys info T metadata funs vars)).getD .nil

/-- `t` is a class table of `T`. -/
def IsClassTable (sys : MetaSystem κ) (info : ObjectInfo κ) (T : MetaPtr κ) (v : LuaState κ)
    (t : Nat) : Prop :=
  (∃ metadata funs vars, v.field t = classFields sys info T metadata funs vars)
    ∧ ∀ k, v.other t k = .nil

/-- It stays one while nobody writes to it. -/
theorem IsClassTable.of_same {sys : MetaSystem κ} {info : ObjectInfo κ} {T : MetaPtr κ}
    {v v' : LuaState κ} {t : Nat} (h : IsClassTable sys info T v t)
    (hfield : v'.field t = v.field t) (hother : v'.other t = v.other t) :
    IsClassTable sys info T v' t := by
  obtain ⟨hfields, hothers⟩ := h
  constructor
  · rw [hfield]
    exact hfields
  · rw [hother]
    exact hothers

/-- The entries from `delete` on. -/
theorem finishBind_fields (api : LuaApi κ σ) (sys : MetaSystem κ) (info : ObjectInfo κ)
    (T : MetaPtr κ) {v₀ : LuaState κ} {fields : String → LuaValue κ} {L : σ}
    (h : Building v₀ fields (api.view L)) :
    ∃ v, Building v₀
        (update (update (update (update (update fields
          "delete" (.function .deleteImpl (.metaClass T)))
          "__type" (.string (cText (nameBytes (sys.obj T).name))))
          "__sizeof" (.number (Double.ofInt (info.sizeOfObject T.type))))
          "__alignof" (.number (Double.ofInt (info.alignOfObject T.type))))
          "__metaclass" (.lightuserdata (.metaClass T))) v
      ∧ api.view (finishBind api sys info T L) = { v with
          stack := v₀.stack
          global := update v₀.global (sys.obj T).name (.table v₀.tableCount) } := by
  have h₁ := (h.setClosure T .deleteImpl "delete").setfield
    (api.pushstring_eq _ (nameBytes (sys.obj T).name)) "__type"
  have h₂ := h₁.setValue (.number (Double.ofInt (info.sizeOfObject T.type))) "__sizeof"
  have h₃ := h₂.setValue (.number (Double.ofInt (info.alignOfObject T.type))) "__alignof"
  have h₄ := h₃.setValue (.lightuserdata (.metaClass T)) "__metaclass"
  refine ⟨_, h₄, ?_⟩
  show api.view (api.setglobal _ _) = _
  rw [api.setglobal_eq _ _ _ _ h₄.stack, h₄.global]

/-- **The whole table** that `MetaLuaBindClass` publishes. -/
theorem metaLuaBindClass_fields (api : LuaApi κ σ) (sys : MetaSystem κ) (info : ObjectInfo κ)
    (T : MetaPtr κ) (L : σ) :
    ∃ v fields metadata funs vars, Building (api.view L) fields v
      ∧ fields = classFields sys info T metadata funs vars
      ∧ api.view (metaLuaBindClass api sys info T L) = { v with
          stack := (api.view L).stack
          global := update (api.view L).global (sys.obj T).name
            (.table (api.view L).tableCount) } := by
  obtain ⟨n₁, h₁⟩ := (Building.start api L).setTable "__metadata"
  obtain ⟨n₂, h₂⟩ := h₁.setTable "__funs"
  obtain ⟨n₃, h₃⟩ := h₂.setTable "__vars"
  have h₄ := (((h₃.setClosure T .eq "__eq").setClosure T .index "__index").setClosure T
    .toString "__tostring").setClosure T .cast "cast"
  by_cases habs : info.isAbstract T.type = true
  · obtain ⟨v, hb, hv⟩ := finishBind_fields api sys info T h₄
    refine ⟨v, _, n₁, n₂, n₃, hb, ?_, ?_⟩
    · funext k
      by_cases hk : k = "new"
      · subst hk
        simp [classFields, habs]
      · simp only [update_apply, classFields, hk, if_false]
    · rw [← hv]
      simp only [metaLuaBindClass, habs, if_true]
  · obtain ⟨v, hb, hv⟩ := finishBind_fields api sys info T (h₄.setClosure T .newImpl "new")
    refine ⟨v, _, n₁, n₂, n₃, hb, ?_, ?_⟩
    · funext k
      simp only [update_apply, classFields, habs, if_false, Bool.false_eq_true]
    · rw [← hv]
      simp only [metaLuaBindClass, habs, if_false, Bool.false_eq_true]

/-! ## One call -/

/-- **Indexing an object** reads its metatable: the entry stands on top,
above what the function left on its own stack. -/
theorem metaLuaIndex_spec (api : LuaTableApi κ σ) {L : σ} {u t : Nat} {k : LuaValue κ}
    (ht : (api.view L).metatable u = some t)
    (hk : k.text? = none → (api.view L).other t k = .nil) :
    ∃ L', metaLuaIndex api (api.enter L [.userdata u, k]) = .ok L'
      ∧ api.view L' = { api.view L with
          stack := [(api.view L).entry t k, .table t, k, .userdata u] } := by
  let L₀ := api.enter L [.userdata u, k]
  have h₀ : api.view L₀ = { api.view L with stack := [k, .userdata u] } := api.enter_eq _ _
  have hobj : (api.view L₀).get? (-2) = some (.userdata u) := by
    rw [h₀]
    rfl
  have hmeta := api.getmetatable_eq L₀ (-2) u hobj
  rw [h₀] at hmeta
  simp only [ht, Option.map_some] at hmeta
  obtain ⟨L₁, hget, h₁⟩ := Option.map_eq_some_iff.mp hmeta
  have hkey : (api.view L₁).get? (-2) = some k := by
    rw [h₁]
    rfl
  have h₂ := api.pushvalue_eq L₁ (-2) _ hkey
  rw [h₁] at h₂
  have htable : (api.view (api.pushvalue L₁ (-2))).get? (-2) = some (.table t) := by
    rw [h₂]
    rfl
  have hget₂ := api.gettable_eq (api.pushvalue L₁ (-2)) (-2) t k _ htable (by rw [h₂]; rfl)
    (by rw [h₂]; exact hk)
  obtain ⟨L', hL', hview⟩ := map_ok hget₂
  refine ⟨L', ?_, ?_⟩
  · show api.gettable (api.pushvalue ((api.getmetatable L₀ (-2)).getD L₀) (-2)) (-2) = _
    rw [hget, Option.getD_some, hL']
  · rw [hview, h₂]
    rfl

theorem metaLuaToString_spec (api : LuaApi κ σ) (sys : MetaSystem κ) (T : MetaPtr κ) (L : σ)
    (u : Nat) :
    ∃ L', metaLuaToString api sys (.metaClass T) (api.enter L [.userdata u]) = .ok L'
      ∧ api.view L' = { api.view L with
          stack := [.string (cText (nameBytes (sys.obj T).name)), .userdata u] } := by
  refine ⟨_, rfl, ?_⟩
  rw [api.pushstring_eq, api.enter_eq]
  rfl

/-! ## Sessions -/

variable [DecidableEq κ] {R : Registrations κ}

/-- Other activity in Lua that keeps away from the names of the bound
classes, from the userdata that were pushed and from their class tables. -/
structure KeepsClear (R : Registrations κ) (bound : List κ) (pushed : List (Nat × κ))
    (v v' : LuaState κ) : Prop where
  global : ∀ c ∈ bound, v'.global (R.nameOf c) = v.global (R.nameOf c)
  metatable : ∀ p ∈ pushed, v'.metatable p.1 = v.metatable p.1
  bound_table : ∀ c ∈ bound, ∀ t, v.global (R.nameOf c) = .table t →
    v'.field t = v.field t ∧ v'.other t = v.other t
  pushed_table : ∀ p ∈ pushed, ∀ t, v.metatable p.1 = some t →
    v'.field t = v.field t ∧ v'.other t = v.other t
  userdataCount : v.userdataCount ≤ v'.userdataCount
  tableCount : v.tableCount ≤ v'.tableCount

/-- A Lua state in the course of a session: classes are bound, objects are
pushed through bound classes (whatever their run-time class), and scripts
run, in any order; a class may be bound again. -/
inductive Session (api : LuaApi κ σ) (sys : MetaSystem κ) (lay : Layout R)
    (info : ObjectInfo κ) : List κ → List (Nat × κ) → σ → Prop
  | start (L : σ) : Session api sys lay info [] [] L
  | bind {bound : List κ} {pushed : List (Nat × κ)} {L : σ} {c : κ} : R.Listed c →
      Session api sys lay info bound pushed L →
      Session api sys lay info (c :: bound) pushed (metaLuaBindClass api sys info (.copy c) L)
  | push {bound : List κ} {pushed : List (Nat × κ)} {L L' : σ} {c : κ} {pObject : Int}
      (ids : ObjectIds) : c ∈ bound → pObject ≠ 0 → Session api sys lay info bound pushed L →
      writeType api sys lay ids (.copy c) pObject L = .ok L' →
      Session api sys lay info bound (((api.view L).userdataCount, c) :: pushed) L'
  | script {bound : List κ} {pushed : List (Nat × κ)} {L L' : σ} :
      Session api sys lay info bound pushed L →
      KeepsClear R bound pushed (api.view L) (api.view L') →
      Session api sys lay info bound pushed L'

/-- Bound classes are published, and pushed objects carry, complete class
tables. -/
structure Dispatching (R : Registrations κ) (sys : MetaSystem κ) (info : ObjectInfo κ)
    (bound : List κ) (pushed : List (Nat × κ)) (v : LuaState κ) : Prop where
  bound : ∀ c ∈ bound, ∃ t < v.tableCount, v.global (R.nameOf c) = .table t
    ∧ IsClassTable sys info (.copy c) v t
  pushed : ∀ p ∈ pushed, p.1 < v.userdataCount ∧ ∃ t < v.tableCount,
    v.metatable p.1 = some t ∧ IsClassTable sys info (.copy p.2) v t

namespace Dispatching

variable {sys : MetaSystem κ} {info : ObjectInfo κ} {bound : List κ} {pushed : List (Nat × κ)}

theorem bind {api : LuaApi κ σ} {ord tops : List κ} (hreg : Registry R sys ord tops)
    {L : σ} (h : Dispatching R sys info bound pushed (api.view L)) {c : κ} (hc : R.Listed c)
    (hbound : ∀ d ∈ bound, R.Listed d) :
    Dispatching R sys info (c :: bound) pushed
      (api.view (metaLuaBindClass api sys info (.copy c) L)) := by
  obtain ⟨v, fields, metadata, funs, vars, hb, hfields, hview⟩ :=
    metaLuaBindClass_fields api sys info (.copy c) L
  rw [hreg.name_eq] at hview
  rw [hview]
  have hnew : ∃ t < v.tableCount,
      update (api.view L).global (R.nameOf c) (.table (api.view L).tableCount) (R.nameOf c)
          = .table t
        ∧ IsClassTable sys info (.copy c) { v with
            stack := (api.view L).stack
            global := update (api.view L).global (R.nameOf c)
              (.table (api.view L).tableCount) } t :=
    ⟨(api.view L).tableCount, hb.count, update_self _ _ _,
      ⟨metadata, funs, vars, hb.fields_eq.trans hfields⟩, hb.others⟩
  constructor
  case bound =>
    intro d hd
    rcases List.mem_cons.mp hd with rfl | hd
    · exact hnew
    · by_cases hname : R.nameOf d = R.nameOf c
      · -- two listed classes of one name are the same class
        have hd' := hbound d hd
        rw [Registrations.Listed, hname, hc] at hd'
        cases Option.some.inj hd'
        exact hnew
      · obtain ⟨t, ht, hglobal, htable⟩ := h.bound d hd
        refine ⟨t, ht.trans hb.count, ?_, htable.of_same (hb.field_old t ht) (hb.other_old t ht)⟩
        show update _ _ _ _ = _
        rw [update_of_ne hname, hglobal]
  case pushed =>
    intro p hp
    obtain ⟨hlt, t, ht, hmeta, htable⟩ := h.pushed p hp
    refine ⟨?_, t, ht.trans hb.count, ?_,
      htable.of_same (hb.field_old t ht) (hb.other_old t ht)⟩
    · show p.1 < v.userdataCount
      rw [hb.userdataCount]
      exact hlt
    · show v.metatable p.1 = some t
      rw [hb.metatable, hmeta]

theorem push {api : LuaApi κ σ} {lay : Layout R} {ids : ObjectIds} {ord tops : List κ}
    (hreg : Registry R sys ord tops) {L L' : σ}
    (h : Dispatching R sys info bound pushed (api.view L)) {c : κ} (hc : c ∈ bound)
    {pObject : Int} (hp : pObject ≠ 0)
    (hwrite : writeType api sys lay ids (.copy c) pObject L = .ok L') :
    Dispatching R sys info bound (((api.view L).userdataCount, c) :: pushed) (api.view L') := by
  obtain ⟨t, ht, hglobal, htable⟩ := h.bound c hc
  rw [← hreg.name_eq] at hglobal
  obtain ⟨a, _, hview⟩ := writeType_view api sys lay ids hp (.inl ⟨t, hglobal⟩) hwrite
  rw [hview]
  constructor
  case bound => exact h.bound
  case pushed =>
    intro p hp
    rcases List.mem_cons.mp hp with rfl | hp
    · refine ⟨Nat.lt_succ_self _, t, ht, ?_, htable⟩
      show update _ _ _ _ = _
      rw [update_self, hglobal]
      rfl
    · obtain ⟨hlt, t', ht', hmeta, htable'⟩ := h.pushed p hp
      refine ⟨Nat.lt_succ_of_lt hlt, t', ht', ?_, htable'⟩
      show update _ _ _ _ = _
      rw [update_of_ne (by omega), hmeta]

theorem script {v v' : LuaState κ} (h : Dispatching R sys info bound pushed v)
    (hclear : KeepsClear R bound pushed v v') : Dispatching R sys info bound pushed v' := by
  constructor
  case bound =>
    intro c hc
    obtain ⟨t, ht, hglobal, htable⟩ := h.bound c hc
    obtain ⟨hfield, hother⟩ := hclear.bound_table c hc t hglobal
    exact ⟨t, Nat.lt_of_lt_of_le ht hclear.tableCount, by rw [hclear.global c hc, hglobal],
      htable.of_same hfield hother⟩
  case pushed =>
    intro p hp
    obtain ⟨hlt, t, ht, hmeta, htable⟩ := h.pushed p hp
    obtain ⟨hfield, hother⟩ := hclear.pushed_table p hp t hmeta
    exact ⟨Nat.lt_of_lt_of_le hlt hclear.userdataCount, t,
      Nat.lt_of_lt_of_le ht hclear.tableCount, by rw [hclear.metatable p hp, hmeta],
      htable.of_same hfield hother⟩

end Dispatching

theorem Session.listed {api : LuaApi κ σ} {sys : MetaSystem κ} {lay : Layout R}
    {info : ObjectInfo κ} {bound : List κ} {pushed : List (Nat × κ)} {L : σ}
    (h : Session api sys lay info bound pushed L) : ∀ c ∈ bound, R.Listed c := by
  induction h with
  | start => simp
  | bind hc _ ih => simpa using ⟨hc, ih⟩
  | push _ _ _ _ _ ih => exact ih
  | script _ _ ih => exact ih

theorem Session.dispatching {api : LuaApi κ σ} {sys : MetaSystem κ} {ord tops : List κ}
    (hreg : Registry R sys ord tops) {lay : Layout R} {info : ObjectInfo κ} {bound : List κ}
    {pushed : List (Nat × κ)} {L : σ} (h : Session api sys lay info bound pushed L) :
    Dispatching R sys info bound pushed (api.view L) := by
  induction h with
  | start => exact ⟨by simp, by simp⟩
  | bind hc hsession ih => exact ih.bind hreg hc hsession.listed
  | push ids hc hp _ hwrite ih => exact ih.push hreg hc hp hwrite
  | script _ hclear ih => exact ih.script hclear

/-- **Every object that was pushed keeps answering as an object of the
class it was pushed as**: after any session its metatable is that class's
complete table, indexing it with any key gives the entry of that table,
nil where there is none, and its text is the class's name. -/
theorem session_dispatches (hR : R.WellLinked) {walk : List (MetaPtr κ)} (hw : R.Walk walk)
    {fuel : Nat} (hfuel : R.classes.length ≤ fuel) {sys : MetaSystem κ}
    (hinit : initializeSystem R walk fuel = .ok sys) (api : LuaTableApi κ σ) (lay : Layout R)
    (info : ObjectInfo κ) {bound : List κ} {pushed : List (Nat × κ)} {L : σ}
    (h : Session api.toApi sys lay info bound pushed L) {u : Nat} {c : κ}
    (hu : (u, c) ∈ pushed) :
    ∃ t metadata funs vars, (api.view L).metatable u = some t
      ∧ (api.view L).field t = classFields sys info (.copy c) metadata funs vars
      ∧ (∀ k, ∃ L', metaLuaIndex api (api.enter L [.userdata u, k]) = .ok L'
        ∧ (api.view L').get? (-1) = some (classEntry sys info (.copy c) metadata funs vars k)
        ∧ api.view L' = { api.view L with stack := (api.view L').stack })
      ∧ ∃ L', metaLuaToString api.toApi sys (.metaClass (.copy c)) (api.enter L [.userdata u])
            = .ok L'
          ∧ (api.view L').get? (-1) = some (.string (cText (nameBytes (R.nameOf c))))
          ∧ api.view L' = { api.view L with stack := (api.view L').stack } := by
  obtain ⟨ord, tops, hreg⟩ := initializeSystem_registry hR hw hfuel hinit
  obtain ⟨_, t, _, hmeta, ⟨metadata, funs, vars, hfield⟩, hother⟩ :=
    (h.dispatching hreg).pushed _ hu
  refine ⟨t, metadata, funs, vars, hmeta, hfield, fun k => ?_, ?_⟩
  · obtain ⟨L', hindex, hview⟩ := metaLuaIndex_spec api (k := k) hmeta fun _ => hother k
    refine ⟨L', hindex, ?_, by rw [hview]⟩
    rw [hview, State.get?_top _ rfl, State.entry_eq hother, hfield, classEntry]
  · obtain ⟨L', hstring, hview⟩ := metaLuaToString_spec api.toApi sys (.copy c) L u
    refine ⟨L', hstring, ?_, by rw [hview]⟩
    rw [hview, State.get?_top _ rfl, hreg.name_eq]

/-- A `sprite` pushed as a `pod` offers the `delete` of `pod`, and nothing
under `1`. -/
theorem session_dispatches_sample :
    ∃ sys L, initializeSystem sampleProgram sampleWalk 8 = .ok sys
      ∧ Session Api.reference sys sampleLayout sampleInfo [.pod] [(0, .pod)] L
      ∧ (∃ L', metaLuaIndex TableApi.reference
            (TableApi.reference.enter L [.userdata 0, .string (keyBytes "delete")]) = .ok L'
        ∧ (TableApi.reference.view L').get? (-1)
          = some (.function .deleteImpl (.metaClass (.copy .pod))))
      ∧ ∃ L', metaLuaIndex TableApi.reference
            (TableApi.reference.enter L [.userdata 0, .number (Double.ofInt 1)]) = .ok L'
        ∧ (TableApi.reference.view L').get? (-1) = some .nil := by
  obtain ⟨sys, hsys, ord, tops, hreg⟩ := sampleProgram_registry
  have hpod : sampleProgram.Listed .pod := by decide
  have hbound := bound_metaLuaBindClass Api.reference hreg sampleInfo .pod State.empty
  have hsprite : sampleProgram.Listed .sprite := by decide
  have hpodObject : sampleLayout.IsObject .pod := by decide
  have hspriteObject : sampleLayout.IsObject .sprite := by decide
  have hlive : 0 < sampleLayout.part 4104 .pod := by decide
  obtain ⟨ids, hid⟩ : ∃ ids : ObjectIds, ids 4104 = sys.metaClassIdOf .sprite :=
    ⟨fun _ => sys.metaClassIdOf .sprite, rfl⟩
  obtain ⟨L, _, hwrite, _⟩ := hreg.writeType_readType sampleProgram_wellLinked Api.reference
    hpod hsprite hpodObject hspriteObject (.inl rfl) hlive hid hbound 0
  have hsession : Session Api.reference sys sampleLayout sampleInfo [.pod] [(0, .pod)] L :=
    .push ids (by simp) (by decide) (.bind hpod (.start State.empty)) hwrite
  obtain ⟨_, _, _, _, _, _, hindex, _⟩ := session_dispatches sampleProgram_wellLinked
    sampleWalk_walk sampleProgram_fuel hsys TableApi.reference sampleLayout sampleInfo hsession
    List.mem_cons_self
  obtain ⟨L₁, hcall₁, htop₁, _⟩ := hindex (.string (keyBytes "delete"))
  obtain ⟨L₂, hcall₂, htop₂, _⟩ := hindex (.number (Double.ofInt 1))
  rw [classEntry, Value.text?_keyBytes] at htop₁
  exact ⟨sys, L, hsys, hsession, ⟨L₁, hcall₁, htop₁⟩, L₂, hcall₂, htop₂⟩

end SkyEngine.Meta
