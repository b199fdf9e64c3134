import SkyEngine.LuaInterface.RoundTrip

/-!
# LuaInterface — Equality

`MetaLuaEq` (`Base/LuaInterface.cpp`), the `__eq` of every bound class. It
compares the pointers two userdata hold, and those are equal exactly for
one object because `WriteType` stores the pointer of the run-time class,
whatever class the object is pushed through.
-/

namespace SkyEngine.Meta

open Function (update update_self update_of_ne)
open Forest Lua

variable {κ σ : Type} [DecidableEq κ] {R : Registrations κ}

omit [DecidableEq κ] in
/-- `MetaLuaEq`. -/
def metaLuaEq (api : LuaApi κ σ) (L : σ) : σ :=
  let obj1 := api.touserdata L (-1)
  let obj2 := api.touserdata L (-2)
  let result :=
    match obj1, obj2 with
    | some obj1, some obj2 =>
        if api.type L (-1) ≠ .lightuserdata ∧ api.type L (-2) ≠ .lightuserdata then
          decide (api.peek L obj1 = api.peek L obj2)
        else false
    | _, _ => false
  api.push L (.boolean result)

/-- A value that no full userdata is. -/
def NilOrLight (v : LuaValue κ) : Prop := v = .nil ∨ ∃ p, v = .lightuserdata p

section Specs

variable (api : LuaApi κ σ)

omit [DecidableEq κ] in
/-- Two full userdata are compared by what they hold. -/
theorem metaLuaEq_userdata {L : σ} {u u' : Nat}
    (hu : (api.view L).get? (-2) = some (.userdata u))
    (hu' : (api.view L).get? (-1) = some (.userdata u')) :
    api.view (metaLuaEq api L) = (api.view L).push
      (.boolean (decide ((api.view L).block u = (api.view L).block u'))) := by
  obtain ⟨htype, hptr⟩ := api.userdata_at hu
  obtain ⟨htype', hptr'⟩ := api.userdata_at hu'
  have hne : LuaType.userdata ≠ LuaType.lightuserdata := by decide
  simp only [metaLuaEq, htype, htype', hptr, hptr', api.push_eq, api.peek_eq, hne, ne_eq,
    not_false_eq_true, and_self, if_true, eq_comm]

omit [DecidableEq κ] in
/-- `nil` and light userdata equal nothing. -/
theorem metaLuaEq_nilOrLight {L : σ} {v : LuaValue κ} (hv : NilOrLight v)
    (h : (api.view L).get? (-1) = some v ∨ (api.view L).get? (-2) = some v) :
    api.view (metaLuaEq api L) = (api.view L).push (.boolean false) := by
  have hoperand : ∀ i, (api.view L).get? i = some v →
      api.touserdata L i = none ∨ api.type L i = .lightuserdata := by
    intro i hi
    rcases hv with rfl | ⟨p, rfl⟩
    · left
      rw [api.touserdata_eq, hi]
      rfl
    · right
      rw [api.type_eq, State.typeAt, hi]
      rfl
  simp only [metaLuaEq, api.push_eq]
  congr 2
  rcases h with h | h
  · rcases hoperand _ h with hnone | hlight
    · simp [hnone]
    · cases api.touserdata L (-1) with
      | none => rfl
      | some obj1 =>
          cases api.touserdata L (-2) with
          | none => rfl
          | some obj2 => simp [hlight]
  · rcases hoperand _ h with hnone | hlight
    · rw [hnone]
      cases api.touserdata L (-1) with
      | none => rfl
      | some obj1 => rfl
    · cases api.touserdata L (-1) with
      | none => rfl
      | some obj1 =>
          cases api.touserdata L (-2) with
          | none => rfl
          | some obj2 => simp [hlight]

end Specs

/-! ## Pushed objects -/

/-- The global of a class: its metatable, or nothing yet. -/
def NilOrTable (v : LuaValue κ) : Prop := (∃ t, v = .table t) ∨ v = .nil

theorem Bound.nilOrTable {v : LuaState κ} {c : κ} (h : Bound R v c) :
    NilOrTable (v.global (R.nameOf c)) := by
  obtain ⟨t, _, ht, _⟩ := h
  exact .inl ⟨t, ht⟩

/-- Lua has moved on; full userdata still hold what they held. -/
structure Later (v v' : LuaState κ) : Prop where
  count : v.userdataCount ≤ v'.userdataCount
  block : ∀ u < v.userdataCount, v'.block u = v.block u

/-- **One address for every view**: whatever class an object of run-time
class `D` is pushed through, the new userdata holds the address of its `D`
part. -/
theorem Registry.writeType_canonical {sys : MetaSystem κ} {ord tops : List κ}
    {lay : Layout R} {ids : ObjectIds} (h : Registry R sys ord tops) (hR : R.WellLinked)
    (api : LuaApi κ σ) {S D : κ} (hS : S ∈ R.classes) (hD : R.Listed D)
    (hSo : lay.IsObject S) (hSD : D = S ∨ Ancestor R.parentOf S D) {o : Int}
    (hlive : 0 < lay.part o D) (hid : ids o = sys.metaClassIdOf D) {L : σ}
    (hset : NilOrTable ((api.view L).global (R.nameOf S))) :
    ∃ L', writeType api sys lay ids (sys.self S) (lay.part o S) L = .ok L'
      ∧ api.view L' = { api.view L with
          stack := .userdata (api.view L).userdataCount :: (api.view L).stack
          block := update (api.view L).block (api.view L).userdataCount (lay.part o D)
          metatable := update (api.view L).metatable (api.view L).userdataCount
            ((api.view L).global (R.nameOf S)).table?
          userdataCount := (api.view L).userdataCount + 1 } := by
  have hDS : lay.IsObject D ∧ lay.part o D ≤ lay.part o S := by
    rcases hSD with rfl | hanc
    · exact ⟨hSo, le_refl _⟩
    · exact Layout.part_le_of_ancestor hanc hSo o
  have hne : lay.part o S ≠ 0 := by omega
  have hwritten := h.writtenPointer_eq hR hD hSo hDS.1 (by omega) hid
  rw [h.self_eq S hS]
  obtain ⟨L', hwrite⟩ := writeType_total api sys lay ids (ne_void hSo) hwritten L
  rw [← h.name_eq] at hset
  obtain ⟨a, ha, hview⟩ := writeType_view api sys lay ids hne hset hwrite
  cases ha.symm.trans hwritten
  rw [h.name_eq] at hview
  exact ⟨L', hwrite, hview⟩

/-- Comparing two userdata by `MetaLuaEq`, in either order, answers
`same`. -/
def ComparesAs (api : LuaApi κ σ) (L : σ) (u u' : Nat) (same : Bool) : Prop :=
  ∀ args ∈ [[Value.userdata u, .userdata u'], [.userdata u', .userdata u]],
    api.view (metaLuaEq api (api.enter L args))
      = (api.view (api.enter L args)).push (.boolean same)

omit [DecidableEq κ] in
theorem comparesAs_block (api : LuaApi κ σ) (L : σ) (u u' : Nat) :
    ComparesAs api L u u' (decide ((api.view L).block u = (api.view L).block u')) := by
  intro args hargs
  have hview := api.enter_eq L args
  have hcompare : ∀ x y : Nat, args = [.userdata x, .userdata y] →
      api.view (metaLuaEq api (api.enter L args)) = (api.view (api.enter L args)).push
        (.boolean (decide ((api.view L).block x = (api.view L).block y))) := by
    rintro x y rfl
    have hx : (api.view (api.enter L [.userdata x, .userdata y])).get? (-2)
        = some (.userdata x) := by
      rw [hview]
      rfl
    have hy : (api.view (api.enter L [.userdata x, .userdata y])).get? (-1)
        = some (.userdata y) := by
      rw [hview]
      rfl
    rw [metaLuaEq_userdata api hx hy, hview]
  rcases List.mem_cons.mp hargs with h | h
  · exact hcompare u u' h
  · rw [hcompare u' u (List.mem_singleton.mp h)]
    simp only [eq_comm]

/-- An object pushed through `S`, then one pushed through `S'`, with
anything in between, compare as `same` from then on. -/
def ComparePushed (api : LuaApi κ σ) (sys : MetaSystem κ) (lay : Layout R)
    (ids ids' : ObjectIds) (S S' : κ) (o o' : Int) (same : Bool) : Prop :=
  ∀ L, NilOrTable ((api.view L).global (R.nameOf S)) →
    ∃ L₁, writeType api sys lay ids (sys.self S) (lay.part o S) L = .ok L₁
      ∧ (api.view L₁).stack = .userdata (api.view L).userdataCount :: (api.view L).stack
      ∧ ∀ L₂, Later (api.view L₁) (api.view L₂) →
        NilOrTable ((api.view L₂).global (R.nameOf S')) →
        ∃ L₃, writeType api sys lay ids' (sys.self S') (lay.part o' S') L₂ = .ok L₃
          ∧ (api.view L₃).stack = .userdata (api.view L₂).userdataCount :: (api.view L₂).stack
          ∧ ∀ L₄, Later (api.view L₃) (api.view L₄) →
            ComparesAs api L₄ (api.view L).userdataCount (api.view L₂).userdataCount same

/-- **Lua identity of objects.** On an initialised system, the userdata two
objects were pushed as compare equal, in either order, exactly when they
are one object, whatever classes `S` and `S'` with an `Object` base they
were pushed through; `nil` and light userdata compare equal to nothing. -/
theorem metaLuaEq_iff_same_object (hR : R.WellLinked)
    (hnames : (R.types.map (·.name)).Nodup) {walk : List (MetaPtr κ)} (hw : R.Walk walk)
    {fuel : Nat} (hfuel : R.classes.length ≤ fuel) {sys : MetaSystem κ}
    (hinit : initializeSystem R walk fuel = .ok sys) (api : LuaApi κ σ) (lay : Layout R)
    (ids ids' : ObjectIds) {S S' D D' : κ} (hS : S ∈ R.classes) (hS' : S' ∈ R.classes)
    (hD : D ∈ R.classes) (hD' : D' ∈ R.classes) (hSo : lay.IsObject S)
    (hSo' : lay.IsObject S') (hSD : D = S ∨ Ancestor R.parentOf S D)
    (hSD' : D' = S' ∨ Ancestor R.parentOf S' D') {o o' : Int} (hlive : 0 < lay.part o D)
    (hlive' : 0 < lay.part o' D') (hid : ids o = sys.metaClassIdOf D)
    (hid' : ids' o' = sys.metaClassIdOf D')
    (hdistinct : lay.part o D = lay.part o' D' → (o, D) = (o', D')) :
    ComparePushed api sys lay ids ids' S S' o o' (decide ((o, D) = (o', D')))
      ∧ ∀ L v, NilOrLight v →
        (api.view L).get? (-1) = some v ∨ (api.view L).get? (-2) = some v →
        api.view (metaLuaEq api L) = (api.view L).push (.boolean false) := by
  refine ⟨?_, fun L v hv h => metaLuaEq_nilOrLight api hv h⟩
  obtain ⟨ord, tops, hreg⟩ := initializeSystem_registry hR hw hfuel hinit
  intro L hset
  obtain ⟨L₁, hwrite, hview⟩ := hreg.writeType_canonical hR api hS
    (listed_of_distinct hnames hD) hSo hSD hlive hid hset
  refine ⟨L₁, hwrite, by rw [hview], ?_⟩
  intro L₂ hlater hset'
  obtain ⟨L₃, hwrite', hview'⟩ := hreg.writeType_canonical hR api hS'
    (listed_of_distinct hnames hD') hSo' hSD' hlive' hid' hset'
  refine ⟨L₃, hwrite', by rw [hview'], ?_⟩
  intro L₄ hlater'
  have hblock := congrArg State.block hview
  have hblock' := congrArg State.block hview'
  have hcount := congrArg State.userdataCount hview
  have hcount' := congrArg State.userdataCount hview'
  simp only at hblock hblock' hcount hcount'
  have hfirst := hlater.count
  -- both userdata still hold what `WriteType` put there
  have hu : (api.view L₄).block (api.view L).userdataCount = lay.part o D := by
    rw [hlater'.block _ (by omega), hblock', update_of_ne (by omega),
      hlater.block _ (by omega), hblock, update_self]
  have hu' : (api.view L₄).block (api.view L₂).userdataCount = lay.part o' D' := by
    rw [hlater'.block _ (by omega), hblock', update_self]
  have hsame : lay.part o D = lay.part o' D' ↔ (o, D) = (o', D') := by
    refine ⟨hdistinct, ?_⟩
    intro he
    cases he
    rfl
  have hcompare := comparesAs_block api L₄ (api.view L).userdataCount (api.view L₂).userdataCount
  simp only [hu, hu', hsame] at hcompare
  exact hcompare

/-- A `derived` at 4104 pushed through its `base` part and through its own,
next to a `sprite` whose `Object` is at 8200. -/
theorem metaLuaEq_iff_same_object_sample :
    ∃ sys, initializeSystem sampleProgram sampleWalk 8 = .ok sys
      ∧ ComparePushed Api.reference sys sampleLayout (fun _ => sys.metaClassIdOf .derived)
          (fun _ => sys.metaClassIdOf .derived) .base .derived 4104 4104 true
      ∧ ComparePushed Api.reference sys sampleLayout (fun _ => sys.metaClassIdOf .derived)
          (fun _ => sys.metaClassIdOf .sprite) .base .pod 4104 8200 false := by
  obtain ⟨sys, hsys⟩ := initializeSystem_sample
  have hanc : Ancestor sampleProgram.parentOf .base .derived := .parent (by decide)
  have hanc' : Ancestor sampleProgram.parentOf .pod .sprite := .parent (by decide)
  have hsame := metaLuaEq_iff_same_object sampleProgram_wellLinked sampleProgram_names
    sampleWalk_walk sampleProgram_fuel hsys Api.reference sampleLayout
    (fun _ => sys.metaClassIdOf .derived) (fun _ => sys.metaClassIdOf .derived)
    (S := .base) (D := .derived) (o := 4104)
    (by decide) (by decide : SampleType.derived ∈ _) (by decide) (by decide) (by decide)
    (by decide) (.inr hanc) (.inl rfl) (by decide) (by decide : 0 < sampleLayout.part 4104 _)
    rfl rfl (fun _ => rfl)
  have hother := metaLuaEq_iff_same_object sampleProgram_wellLinked sampleProgram_names
    sampleWalk_walk sampleProgram_fuel hsys Api.reference sampleLayout
    (fun _ => sys.metaClassIdOf .derived) (fun _ => sys.metaClassIdOf .sprite)
    (S := .base) (D := .derived) (o := 4104)
    (by decide) (by decide : SampleType.pod ∈ _) (by decide)
    (by decide : SampleType.sprite ∈ _) (by decide)
    (by decide) (.inr hanc) (.inr hanc') (by decide) (by decide : 0 < sampleLayout.part 8200 _)
    rfl rfl (by decide)
  exact ⟨sys, hsys, hsame.1, hother.1⟩

end SkyEngine.Meta
