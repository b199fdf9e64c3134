import SkyEngine.Meta.ReadWrite

/-!
# Meta — TypeCheck

When `ReadType` lets a labelled userdata through. The loop that should
look for the expected class among the bases of the label looks through the
expected class's own list instead, and a class with a topology id is always
on its own list. So the check only asks whether the expected class has a
child, and it agrees with ancestry exactly where that makes no difference.
-/

namespace SkyEngine.Meta

open Function
open Forest Position Lua

variable {κ σ : Type} [DecidableEq κ] {R : Registrations κ}

namespace Registry

variable {sys : MetaSystem κ} {ord tops : List κ}

/-- **The check as it is**: the label is the expected class, or the
expected class has a child at all. -/
theorem acceptsClass_iff (h : Registry R sys ord tops) (hR : R.WellLinked) {T M : κ} :
    acceptsClass sys (.copy T) (.copy M) = true ↔ T = M ∨ T ∈ tops := by
  unfold acceptsClass
  by_cases hTM : T = M
  · simp [hTM]
  · have hne : ¬ (MetaPtr.copy M) = .copy T := by
      intro he
      cases he
      exact hTM rfl
    rw [if_neg hne]
    by_cases htopo : (sys.obj (.copy T)).topoOrder = -1
    · have hT : T ∉ tops := by simpa [h.topo_eq] using htopo
      simp [htopo, hTM, hT]
    · have hT : T ∈ tops := by simpa [h.topo_eq] using htopo
      have hself := (h.topoOrder_mem_bases hR (h.tops_sub T hT) hT).mpr (.inl rfl)
      simp [htopo, hself, hT]

end Registry

/-! ## The stack -/

/-- **No trace in Lua**: whatever value is read, with or without an error,
the Lua state is left as it was, stack included. -/
theorem readType_view (api : LuaApi κ σ) (sys : MetaSystem κ) (lay : Layout R)
    (ids : ObjectIds) (this : MetaPtr κ) (L : σ) (index object : Int) {r : ReadResult σ}
    (h : readType api sys lay ids this L index object = .ok r) :
    api.view r.state = api.view L := by
  simp only [readType] at h
  split at h
  · cases h
    rfl
  · split at h
    · cases h
      rfl
    · split at h
      · cases h
        rfl
      · rename_i L₁ hmeta
        obtain ⟨t, h₁⟩ := api.getmetatable_pushes _ _ _ hmeta
        have h₃ := (api.metafield h₁ "__metaclass").2
        split at h
        · cases h
          exact h₃
        · split at h
          · obtain ⟨a, _, ha⟩ := bind_ok h
            cases ha
            exact h₃
          · cases h
            exact h₃
        · cases h

/-! ## What the error message promises -/

/-- What the error text promises about reading a userdata labelled `M` as
a `T`: the cast of the stored pointer when `T` is `M` or above it, and
otherwise the error with `*object` untouched. -/
def ReadsAsExpected (api : LuaApi κ σ) (sys : MetaSystem κ) (lay : Layout R)
    (ids : ObjectIds) (T M : κ) (L : σ) (index : Int) (u : Nat) (object : Int) : Prop :=
  (T = M ∨ Ancestor R.parentOf T M → ∃ L', api.view L' = api.view L
      ∧ readType api sys lay ids (sys.self T) L index object
        = (dynamicCast sys lay ids (sys.self T) ((api.view L).block u) (sys.self M)).map
            fun result => ⟨L', result, none⟩)
    ∧ (¬ (T = M ∨ Ancestor R.parentOf T M) → ∃ L',
      readType api sys lay ids (sys.self T) L index object
        = .ok ⟨L', object, some (expectedMessage (R.nameOf T) (R.nameOf M))⟩)

/-- **Where the type check is right**, on any initialised system: exactly
when `T` has no registered child, or `T` is `M`, or `T` is above `M`. The
stack comes back unchanged from every call without an error. -/
theorem readType_correct_iff (hR : R.WellLinked) (hnames : (R.types.map (·.name)).Nodup)
    {walk : List (MetaPtr κ)} (hw : R.Walk walk) {fuel : Nat}
    (hfuel : R.classes.length ≤ fuel) {sys : MetaSystem κ}
    (hinit : initializeSystem R walk fuel = .ok sys) (api : LuaApi κ σ) (lay : Layout R)
    (ids : ObjectIds) {T M : κ} (hT : T ∈ R.classes) (hM : M ∈ R.classes) {L : σ}
    {index : Int} {u : Nat} (hu : (api.view L).get? index = some (.userdata u))
    (hlabel : Labelled (api.view L) u M) (object : Int) :
    (ReadsAsExpected api sys lay ids T M L index u object
        ↔ (∀ c, R.parentOf c ≠ some T) ∨ T = M ∨ Ancestor R.parentOf T M)
      ∧ ∀ r, readType api sys lay ids (sys.self T) L index object = .ok r →
        r.error = none → (api.view r.state).stack.length = (api.view L).stack.length := by
  obtain ⟨ord, tops, hreg⟩ := initializeSystem_registry hR hw hfuel hinit
  refine ⟨?_, fun r hr _ => by rw [readType_view api sys lay ids _ _ _ _ hr]⟩
  obtain ⟨L', hview, hread⟩ := readType_spec api sys lay ids (.copy T) hu hlabel object
  have htops := hreg.mem_tops_iff hnames T
  unfold ReadsAsExpected
  rw [hreg.self_eq T hT, hreg.self_eq M hM]
  rw [hreg.name_eq, hreg.name_eq] at hread
  have hacc := hreg.acceptsClass_iff hR (T := T) (M := M)
  by_cases hright : T = M ∨ Ancestor R.parentOf T M
  · have hyes : acceptsClass sys (.copy T) (.copy M) = true := by
      rw [hacc]
      refine hright.imp id fun hanc => ?_
      exact htops.mpr hanc.exists_child
    rw [if_pos hyes] at hread
    constructor
    · intro _
      exact .inr hright
    · intro _
      exact ⟨fun _ => ⟨L', hview, hread⟩, fun hno => absurd hright hno⟩
  · by_cases hchild : ∃ c, R.parentOf c = some T
    · -- the wrong acceptance: no error is raised, whatever the cast does
      have hyes : acceptsClass sys (.copy T) (.copy M) = true :=
        hacc.mpr (.inr (htops.mpr hchild))
      rw [if_pos hyes] at hread
      constructor
      · intro hread'
        obtain ⟨L'', herr⟩ := hread'.2 hright
        rw [hread] at herr
        cases hcast : dynamicCast sys lay ids (.copy T) ((api.view L).block u) (.copy M) with
        | error e => simp [hcast, Except.map] at herr
        | ok r => simp [hcast, Except.map] at herr
      · rintro (hnone | hyes')
        · obtain ⟨c, hc⟩ := hchild
          exact absurd hc (hnone c)
        · exact absurd hyes' hright
    · have hno : ¬ acceptsClass sys (.copy T) (.copy M) = true := by
        rw [hacc, htops]
        rintro (he | hc)
        · exact hright (.inl he)
        · exact hchild hc
      rw [if_neg hno] at hread
      constructor
      · intro _
        refine .inl fun c hc => ?_
        exact hchild ⟨c, hc⟩
      · intro _
        exact ⟨fun hyes => absurd hyes hright, fun _ => ⟨L', hread⟩⟩

/-! ## At the sample -/

/-- A Lua state whose one value is a userdata holding `a`, labelled `c`. -/
def sampleUserdata (a : Int) (c : SampleType) : LuaState SampleType :=
  { State.empty with
    stack := [.userdata 0]
    block := fun _ => a
    metatable := fun _ => some 0
    field := fun _ _ => .lightuserdata (.metaClass (.copy c))
    userdataCount := 1
    tableCount := 1 }

theorem sampleUserdata_labelled (a : Int) (c : SampleType) :
    Labelled (sampleUserdata a c) 0 c := ⟨0, rfl, rfl⟩

theorem sampleUserdata_get (a : Int) (c : SampleType) :
    (Api.reference.view (sampleUserdata a c)).get? 1 = some (.userdata 0) := rfl

theorem not_ancestor_base_pod : ¬ Ancestor sampleProgram.parentOf .base .pod :=
  not_ancestor_of_root (by decide)

/-- Reading a `derived` as its base. -/
theorem readType_correct_iff_sample :
    ∃ sys, initializeSystem sampleProgram sampleWalk 8 = .ok sys
      ∧ ReadsAsExpected Api.reference sys sampleLayout (fun _ => sys.metaClassIdOf .derived)
          .base .derived (sampleUserdata 4096 .derived) 1 0 7 := by
  obtain ⟨sys, hsys⟩ := initializeSystem_sample
  have h := readType_correct_iff sampleProgram_wellLinked sampleProgram_names sampleWalk_walk
    sampleProgram_fuel hsys Api.reference sampleLayout (fun _ => sys.metaClassIdOf .derived)
    (T := .base) (M := .derived) (by decide) (by decide) (sampleUserdata_get 4096 .derived)
    (sampleUserdata_labelled 4096 .derived) 7
  exact ⟨sys, hsys, h.1.mpr (.inr (.inr (.parent (by decide))))⟩

/-- A `MetaTestPod` passes for a `MetaTestBase`: no error, and a null is
stored over the caller's pointer. -/
theorem readType_pod_as_base_sample :
    ∃ sys, initializeSystem sampleProgram sampleWalk 8 = .ok sys
      ∧ ¬ (SampleType.base = .pod ∨ Ancestor sampleProgram.parentOf .base .pod)
      ∧ ∃ r, readType Api.reference sys sampleLayout (fun _ => sys.metaClassIdOf .pod)
          (sys.self .base) (sampleUserdata 4096 .pod) 1 7 = .ok r
        ∧ r.error = none ∧ r.object = 0 := by
  obtain ⟨sys, hsys, ord, tops, hreg⟩ := sampleProgram_registry
  have hR := sampleProgram_wellLinked
  have hlisted : ∀ c ∈ sampleProgram.classes, sampleProgram.Listed c :=
    fun c hc => listed_of_distinct sampleProgram_names hc
  have hnot : ¬ (SampleType.base = .pod ∨ Ancestor sampleProgram.parentOf .base .pod) := by
    rintro (he | hanc)
    · cases he
    · exact not_ancestor_base_pod hanc
  have htops : SampleType.base ∈ tops := (hreg.tops_iff _).mpr
    ⟨.derived, hreg.listed_sub _ (hlisted _ (by decide)), by decide⟩
  have hacc : acceptsClass sys (sys.self .base) (.copy .pod) = true := by
    rw [hreg.self_eq .base (by decide)]
    exact (hreg.acceptsClass_iff hR).mpr (.inr htops)
  classical
  have hcast : dynamicCast sys sampleLayout (fun _ => sys.metaClassIdOf .pod)
      (sys.self .base) (sampleLayout.part 4096 .pod) (sys.self .pod)
        = .ok (if SampleType.base = .pod ∨ Ancestor sampleProgram.parentOf .base .pod then
            sampleLayout.part 4096 .base else 0) :=
    hreg.dynamicCast_eq hR (by decide) (by decide) (hlisted _ (by decide)) (.inl rfl)
      (by decide) (by decide) (by decide) rfl
  rw [if_neg hnot, hreg.self_eq .pod (by decide)] at hcast
  obtain ⟨L', _, hread⟩ := readType_spec Api.reference sys sampleLayout
    (fun _ => sys.metaClassIdOf .pod) (sys.self .base) (sampleUserdata_get 4096 .pod)
    (sampleUserdata_labelled 4096 .pod) 7
  rw [if_pos hacc] at hread
  refine ⟨sys, hsys, hnot, ⟨L', 0, none⟩, ?_, rfl, rfl⟩
  rw [hread]
  have hblock : (Api.reference.view (sampleUserdata 4096 .pod)).block 0
      = sampleLayout.part 4096 .pod := rfl
  rw [hblock, hcast]
  rfl

end SkyEngine.Meta
