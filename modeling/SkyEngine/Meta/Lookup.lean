import SkyEngine.Meta.Registry

/-!
# Meta — Lookup

Reading an initialised system: class ids, `GetMetaClassById`,
`GetMetaClassByName`, and ancestry as it can be read off topology ids.
`RegistryInvariant` collects what a caller may rely on when class names
are distinct.
-/

namespace SkyEngine.Meta

open Function
open Forest Position

variable {κ : Type} [DecidableEq κ] {R : Registrations κ}

namespace Registry

variable {sys : MetaSystem κ} {ord tops : List κ}

/-! ## Ids -/

theorem metaClassIdOf (h : Registry R sys ord tops) {c : κ} (hc : c ∈ R.classes) :
    sys.metaClassIdOf c = position ord c := by
  rw [MetaSystem.metaClassIdOf, h.self_eq c hc, h.id_eq]

theorem length_le (h : Registry R sys ord tops) : ord.length ≤ R.classes.length :=
  (List.subperm_of_subset h.ord_nodup h.ord_sub).length_le

/-- The id of a numbered class is an index of `m_classes`. -/
theorem id_range (h : Registry R sys ord tops) (hR : R.WellLinked) {c : κ} (hc : c ∈ ord) :
    0 ≤ position ord c ∧ position ord c < kMaxClasses := by
  have hrange := position_range hc
  have hlen := h.length_le
  have hcount := hR.count
  omega

/-- **`GetMetaClassById`** finds a listed class under its id. -/
theorem getMetaClassById (h : Registry R sys ord tops) (hR : R.WellLinked) {c : κ}
    (hc : R.Listed c) : sys.getMetaClassById (position ord c) = .ok (.copy c) := by
  have hrange := h.id_range hR (h.listed_sub c hc)
  rw [MetaSystem.getMetaClassById, dif_pos hrange]
  congr 1
  apply h.filed c hc
  show ((position ord c).toNat : Int) = _
  omega

/-- The id of a class other than `void` leads back to it only if the class
is listed: the slot of any other numbered class still holds `void`. -/
theorem getMetaClassById_iff (h : Registry R sys ord tops) (hR : R.WellLinked) {c : κ}
    (hc : c ∈ R.classes) (hv : c ≠ R.voidType) :
    sys.getMetaClassById (sys.metaClassIdOf c) = .ok (.copy c) ↔ R.Listed c := by
  rw [h.metaClassIdOf hc]
  constructor
  · intro hlook
    by_contra hnot
    rw [MetaSystem.getMetaClassById] at hlook
    split at hlook
    · rename_i hrange
      rw [h.unfiled] at hlook
      · cases hlook
        exact hv rfl
      · intro d hd hid
        have hpos : position ord d = position ord c := by
          rw [← hid]
          show ((position ord c).toNat : Int) = _
          omega
        exact hnot (position_inj (h.listed_sub d hd) hpos ▸ hd)
    · cases hlook
  · exact fun hl => h.getMetaClassById hR hl

theorem getMetaClassByName (h : Registry R sys ord tops) (n : String) :
    sys.getMetaClassByName n = (R.byName n).map .copy := h.lookup n

/-- Numbered classes are closed under parents. -/
theorem ancestor_mem (h : Registry R sys ord tops) (hR : R.WellLinked) {a c : κ}
    (hc : c ∈ ord) (hac : Ancestor R.parentOf a c) : a ∈ ord ∧ a ∈ tops := by
  obtain ⟨l, hl⟩ := hR.exists_lineage (h.ord_sub c hc)
  exact h.lineage_sub hl hc a (hl.mem_iff.mpr hac)

theorem topo_lt_of_ancestor (h : Registry R sys ord tops) (hR : R.WellLinked) {a c : κ}
    (hc : c ∈ tops) (hac : Ancestor R.parentOf a c) : position tops a < position tops c := by
  induction hac with
  | single hb => exact h.topo_lt _ hc _ hb
  | tail _ hbc ih =>
      have hb := h.ancestor_mem hR (h.tops_sub _ hc) (.parent hbc)
      exact (ih hb.2).trans (h.topo_lt _ hc _ hbc)

/-! ## Ancestry in the topology lists -/

/-- **What the base list says**: the topology id of `a` is on the list of
`c` exactly when `a` has one and is `c` or above it. -/
theorem topoOrder_mem_bases (h : Registry R sys ord tops) (hR : R.WellLinked) {a c : κ}
    (hc : c ∈ ord) (ha : a ∈ tops) :
    (sys.obj (.copy a)).topoOrder ∈ (sys.obj (.copy c)).baseTopoIdList
      ↔ a = c ∨ Ancestor R.parentOf a c := by
  obtain ⟨l, hl⟩ := hR.exists_lineage (h.ord_sub c hc)
  rw [h.topo_eq, h.bases c hc l hl, List.mem_map]
  constructor
  · rintro ⟨b, hb, hba⟩
    have hab : a = b := position_inj ha hba.symm
    subst hab
    by_cases hct : c ∈ tops
    · rw [if_pos hct] at hb
      rcases List.mem_append.mp hb with hb | hb
      · exact .inr (hl.mem_iff.mp hb)
      · exact .inl (List.mem_singleton.mp hb)
    · rw [if_neg hct] at hb
      exact .inr (hl.mem_iff.mp hb)
  · rintro (rfl | hac)
    · exact ⟨a, by simp [ha], rfl⟩
    · have hal := hl.mem_iff.mpr hac
      refine ⟨a, ?_, rfl⟩
      by_cases hct : c ∈ tops
      · rw [if_pos hct]
        exact List.mem_append_left _ hal
      · rwa [if_neg hct]

/-- A class without a topology id is above no numbered class. -/
theorem not_ancestor_of_topoOrder (h : Registry R sys ord tops) (hR : R.WellLinked) {a c : κ}
    (hc : c ∈ ord) (ha : (sys.obj (.copy a)).topoOrder = -1) : ¬ Ancestor R.parentOf a c := by
  rw [h.topo_eq, position_eq_neg_one] at ha
  exact fun hac => ha (h.ancestor_mem hR hc hac).2

end Registry

/-! ## Distinct names -/

/-- What holds after `Initialize` when no two types share a name: global
ids number all classes parents-first, the three lookups agree on the
active copies, topology ids number the parents top-down, and the base list
of a class spells out its ancestors, itself included if it is a parent. -/
structure RegistryInvariant (R : Registrations κ) (sys : MetaSystem κ) : Prop where
  id_range : ∀ c ∈ R.classes,
    0 ≤ sys.metaClassIdOf c ∧ sys.metaClassIdOf c < R.classes.length
  id_inj : ∀ c ∈ R.classes, ∀ d ∈ R.classes, sys.metaClassIdOf c = sys.metaClassIdOf d → c = d
  id_used : ∀ i : Int, 0 ≤ i → i < R.classes.length → ∃ c ∈ R.classes, sys.metaClassIdOf c = i
  id_parent : ∀ c p, R.parentOf c = some p → sys.metaClassIdOf p < sys.metaClassIdOf c
  slot : ∀ c ∈ R.classes, ∀ i : Fin kMaxClasses, (i : Int) = sys.metaClassIdOf c →
    sys.classes i = .copy c
  slot_void : ∀ i : Fin kMaxClasses, (∀ c ∈ R.classes, (i : Int) ≠ sys.metaClassIdOf c) →
    sys.classes i = .copy R.voidType
  by_id : ∀ c ∈ R.classes, sys.getMetaClassById (sys.metaClassIdOf c) = .ok (.copy c)
  by_name : ∀ c ∈ R.classes, sys.getMetaClassByName (R.nameOf c) = some (.copy c)
  by_type : ∀ c ∈ R.classes, R.mustCall sys.self c = some (.copy c)
  by_name_none : ∀ n, (∀ c ∈ R.classes, R.nameOf c ≠ n) → sys.getMetaClassByName n = none
  topo_iff : ∀ c ∈ R.classes,
    (sys.obj (.copy c)).topoOrder ≠ -1 ↔ ∃ b ∈ R.classes, R.parentOf b = some c
  topo_inj : ∀ c ∈ R.classes, ∀ d ∈ R.classes, (sys.obj (.copy c)).topoOrder ≠ -1 →
    (sys.obj (.copy c)).topoOrder = (sys.obj (.copy d)).topoOrder → c = d
  topo_used : ∃ k : Nat, ∀ i : Int, (0 ≤ i ∧ i < k)
    ↔ ∃ c ∈ R.classes, (sys.obj (.copy c)).topoOrder = i ∧ i ≠ -1
  topo_lt : ∀ a c, Ancestor R.parentOf a c → (sys.obj (.copy c)).topoOrder ≠ -1 →
    (sys.obj (.copy a)).topoOrder < (sys.obj (.copy c)).topoOrder
  bases : ∀ c ∈ R.classes, ∃ l, Lineage R.parentOf c l
    ∧ (sys.obj (.copy c)).baseTopoIdList
      = (if (sys.obj (.copy c)).topoOrder ≠ -1 then l ++ [c] else l).map
          fun a => (sys.obj (.copy a)).topoOrder

theorem Registry.invariant {sys : MetaSystem κ} {ord tops : List κ}
    (h : Registry R sys ord tops) (hR : R.WellLinked)
    (hnames : (R.types.map (·.name)).Nodup) : RegistryInvariant R sys := by
  have hlisted : ∀ c ∈ R.classes, R.Listed c := fun c hc => listed_of_distinct hnames hc
  have hord : ∀ c ∈ R.classes, c ∈ ord := fun c hc => h.listed_sub c (hlisted c hc)
  have hid : ∀ c ∈ R.classes, sys.metaClassIdOf c = position ord c :=
    fun c hc => h.metaClassIdOf hc
  have hlen : ord.length = R.classes.length := by
    have hle := (List.subperm_of_subset R.classes_nodup hord).length_le
    have hge := h.length_le
    omega
  have htopo : ∀ c, (sys.obj (.copy c)).topoOrder ≠ -1 ↔ c ∈ tops := by
    intro c
    rw [h.topo_eq, ne_eq, position_eq_neg_one, not_not]
  constructor
  case id_range =>
    intro c hc
    rw [hid c hc, ← hlen]
    exact position_range (hord c hc)
  case id_inj =>
    intro c hc d hd hcd
    rw [hid c hc, hid d hd] at hcd
    exact position_inj (hord c hc) hcd
  case id_used =>
    intro i h0 hi
    rw [← hlen] at hi
    obtain ⟨c, hc, hci⟩ := exists_position h.ord_nodup h0 hi
    have hcc := h.ord_sub c hc
    exact ⟨c, hcc, by rw [hid c hcc, hci]⟩
  case id_parent =>
    intro c p hp
    have hc := Registrations.mem_classes_of_parentOf hp
    rw [hid c hc, hid p (hR.parent_mem c p hp)]
    exact (h.parent_lt c (hord c hc) p hp).2
  case slot =>
    intro c hc i hi
    rw [hid c hc] at hi
    exact h.filed c (hlisted c hc) i hi
  case slot_void =>
    intro i hi
    refine h.unfiled i fun c hc => ?_
    rw [← hid c hc.mem_classes]
    exact hi c hc.mem_classes
  case by_id =>
    intro c hc
    rw [hid c hc]
    exact h.getMetaClassById hR (hlisted c hc)
  case by_name =>
    intro c hc
    rw [h.getMetaClassByName, hlisted c hc]
    rfl
  case by_type =>
    intro c hc
    rw [Registrations.mustCall, if_pos hc, h.self_eq c hc]
  case by_name_none =>
    intro n hn
    rw [h.getMetaClassByName]
    cases hb : R.byName n with
    | none => rfl
    | some c => exact absurd (byName_some hb).2 (hn c (byName_some hb).1)
  case topo_iff =>
    intro c _
    rw [htopo, h.tops_iff]
    constructor
    · rintro ⟨b, hb, hbc⟩
      exact ⟨b, h.ord_sub b hb, hbc⟩
    · rintro ⟨b, hb, hbc⟩
      exact ⟨b, hord b hb, hbc⟩
  case topo_inj =>
    intro c _ d _ hc hcd
    rw [h.topo_eq, h.topo_eq] at hcd
    exact position_inj ((htopo c).mp hc) hcd
  case topo_used =>
    refine ⟨tops.length, fun i => ⟨fun hi => ?_, ?_⟩⟩
    · obtain ⟨c, hc, hci⟩ := exists_position h.tops_nodup hi.1 hi.2
      refine ⟨c, h.ord_sub c (h.tops_sub c hc), by rw [h.topo_eq, hci], by omega⟩
    · rintro ⟨c, _, rfl, hc⟩
      have hrange := position_range ((htopo c).mp hc)
      rw [h.topo_eq]
      exact hrange
  case topo_lt =>
    intro a c hac hc
    rw [h.topo_eq, h.topo_eq]
    exact h.topo_lt_of_ancestor hR ((htopo c).mp hc) hac
  case bases =>
    intro c hc
    obtain ⟨l, hl⟩ := hR.exists_lineage hc
    refine ⟨l, hl, ?_⟩
    rw [h.bases c (hord c hc) l hl]
    have hfun : (fun a => (sys.obj (.copy a)).topoOrder) = position tops := funext h.topo_eq
    simp only [htopo, hfun]

/-- **The registry invariant.** Distinct names, acyclic parent links to
registered classes and at most `kMaxClasses` classes are enough: for every
walk of `m_metaClasses`, `Initialize` returns as soon as member functions
belong to registered classes, and whenever it returns the invariant holds. -/
theorem initializeSystem_invariant (R : Registrations κ) (hR : R.WellLinked)
    (hnames : (R.types.map (·.name)).Nodup) {walk : List (MetaPtr κ)} (hw : R.Walk walk)
    {fuel : Nat} (hfuel : R.classes.length ≤ fuel) :
    ((∀ it ∈ R.functions, it.owner ∈ R.classes) →
        ∃ sys, initializeSystem R walk fuel = .ok sys)
      ∧ ∀ sys, initializeSystem R walk fuel = .ok sys → RegistryInvariant R sys := by
  constructor
  · intro hown
    refine initializeSystem_total hR hw hfuel fun it hit => ?_
    exact ⟨it.owner, listed_of_distinct hnames (hown it hit), .inl rfl⟩
  · intro sys h
    obtain ⟨ord, tops, hreg⟩ := initializeSystem_registry hR hw hfuel h
    exact hreg.invariant hR hnames

/-! ## A sample program -/

/-- The types of a small program, after `MetaTest.cpp`: `base` and its
child `derived` are polymorphic, `pod` is not but its child `sprite` is. -/
inductive SampleType where
  | void | int32 | metaSystem | object | heap | base | derived | pod | sprite
  deriving DecidableEq, Repr

def sampleProgram : Registrations SampleType where
  types :=
    [⟨.sprite, "Sprite", .cls (some .pod)⟩, ⟨.pod, "MetaTestPod", .cls none⟩,
     ⟨.derived, "MetaTestDerived", .cls (some .base)⟩, ⟨.base, "MetaTestBase", .cls none⟩,
     ⟨.heap, "Heap", .cls none⟩, ⟨.metaSystem, "MetaSystemExample", .cls none⟩,
     ⟨.object, "Object", .cls none⟩, ⟨.void, "void", .cls none⟩, ⟨.int32, "int32_t", .plain⟩]
  functions := [⟨"SetHealth", .base, none, [.int32]⟩, ⟨"GetHealth", .base, some .int32, []⟩]
  voidType := .void
  systemType := .metaSystem
  type_nodup := by decide
  void_mem := by decide
  system_mem := by decide

/-- One walk of the sample's `m_metaClasses`. -/
def sampleWalk : List (MetaPtr SampleType) :=
  sampleProgram.copyMetaTypes.metaClasses.entries.map (·.2)

theorem sampleWalk_walk : sampleProgram.Walk sampleWalk := List.Perm.refl _

theorem sampleProgram_wellLinked : sampleProgram.WellLinked where
  parent_mem := by
    intro c p hp
    cases c <;> revert p <;> decide
  acyclic := by
    let rank : SampleType → Nat := fun c => if sampleProgram.parentOf c = none then 0 else 1
    refine acyclic_of_rank rank fun c p hp => ?_
    cases c <;> revert p <;> decide
  count := by decide

theorem sampleProgram_fuel : sampleProgram.classes.length ≤ 8 := by decide

theorem sampleProgram_names : (sampleProgram.types.map (·.name)).Nodup := by decide

theorem initializeSystem_invariant_sample :
    (∃ sys, initializeSystem sampleProgram sampleWalk 8 = .ok sys)
      ∧ ∀ sys, initializeSystem sampleProgram sampleWalk 8 = .ok sys →
        RegistryInvariant sampleProgram sys := by
  have h := initializeSystem_invariant sampleProgram sampleProgram_wellLinked
    sampleProgram_names sampleWalk_walk sampleProgram_fuel
  exact ⟨h.1 (by decide), h.2⟩

/-- The sample program comes up. -/
theorem initializeSystem_sample :
    ∃ sys, initializeSystem sampleProgram sampleWalk 8 = .ok sys := by
  refine initializeSystem_total sampleProgram_wellLinked sampleWalk_walk (by decide) ?_
  have hown : ∀ it ∈ sampleProgram.functions, it.owner = .base := by decide
  exact fun it hit => ⟨.base, by decide, .inl (hown it hit)⟩

/-- The sample program comes up as a registry. -/
theorem sampleProgram_registry :
    ∃ sys, initializeSystem sampleProgram sampleWalk 8 = .ok sys
      ∧ ∃ ord tops, Registry sampleProgram sys ord tops := by
  obtain ⟨sys, hsys⟩ := initializeSystem_sample
  exact ⟨sys, hsys, initializeSystem_registry sampleProgram_wellLinked sampleWalk_walk
    sampleProgram_fuel hsys⟩

/-- A parent's list is not just its proper ancestors: `base` has none, but
its list holds its own topology id. -/
theorem baseTopoIdList_base_sample :
    sampleProgram.WellLinked ∧ (sampleProgram.types.map (·.name)).Nodup
      ∧ sampleProgram.Walk sampleWalk
      ∧ ∃ sys, initializeSystem sampleProgram sampleWalk 8 = .ok sys
        ∧ ∃ c ∈ sampleProgram.classes, ∃ l, Lineage sampleProgram.parentOf c l
          ∧ (sys.obj (.copy c)).baseTopoIdList
            ≠ l.map fun a => (sys.obj (.copy a)).topoOrder := by
  obtain ⟨sys, hsys⟩ := initializeSystem_sample
  refine ⟨sampleProgram_wellLinked, sampleProgram_names, sampleWalk_walk, sys, hsys, .base,
    by decide, [], .root (by decide), ?_⟩
  have hbases : (initializeSystem sampleProgram sampleWalk 8).toOption.map
      (fun sys => (sys.obj (.copy .base)).baseTopoIdList.length) = some 1 := by decide
  intro he
  rw [hsys] at hbases
  simp [Except.toOption, he] at hbases

end SkyEngine.Meta
