import SkyEngine.Meta.Lookup

/-!
# Meta — Functions

The member-function loop of `Initialize`. A function reaches its owner by
type, the owner's container was made in the class loop, which reaches
classes by name; where two classes of one name differ, the loop
dereferences null.
-/

namespace SkyEngine.Meta

open Function
open Forest Position

variable {κ : Type} [DecidableEq κ] {R : Registrations κ}

/-- The copy of a registered function that `Initialize` files. -/
def filedFunction (R : Registrations κ) (self : κ → MetaPtr κ) (it : FunctionRegistration κ) :
    MetaMemberFunction κ where
  name := it.name
  reg := it
  signature := initializeSignature R self it

omit [DecidableEq κ] in
/-- What `m_functions` of a metaclass maps a name to. -/
def functionAt (obj : MetaPtr κ → MetaClass κ) (mc : MetaPtr κ) (n : String) :
    Option (MetaMemberFunction κ) :=
  (obj mc).metaDataContainer.bind (·.functions.lookup n)

/-- The class loop reaches the class: it is listed under its own name, or
above a class that is. -/
def Registrations.Reached (R : Registrations κ) (c : κ) : Prop :=
  ∃ d, R.Listed d ∧ (c = d ∨ Ancestor R.parentOf c d)

/-! ## The loop -/

section Loop

variable {self : κ → MetaPtr κ}

/-- One turn files one function with its owner, whose container it needs. -/
theorem fileFunction_at {obj obj' : MetaPtr κ → MetaClass κ} {it : FunctionRegistration κ}
    (h : fileFunction R self obj it = .ok obj') :
    (obj (self it.owner)).metaDataContainer.isSome = true
      ∧ ∀ mc n, functionAt obj' mc n
        = if mc = self it.owner ∧ n = it.name then some (filedFunction R self it)
          else functionAt obj mc n := by
  simp only [fileFunction, Registrations.mustCall] at h
  by_cases hown : it.owner ∈ R.classes
  · rw [if_pos hown] at h
    cases hdata : (obj (self it.owner)).metaDataContainer with
    | none => simp [hdata] at h
    | some data =>
        simp only [hdata, Except.ok.injEq] at h
        subst h
        refine ⟨rfl, fun mc n => ?_⟩
        by_cases hmc : mc = self it.owner
        · subst hmc
          by_cases hn : n = it.name
          · subst hn
            simp [functionAt, filedFunction]
          · simp [functionAt, hn, hdata, AList.lookup_insert_ne hn]
        · simp [functionAt, hmc]
  · rw [if_neg hown] at h
    cases h

/-- The loop has found every owner's container, and a name goes to the last
function filed under it. -/
theorem foldlM_fileFunction_at (l : List (FunctionRegistration κ))
    {obj obj' : MetaPtr κ → MetaClass κ}
    (h : l.foldlM (fileFunction R self) obj = .ok obj') :
    (∀ it ∈ l, (obj (self it.owner)).metaDataContainer.isSome = true)
      ∧ ∀ mc n, functionAt obj' mc n
        = match (l.filter fun it => mc = self it.owner ∧ n = it.name).getLast? with
          | some it => some (filedFunction R self it)
          | none => functionAt obj mc n := by
  induction l generalizing obj with
  | nil =>
      cases h
      simp
  | cons it rest ih =>
      rw [List.foldlM_cons] at h
      obtain ⟨obj₁, hstep, hrest⟩ := bind_ok h
      obtain ⟨hdata, hat⟩ := fileFunction_at hstep
      obtain ⟨hready, hats⟩ := ih hrest
      constructor
      · intro it' hit'
        rcases List.mem_cons.mp hit' with rfl | hit'
        · exact hdata
        · rw [← (fileFunction_same hstep _).2]
          exact hready it' hit'
      · intro mc n
        rw [hats, List.filter_cons]
        by_cases hp : mc = self it.owner ∧ n = it.name
        · rw [if_pos (by simpa using hp), List.getLast?_cons]
          cases (rest.filter fun it => mc = self it.owner ∧ n = it.name).getLast? with
          | some it' => rfl
          | none => simp [hat, hp]
        · rw [if_neg (by simpa using hp)]
          cases (rest.filter fun it => mc = self it.owner ∧ n = it.name).getLast? with
          | some it' => rfl
          | none => simp [hat, hp]

end Loop

/-! ## `Initialize` -/

/-- Every class's `m_functions` maps a name to the copy of the function
registered with that owner and name, and to nothing if there is none. -/
def FunctionsFiled (R : Registrations κ) (sys : MetaSystem κ) : Prop :=
  ∀ c ∈ R.classes, ∀ n f, functionAt sys.obj (.copy c) n = some f
    ↔ ∃ it ∈ R.functions, it.owner = c ∧ it.name = n ∧ f = filedFunction R sys.self it

/-- With distinct keys the last function of a key is the only one. -/
theorem getLast?_filter_key {l : List (FunctionRegistration κ)}
    (hkeys : (l.map fun it => (it.owner, it.name)).Nodup) {c : κ} {n : String}
    {it : FunctionRegistration κ} :
    (l.filter fun it => c = it.owner ∧ n = it.name).getLast? = some it
      ↔ it ∈ l ∧ it.owner = c ∧ it.name = n := by
  have hmem : ∀ it', it' ∈ (l.filter fun it => c = it.owner ∧ n = it.name)
      ↔ it' ∈ l ∧ it'.owner = c ∧ it'.name = n := by
    intro it'
    simp only [List.mem_filter, decide_eq_true_eq, eq_comm (a := c), eq_comm (a := n)]
  constructor
  · intro hlast
    exact (hmem it).mp (List.mem_of_getLast? hlast)
  · intro hit
    have hne := List.ne_nil_of_mem ((hmem it).mpr hit)
    obtain ⟨it', hlast⟩ := Option.isSome_iff_exists.mp (List.getLast?_isSome.mpr hne)
    obtain ⟨hit', howner, hname⟩ := (hmem it').mp (List.mem_of_getLast? hlast)
    have heq : it' = it := by
      apply List.inj_on_of_nodup_map hkeys hit' hit.1
      rw [howner, hname, hit.2.1, hit.2.2]
    rwa [heq] at hlast

/-- The two loops of a system that came up. -/
theorem initializeSystem_loops (hR : R.WellLinked) {walk : List (MetaPtr κ)} (hw : R.Walk walk)
    {fuel : Nat} (hfuel : R.classes.length ≤ fuel) {sys : MetaSystem κ}
    (hinit : initializeSystem R walk fuel = .ok sys) :
    ∃ s ord tops, Numbered R s ord tops ∧ (∀ c ∈ ord, R.Reached c)
      ∧ (∀ c ∈ R.classes, sys.self c = .copy c)
      ∧ R.functions.foldlM (fileFunction R sys.self) s.obj = .ok sys.obj := by
  obtain ⟨done, st, ord, tops, hloop, hvis, hmem⟩ := classLoop_spec hR hw hfuel
  simp only [initializeSystem] at hinit
  obtain ⟨st', hst, hrest⟩ := bind_ok hinit
  cases hloop.symm.trans hst
  obtain ⟨obj, hfun, hret⟩ := bind_ok hrest
  cases hret
  refine ⟨st.1, ord, tops, hvis.numbered, ?_, fun c hc => copyMetaTypes_self hc, hfun⟩
  intro c hc
  obtain ⟨d, hd, hcd⟩ := hvis.reached c hc
  exact ⟨d, (hmem d).mp hd, hcd⟩

theorem functionsFiled_of_initializeSystem (hR : R.WellLinked) {walk : List (MetaPtr κ)}
    (hw : R.Walk walk) {fuel : Nat} (hfuel : R.classes.length ≤ fuel)
    (hkeys : (R.functions.map fun it => (it.owner, it.name)).Nodup)
    (hown : ∀ it ∈ R.functions, it.owner ∈ R.classes) {sys : MetaSystem κ}
    (hinit : initializeSystem R walk fuel = .ok sys) : FunctionsFiled R sys := by
  obtain ⟨s, ord, tops, hnum, _, hself, hfun⟩ := initializeSystem_loops hR hw hfuel hinit
  obtain ⟨_, hat⟩ := foldlM_fileFunction_at R.functions hfun
  intro c _ n f
  have hempty : functionAt s.obj (.copy c) n = none := by
    rw [functionAt, hnum.container]
    by_cases hc : c ∈ ord
    · simp [hc]
    · simp [hc]
  have hfilter : (R.functions.filter fun it => MetaPtr.copy c = sys.self it.owner ∧ n = it.name)
      = R.functions.filter fun it => c = it.owner ∧ n = it.name := by
    apply List.filter_congr
    intro it hit
    simp only [hself _ (hown it hit), MetaPtr.copy.injEq]
  rw [hat, hfilter, hempty]
  cases hlast : (R.functions.filter fun it => c = it.owner ∧ n = it.name).getLast? with
  | none =>
      simp only [reduceCtorEq, false_iff]
      rintro ⟨it, hit, howner, hname, _⟩
      rw [(getLast?_filter_key hkeys).mpr ⟨hit, howner, hname⟩] at hlast
      cases hlast
  | some it =>
      obtain ⟨hit, howner, hname⟩ := (getLast?_filter_key hkeys).mp hlast
      simp only [Option.some.injEq]
      constructor
      · rintro rfl
        exact ⟨it, hit, howner, hname, rfl⟩
      · rintro ⟨it', hit', howner', hname', rfl⟩
        have hlast' := (getLast?_filter_key hkeys).mpr ⟨hit', howner', hname'⟩
        rw [hlast] at hlast'
        rw [Option.some.inj hlast']

/-- **Where member functions are filed right**: `Initialize` gets through
its function loop and leaves the right tables exactly when the class loop
reaches every owner. -/
theorem initializeSystem_files_iff (hR : R.WellLinked) {walk : List (MetaPtr κ)}
    (hw : R.Walk walk) {fuel : Nat} (hfuel : R.classes.length ≤ fuel)
    (hown : ∀ it ∈ R.functions, it.owner ∈ R.classes)
    (hkeys : (R.functions.map fun it => (it.owner, it.name)).Nodup) :
    (∃ sys, initializeSystem R walk fuel = .ok sys ∧ FunctionsFiled R sys)
      ↔ ∀ it ∈ R.functions, R.Reached it.owner := by
  constructor
  · rintro ⟨sys, hinit, _⟩ it hit
    obtain ⟨s, ord, tops, hnum, hreached, hself, hfun⟩ :=
      initializeSystem_loops hR hw hfuel hinit
    have hdata := (foldlM_fileFunction_at R.functions hfun).1 it hit
    rw [hself _ (hown it hit), hnum.container] at hdata
    apply hreached
    by_contra hord
    rw [if_neg hord] at hdata
    cases hdata
  · intro hreached
    obtain ⟨sys, hinit⟩ := initializeSystem_total hR hw hfuel hreached
    exact ⟨sys, hinit, functionsFiled_of_initializeSystem hR hw hfuel hkeys hown hinit⟩

/-! ## At the sample -/

/-- The sample's two functions are filed with `MetaTestBase`. -/
theorem initializeSystem_files_iff_sample :
    ∃ sys, initializeSystem sampleProgram sampleWalk 8 = .ok sys
      ∧ FunctionsFiled sampleProgram sys := by
  have h := initializeSystem_files_iff sampleProgram_wellLinked sampleWalk_walk
    sampleProgram_fuel (by decide) (by decide)
  have hown : ∀ it ∈ sampleProgram.functions, it.owner = .base := by decide
  exact h.mpr fun it hit => ⟨.base, by decide, .inl (hown it hit)⟩

inductive TwinType where
  | void | metaSystem | widget | otherWidget
  deriving DecidableEq, Repr

/-- Two translation units with a class `Widget` each; the second registers a
member function of its own. -/
def twinProgram : Registrations TwinType where
  types :=
    [⟨.otherWidget, "Widget", .cls none⟩, ⟨.widget, "Widget", .cls none⟩,
     ⟨.metaSystem, "MetaSystemExample", .cls none⟩, ⟨.void, "void", .cls none⟩]
  functions := [⟨"Draw", .otherWidget, none, []⟩]
  voidType := .void
  systemType := .metaSystem
  type_nodup := by decide
  void_mem := by decide
  system_mem := by decide

def twinWalk : List (MetaPtr TwinType) :=
  twinProgram.copyMetaTypes.metaClasses.entries.map (·.2)

theorem twinProgram_wellLinked : twinProgram.WellLinked where
  parent_mem := by
    intro c p
    cases c <;> simp [Registrations.parentOf, twinProgram, Registrations.find,
      Registration.metaType, MetaClass.parent]
  acyclic := acyclic_of_rank (fun _ => 0) fun c p => by
    cases c <;> simp [Registrations.parentOf, twinProgram, Registrations.find,
      Registration.metaType, MetaClass.parent]
  count := by decide

/-- `m_metaClasses` keeps one `Widget`; the other has no container when its
function is filed. -/
theorem twinProgram_crashes :
    twinProgram.WellLinked ∧ twinProgram.Walk twinWalk
      ∧ (∀ it ∈ twinProgram.functions, it.owner ∈ twinProgram.classes)
      ∧ (twinProgram.functions.map fun it => (it.owner, it.name)).Nodup
      ∧ initializeSystem twinProgram twinWalk 4 = .error .nullDeref :=
  ⟨twinProgram_wellLinked, List.Perm.refl _, by decide, by decide, rfl⟩

end SkyEngine.Meta
