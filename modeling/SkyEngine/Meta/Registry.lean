import SkyEngine.Meta.Numbering

/-!
# Meta — Registry

What `MetaSystemExample::Initialize` leaves behind, for every registration
list and every walk of `m_metaClasses`: first each loop on its own (the
copies and name tables, the classes, the member functions), then the
`Registry` predicate they add up to, which is all the rest of the
development knows about an initialised system.

Names may repeat across translation units, so "the class listed under its
own name" (`Listed`) is a notion of its own: the copy loop runs newest
first and a later insertion replaces an earlier one, so the oldest
registration of a name is the one the table keeps and the loop visits.
-/

namespace SkyEngine.Meta

open Function
open Forest Position

variable {κ : Type}

/-- The class `m_metaClasses` holds under a name. -/
def Registrations.byName (R : Registrations κ) (n : String) : Option κ :=
  ((R.types.filter fun r => r.metaType.isClass && r.name == n).getLast?).map (·.type)

variable [DecidableEq κ] {R : Registrations κ}

/-- The class is the one listed under its own name. -/
def Registrations.Listed (R : Registrations κ) (c : κ) : Prop :=
  R.byName (R.nameOf c) = some c

instance (c : κ) : Decidable (R.Listed c) :=
  inferInstanceAs (Decidable (R.byName (R.nameOf c) = some c))

/-! ## The copy loop -/

theorem statics_original {r : Registration κ} (hr : r ∈ R.types) :
    R.statics.obj (.original r.type) = r.metaType := by
  simp [Registrations.statics, Registrations.find_of_mem hr]

/-- The static objects are only read: `SetActive` aside, nothing is written
to them. -/
theorem copyMetaType_original (d : MetaData κ) (r : Registration κ) (c : κ) :
    (copyMetaType d r).obj (.original c) = d.obj (.original c) := by
  simp [copyMetaType]

/-- The new object of a turn is a copy of the registered one. -/
theorem copyMetaType_new {d : MetaData κ} {r : Registration κ} (hr : r ∈ R.types)
    (hd : ∀ c, d.obj (.original c) = R.statics.obj (.original c)) :
    ({ d.obj (.original r.type) with name := r.name } : MetaClass κ) = r.metaType := by
  rw [hd, statics_original hr]
  rfl

/-- After the loop the copies equal their originals. -/
theorem foldl_copyMetaType_obj (l : List (Registration κ)) (d : MetaData κ)
    (hl : ∀ r ∈ l, r ∈ R.types)
    (hd : ∀ c, d.obj (.original c) = R.statics.obj (.original c)) (c : κ) :
    (l.foldl copyMetaType d).obj (.copy c)
      = if c ∈ l.map (·.type) then R.statics.obj (.original c) else d.obj (.copy c) := by
  induction l generalizing d with
  | nil => simp
  | cons r rest ih =>
      have hr : r ∈ R.types := hl r (by simp)
      have hd' : ∀ c, (copyMetaType d r).obj (.original c) = R.statics.obj (.original c) :=
        fun c => (copyMetaType_original d r c).trans (hd c)
      rw [List.foldl_cons, ih (copyMetaType d r) (fun r' h => hl r' (by simp [h])) hd']
      by_cases hc : c ∈ rest.map (·.type)
      · rw [if_pos hc, List.map_cons, if_pos (List.mem_cons_of_mem _ hc)]
      · rw [if_neg hc]
        show update d.obj (.copy r.type) { d.obj (.original r.type) with name := r.name }
          (.copy c) = _
        rw [copyMetaType_new hr hd]
        by_cases hcr : c = r.type
        · subst hcr
          rw [update_self, if_pos (by simp), statics_original hr]
        · rw [update_of_ne (by simpa using hcr), if_neg]
          simp only [List.map_cons, List.mem_cons, hcr, hc, or_self, not_false_eq_true]

/-- After the loop a registered type is answered by its copy. -/
theorem foldl_copyMetaType_self (l : List (Registration κ)) (d : MetaData κ) (c : κ) :
    (l.foldl copyMetaType d).self c
      = if c ∈ l.map (·.type) then .copy c else d.self c := by
  induction l generalizing d with
  | nil => simp
  | cons r rest ih =>
      rw [List.foldl_cons, ih]
      by_cases hc : c ∈ rest.map (·.type)
      · rw [if_pos hc, List.map_cons, if_pos (List.mem_cons_of_mem _ hc)]
      · rw [if_neg hc]
        show update d.self r.type (.copy r.type) c = _
        by_cases hcr : c = r.type
        · subst hcr
          rw [update_self, if_pos (by simp)]
        · rw [update_of_ne hcr, if_neg]
          simp only [List.map_cons, List.mem_cons, hcr, hc, or_self, not_false_eq_true]

/-- After the loop a name goes to the last class of that name. -/
theorem foldl_copyMetaType_lookup (l : List (Registration κ)) (d : MetaData κ)
    (hl : ∀ r ∈ l, r ∈ R.types)
    (hd : ∀ c, d.obj (.original c) = R.statics.obj (.original c)) (n : String) :
    (l.foldl copyMetaType d).metaClasses.lookup n
      = match (l.filter fun r => r.metaType.isClass && r.name == n).getLast? with
        | some r => some (.copy r.type)
        | none => d.metaClasses.lookup n := by
  induction l generalizing d with
  | nil => simp
  | cons r rest ih =>
      have hr : r ∈ R.types := hl r (by simp)
      have hd' : ∀ c, (copyMetaType d r).obj (.original c) = R.statics.obj (.original c) :=
        fun c => (copyMetaType_original d r c).trans (hd c)
      have hstep : (copyMetaType d r).metaClasses.lookup n
          = if (r.metaType.isClass && r.name == n) = true then some (.copy r.type)
            else d.metaClasses.lookup n := by
        show (if ({ d.obj (.original r.type) with name := r.name } : MetaClass κ).isClass
          then d.metaClasses.insert r.name (.copy r.type) else d.metaClasses).lookup n = _
        rw [copyMetaType_new hr hd]
        by_cases hcls : r.metaType.isClass = true
        · by_cases hn : r.name = n
          · subst hn
            simp [hcls]
          · simp [hcls, hn, AList.lookup_insert_ne (Ne.symm hn)]
        · simp [hcls]
      rw [List.foldl_cons, ih (copyMetaType d r) (fun r' h => hl r' (by simp [h])) hd', hstep]
      by_cases hp : (r.metaType.isClass && r.name == n) = true
      · rw [if_pos hp, List.filter_cons, if_pos hp, List.getLast?_cons]
        cases (rest.filter fun r => r.metaType.isClass && r.name == n).getLast? with
        | some r' => rfl
        | none => rfl
      · rw [if_neg hp, List.filter_cons, if_neg hp]

theorem copyMetaTypes_obj (c : κ) :
    R.copyMetaTypes.obj (.copy c) = R.statics.obj (.original c) := by
  rw [Registrations.copyMetaTypes,
    foldl_copyMetaType_obj R.types R.statics (fun _ h => h) (fun _ => rfl)]
  by_cases hc : c ∈ R.types.map (·.type)
  · exact if_pos hc
  · -- an unregistered type has a blank object on both sides
    have hf : R.find c = none := by
      refine List.find?_eq_none.mpr fun r hr he => ?_
      exact hc (List.mem_map.mpr ⟨r, hr, by simpa using he⟩)
    rw [if_neg hc]
    simp [Registrations.statics, hf]

theorem copyMetaTypes_self {c : κ} (hc : c ∈ R.classes) :
    R.copyMetaTypes.self c = .copy c := by
  obtain ⟨r, hr, rfl, _⟩ := Registrations.mem_classes.mp hc
  rw [Registrations.copyMetaTypes, foldl_copyMetaType_self]
  exact if_pos (List.mem_map_of_mem hr)

theorem copyMetaTypes_lookup (n : String) :
    R.copyMetaTypes.metaClasses.lookup n = (R.byName n).map .copy := by
  rw [Registrations.copyMetaTypes,
    foldl_copyMetaType_lookup R.types R.statics (fun _ h => h) (fun _ => rfl),
    Registrations.byName]
  cases (R.types.filter fun r => r.metaType.isClass && r.name == n).getLast? with
  | none => simp [Registrations.statics]
  | some r => rfl

/-! ## Names and listed classes -/

theorem nameOf_type {r : Registration κ} (hr : r ∈ R.types) : R.nameOf r.type = r.name := by
  simp [Registrations.nameOf, Registrations.find_of_mem hr]

theorem byName_some {n : String} {c : κ} (h : R.byName n = some c) :
    c ∈ R.classes ∧ R.nameOf c = n := by
  obtain ⟨r, hlast, rfl⟩ := Option.map_eq_some_iff.mp h
  have hmem := List.mem_of_getLast? hlast
  simp only [List.mem_filter, Bool.and_eq_true, beq_iff_eq] at hmem
  obtain ⟨hr, hcls, hn⟩ := hmem
  exact ⟨Registrations.mem_classes.mpr ⟨r, hr, rfl, hcls⟩, (nameOf_type hr).trans hn⟩

theorem byName_listed {n : String} {c : κ} (h : R.byName n = some c) : R.Listed c := by
  rw [Registrations.Listed, (byName_some h).2]
  exact h

theorem Registrations.Listed.mem_classes {c : κ} (h : R.Listed c) : c ∈ R.classes :=
  (byName_some h).1

/-- Every class name is taken by somebody. -/
theorem exists_byName {c : κ} (hc : c ∈ R.classes) :
    ∃ c', R.byName (R.nameOf c) = some c' := by
  obtain ⟨r, hr, rfl, hcls⟩ := Registrations.mem_classes.mp hc
  have hmem : r ∈ R.types.filter fun r' => r'.metaType.isClass && r'.name == r.name :=
    List.mem_filter.mpr ⟨hr, by simp [hcls]⟩
  obtain ⟨r', hlast⟩ := Option.isSome_iff_exists.mp
    (List.getLast?_isSome.mpr (List.ne_nil_of_mem hmem))
  exact ⟨r'.type, by rw [nameOf_type hr, Registrations.byName, hlast]; rfl⟩

/-- With distinct names every class is listed. -/
theorem listed_of_distinct (hn : (R.types.map (·.name)).Nodup) {c : κ} (hc : c ∈ R.classes) :
    R.Listed c := by
  obtain ⟨c', hc'⟩ := exists_byName hc
  obtain ⟨hcls', hname⟩ := byName_some hc'
  obtain ⟨r, hr, rfl, _⟩ := Registrations.mem_classes.mp hc
  obtain ⟨r', hr', rfl, _⟩ := Registrations.mem_classes.mp hcls'
  rw [nameOf_type hr, nameOf_type hr'] at hname
  rw [List.inj_on_of_nodup_map hn hr' hr hname] at hc'
  exact hc'

/-- The loop visits exactly the copies of the listed classes. -/
theorem mem_walk {walk : List (MetaPtr κ)} (hw : R.Walk walk) {p : MetaPtr κ} :
    p ∈ walk ↔ ∃ c, R.Listed c ∧ p = .copy c := by
  rw [hw.mem_iff, List.mem_map]
  constructor
  · rintro ⟨⟨n, q⟩, he, rfl⟩
    have hlook := AList.mem_lookup_iff.mpr he
    rw [copyMetaTypes_lookup, Option.mem_def, Option.map_eq_some_iff] at hlook
    obtain ⟨c, hc, hq⟩ := hlook
    exact ⟨c, byName_listed hc, hq.symm⟩
  · rintro ⟨c, hc, rfl⟩
    refine ⟨⟨R.nameOf c, .copy c⟩, AList.mem_lookup_iff.mp ?_, rfl⟩
    rw [copyMetaTypes_lookup, hc]
    rfl

/-! ## The class loop -/

/-- A lineage is shorter than the list of classes. -/
theorem lineage_length_lt (hR : R.WellLinked) {c : κ} {l : List κ}
    (hl : Lineage R.parentOf c l) (hc : c ∈ R.classes) : l.length < R.classes.length := by
  have hsub : (c :: l).Subperm R.classes := by
    refine List.subperm_of_subset (List.nodup_cons.mpr ⟨hl.not_mem_self, hl.nodup⟩) ?_
    intro a ha
    rcases List.mem_cons.mp ha with rfl | ha
    · exact hc
    · exact hl.subset (s := {c | c ∈ R.classes}) (fun c _ => hR.parent_mem c) hc a ha
  have hlen := hsub.length_le
  rw [List.length_cons] at hlen
  omega

/-- The invariant of the class loop, `done` being the classes visited so
far: they are numbered, only they and their ancestors are, and `m_classes`
holds each of them at its id and `void` everywhere else. -/
structure Visited (R : Registrations κ) (done : List κ)
    (st : InitState κ × (Fin kMaxClasses → MetaPtr κ)) (ord tops : List κ) : Prop where
  numbered : Numbered R st.1 ord tops
  done_sub : ∀ c ∈ done, c ∈ ord
  reached : ∀ a ∈ ord, ∃ c ∈ done, a = c ∨ Ancestor R.parentOf a c
  filed : ∀ c ∈ done, ∀ i : Fin kMaxClasses, (i : Int) = position ord c → st.2 i = .copy c
  unfiled : ∀ i : Fin kMaxClasses, (∀ c ∈ done, (i : Int) ≠ position ord c) →
    st.2 i = .copy R.voidType

/-- **One turn of the class loop**: with enough fuel it succeeds, numbers
and files the class, and keeps the invariant. -/
theorem visitClass_spec {self : κ → MetaPtr κ} (hself : ∀ c ∈ R.classes, self c = .copy c)
    (hR : R.WellLinked) {fuel : Nat} (hfuel : R.classes.length ≤ fuel) {done ord tops : List κ}
    {st : InitState κ × (Fin kMaxClasses → MetaPtr κ)} (h : Visited R done st ord tops)
    {c : κ} (hc : c ∈ R.classes) :
    ∃ st' ord' tops', visitClass (R.mustCall self) fuel st (.copy c) = .ok st'
      ∧ Visited R (done ++ [c]) st' ord' tops' := by
  obtain ⟨l, hl⟩ := hR.exists_lineage hc
  have hlen := lineage_length_lt hR hl hc
  have hlt : l.length < fuel := by omega
  obtain ⟨s', ord', tops', hrec, hnum, hpre, hco, honly⟩ :=
    recursiveInit_spec hself hR hl hc h.numbered hlt
  have hrange := position_range hco
  have hle : ord'.length ≤ kMaxClasses :=
    ((List.subperm_of_subset hnum.ord_nodup hnum.ord_sub).length_le).trans hR.count
  have hid : (s'.obj (.copy c)).globalId = position ord' c := hnum.id_eq c
  have hbound : 0 ≤ position ord' c ∧ position ord' c < kMaxClasses := by omega
  have hpos : ∀ a ∈ done, position ord' a = position ord a :=
    fun a ha => position_of_extends hpre (h.done_sub a ha)
  refine ⟨(s', update st.2 ⟨(position ord' c).toNat, by omega⟩ (.copy c)), ord', tops', ?_, ?_⟩
  · simp only [visitClass, hrec, bind, Except.bind, storeClass, hid, hbound, and_self, dite_true]
  · constructor
    case numbered => exact hnum
    case done_sub =>
      intro a ha
      rcases List.mem_append.mp ha with ha | ha
      · exact hpre.subset (h.done_sub a ha)
      · exact List.mem_singleton.mp ha ▸ hco
    case reached =>
      intro a ha
      rcases honly a ha with ha | rfl | ha
      · obtain ⟨b, hb, hab⟩ := h.reached a ha
        exact ⟨b, List.mem_append_left _ hb, hab⟩
      · exact ⟨a, by simp, .inl rfl⟩
      · exact ⟨c, by simp, .inr (hl.mem_iff.mp ha)⟩
    case filed =>
      intro a ha i hi
      show update st.2 _ _ i = _
      by_cases hac : a = c
      · subst hac
        have hii : i = ⟨(position ord' a).toNat, by omega⟩ := Fin.ext (by
          show (i : Nat) = (position ord' a).toNat
          omega)
        rw [hii, update_self]
      · have had : a ∈ done := by simpa [hac] using ha
        rw [update_of_ne, h.filed a had i (by rw [← hpos a had]; exact hi)]
        -- two classes never share an id
        intro hii
        apply hac
        apply position_inj (hpre.subset (h.done_sub a had))
        rw [← hi, hii]
        show ((position ord' c).toNat : Int) = _
        omega
    case unfiled =>
      intro i hi
      show update st.2 _ _ i = _
      have hic : (i : Int) ≠ position ord' c := hi c (by simp)
      rw [update_of_ne, h.unfiled i]
      · intro a ha
        rw [← hpos a ha]
        exact hi a (List.mem_append_left _ ha)
      · intro hii
        apply hic
        rw [hii]
        show ((position ord' c).toNat : Int) = _
        omega

/-- The class loop over any list of class copies. -/
theorem foldlM_visitClass {self : κ → MetaPtr κ} (hself : ∀ c ∈ R.classes, self c = .copy c)
    (hR : R.WellLinked) {fuel : Nat} (hfuel : R.classes.length ≤ fuel) (todo : List κ)
    (hsub : ∀ c ∈ todo, c ∈ R.classes) {done ord tops : List κ}
    {st : InitState κ × (Fin kMaxClasses → MetaPtr κ)} (h : Visited R done st ord tops) :
    ∃ st' ord' tops',
      (todo.map MetaPtr.copy).foldlM (visitClass (R.mustCall self) fuel) st = .ok st'
      ∧ Visited R (done ++ todo) st' ord' tops' := by
  induction todo generalizing done ord tops st with
  | nil => exact ⟨st, ord, tops, rfl, by simpa using h⟩
  | cons c rest ih =>
      obtain ⟨st₁, ord₁, tops₁, hstep, h₁⟩ :=
        visitClass_spec hself hR hfuel h (hsub c (by simp))
      obtain ⟨st₂, ord₂, tops₂, hrest, h₂⟩ := ih (fun a ha => hsub a (by simp [ha])) h₁
      refine ⟨st₂, ord₂, tops₂, ?_, by simpa using h₂⟩
      rw [List.map_cons, List.foldlM_cons, hstep]
      exact hrest

/-! ## The member-function loop -/

/-- Only the containers change, and none appears or disappears. -/
def SameButFunctions (obj obj' : MetaPtr κ → MetaClass κ) : Prop :=
  ∀ p, obj' p = { obj p with metaDataContainer := (obj' p).metaDataContainer }
    ∧ (obj' p).metaDataContainer.isSome = (obj p).metaDataContainer.isSome

omit [DecidableEq κ] in
theorem SameButFunctions.trans {obj₁ obj₂ obj₃ : MetaPtr κ → MetaClass κ}
    (h₁ : SameButFunctions obj₁ obj₂) (h₂ : SameButFunctions obj₂ obj₃) :
    SameButFunctions obj₁ obj₃ := by
  intro p
  refine ⟨?_, (h₂ p).2.trans (h₁ p).2⟩
  rw [(h₂ p).1, (h₁ p).1]

theorem fileFunction_same {self : κ → MetaPtr κ} {obj obj' : MetaPtr κ → MetaClass κ}
    {it : FunctionRegistration κ} (h : fileFunction R self obj it = .ok obj') :
    SameButFunctions obj obj' := by
  simp only [fileFunction] at h
  split at h
  · cases h
  · rename_i owner _
    split at h
    · cases h
    · rename_i data hdata
      cases h
      intro p
      by_cases hp : p = owner
      · subst hp
        simp [hdata]
      · simp [hp]

/-- Filing succeeds when the owner is a class with a container. -/
theorem fileFunction_total {self : κ → MetaPtr κ} {obj : MetaPtr κ → MetaClass κ}
    {it : FunctionRegistration κ} (hown : it.owner ∈ R.classes)
    (hdata : (obj (self it.owner)).metaDataContainer.isSome = true) :
    ∃ obj', fileFunction R self obj it = .ok obj' := by
  obtain ⟨data, hd⟩ := Option.isSome_iff_exists.mp hdata
  simp [fileFunction, Registrations.mustCall, hown, hd]

theorem foldlM_fileFunction_same {self : κ → MetaPtr κ} (l : List (FunctionRegistration κ))
    {obj obj' : MetaPtr κ → MetaClass κ}
    (h : l.foldlM (fileFunction R self) obj = .ok obj') : SameButFunctions obj obj' := by
  induction l generalizing obj with
  | nil =>
      cases h
      exact fun p => ⟨rfl, rfl⟩
  | cons it rest ih =>
      rw [List.foldlM_cons] at h
      cases hstep : fileFunction R self obj it with
      | error e =>
          rw [hstep] at h
          cases h
      | ok obj₁ =>
          rw [hstep] at h
          exact (fileFunction_same hstep).trans (ih h)

theorem foldlM_fileFunction_total {self : κ → MetaPtr κ} (l : List (FunctionRegistration κ))
    {obj : MetaPtr κ → MetaClass κ}
    (hl : ∀ it ∈ l, it.owner ∈ R.classes
      ∧ (obj (self it.owner)).metaDataContainer.isSome = true) :
    ∃ obj', l.foldlM (fileFunction R self) obj = .ok obj' := by
  induction l generalizing obj with
  | nil => exact ⟨obj, rfl⟩
  | cons it rest ih =>
      obtain ⟨hown, hdata⟩ := hl it (by simp)
      obtain ⟨obj₁, hstep⟩ := fileFunction_total hown hdata
      have hsame := fileFunction_same hstep
      have hl₁ : ∀ it' ∈ rest, it'.owner ∈ R.classes
          ∧ (obj₁ (self it'.owner)).metaDataContainer.isSome = true := by
        intro it' hit'
        obtain ⟨hown', hdata'⟩ := hl it' (by simp [hit'])
        exact ⟨hown', (hsame _).2.trans hdata'⟩
      obtain ⟨obj₂, hrest⟩ := ih hl₁
      exact ⟨obj₂, by rw [List.foldlM_cons, hstep]; exact hrest⟩

/-! ## The initialised system -/

/-- What an initialised system looks like. A class is *numbered* (a member
of `ord`) when it is listed under its own name or above such a class; only
the listed ones are filed in `m_classes`. -/
structure Registry (R : Registrations κ) (sys : MetaSystem κ) (ord tops : List κ) : Prop
    extends Ids R sys.obj ord tops where
  self_eq : ∀ c ∈ R.classes, sys.self c = .copy c
  lookup : ∀ n, sys.metaClasses.lookup n = (R.byName n).map .copy
  listed_sub : ∀ c, R.Listed c → c ∈ ord
  reached : ∀ a ∈ ord, ∃ c, R.Listed c ∧ (a = c ∨ Ancestor R.parentOf a c)
  container : ∀ c, (sys.obj (.copy c)).metaDataContainer.isSome = true ↔ c ∈ ord
  filed : ∀ c, R.Listed c → ∀ i : Fin kMaxClasses, (i : Int) = position ord c →
    sys.classes i = .copy c
  unfiled : ∀ i : Fin kMaxClasses, (∀ c, R.Listed c → (i : Int) ≠ position ord c) →
    sys.classes i = .copy R.voidType
  metaClassId : sys.metaClassId = position ord R.systemType

/-- With distinct names the classes with a topology id are those with a
child. -/
theorem Registry.mem_tops_iff {sys : MetaSystem κ} {ord tops : List κ}
    (h : Registry R sys ord tops) (hn : (R.types.map (·.name)).Nodup) (c : κ) :
    c ∈ tops ↔ ∃ b, R.parentOf b = some c := by
  rw [h.tops_iff]
  constructor
  · rintro ⟨b, _, hb⟩
    exact ⟨b, hb⟩
  · rintro ⟨b, hb⟩
    have hcls := Registrations.mem_classes_of_parentOf hb
    exact ⟨b, h.listed_sub b (listed_of_distinct hn hcls), hb⟩

theorem statics_fresh (c : κ) :
    ∃ n k, R.statics.obj (.original c) = { name := n, kind := k } := by
  simp only [Registrations.statics]
  cases R.find c with
  | none => exact ⟨"", .plain, rfl⟩
  | some r => exact ⟨r.name, r.kind, rfl⟩

/-- Before the class loop nothing is numbered. -/
theorem numbered_start :
    Numbered R { obj := R.copyMetaTypes.obj, globalId := 0, topoId := 0 } [] [] := by
  have hobj : ∀ c, R.copyMetaTypes.obj (.copy c) = R.statics.obj (.original c) :=
    copyMetaTypes_obj
  constructor
  case toIds =>
    constructor
    case name => exact fun c => congrArg _ (hobj c)
    case kind => exact fun c => congrArg _ (hobj c)
    case id_eq =>
      intro c
      obtain ⟨n, k, hc⟩ := statics_fresh (R := R) c
      show (R.copyMetaTypes.obj (.copy c)).globalId = _
      rw [hobj, hc]
      rfl
    case topo_eq =>
      intro c
      obtain ⟨n, k, hc⟩ := statics_fresh (R := R) c
      show (R.copyMetaTypes.obj (.copy c)).topoOrder = _
      rw [hobj, hc]
      rfl
    all_goals simp
  case globalId => rfl
  case topoId => rfl
  case container =>
    intro c
    obtain ⟨n, k, hc⟩ := statics_fresh (R := R) c
    show (R.copyMetaTypes.obj (.copy c)).metaDataContainer = _
    rw [hobj, hc]
    rfl

/-- The class loop over one walk of `m_metaClasses` succeeds and visits
exactly the listed classes. -/
theorem classLoop_spec (hR : R.WellLinked) {walk : List (MetaPtr κ)} (hw : R.Walk walk)
    {fuel : Nat} (hfuel : R.classes.length ≤ fuel) :
    ∃ done st ord tops,
      walk.foldlM (visitClass (R.mustCall R.copyMetaTypes.self) fuel)
        ({ obj := R.copyMetaTypes.obj, globalId := 0, topoId := 0 },
          fun _ => R.copyMetaTypes.self R.voidType) = .ok st
      ∧ Visited R done st ord tops ∧ ∀ c, c ∈ done ↔ R.Listed c := by
  have hself : ∀ c ∈ R.classes, R.copyMetaTypes.self c = .copy c :=
    fun c hc => copyMetaTypes_self hc
  have hmem : ∀ c, c ∈ walk.map MetaPtr.type ↔ R.Listed c := by
    intro c
    rw [List.mem_map]
    constructor
    · rintro ⟨p, hp, rfl⟩
      obtain ⟨c, hc, rfl⟩ := (mem_walk hw).mp hp
      exact hc
    · intro hc
      exact ⟨.copy c, (mem_walk hw).mpr ⟨c, hc, rfl⟩, rfl⟩
  have hwalk : (walk.map MetaPtr.type).map MetaPtr.copy = walk := by
    rw [List.map_map, List.map_congr_left (g := id), List.map_id]
    intro p hp
    obtain ⟨c, _, rfl⟩ := (mem_walk hw).mp hp
    rfl
  have hstart : Visited R [] ({ obj := R.copyMetaTypes.obj, globalId := 0, topoId := 0 },
      fun _ => R.copyMetaTypes.self R.voidType) [] [] := by
    constructor
    case numbered => exact numbered_start
    case unfiled => exact fun _ _ => hself _ R.void_mem_classes
    all_goals simp
  obtain ⟨st, ord, tops, hloop, hvis⟩ := foldlM_visitClass hself hR hfuel
    (walk.map MetaPtr.type) (fun c hc => ((hmem c).mp hc).mem_classes) hstart
  rw [hwalk] at hloop
  exact ⟨walk.map MetaPtr.type, st, ord, tops, hloop, by simpa using hvis, hmem⟩

/-- **`Initialize` builds a registry**, for every registration list and
every walk of the hash map. -/
theorem initializeSystem_registry (hR : R.WellLinked) {walk : List (MetaPtr κ)}
    (hw : R.Walk walk) {fuel : Nat} (hfuel : R.classes.length ≤ fuel) {sys : MetaSystem κ}
    (h : initializeSystem R walk fuel = .ok sys) : ∃ ord tops, Registry R sys ord tops := by
  obtain ⟨done, st, ord, tops, hloop, hvis, hmem⟩ := classLoop_spec hR hw hfuel
  simp only [initializeSystem, hloop, bind, Except.bind] at h
  cases hfun : R.functions.foldlM (fileFunction R R.copyMetaTypes.self) st.1.obj with
  | error e => simp [hfun] at h
  | ok obj =>
      simp only [hfun, Except.ok.injEq] at h
      subst h
      have hsame := foldlM_fileFunction_same R.functions hfun
      have hids : Ids R obj ord tops := hvis.numbered.toIds.of_same fun p => (hsame p).1
      refine ⟨ord, tops, hids, fun c hc => copyMetaTypes_self hc, copyMetaTypes_lookup,
        fun c hc => hvis.done_sub c ((hmem c).mpr hc), ?_, ?_,
        fun c hc => hvis.filed c ((hmem c).mpr hc),
        fun i hi => hvis.unfiled i fun c hc => hi c ((hmem c).mp hc), ?_⟩
      · intro a ha
        obtain ⟨c, hc, hac⟩ := hvis.reached a ha
        exact ⟨c, (hmem c).mp hc, hac⟩
      · intro c
        show (obj (.copy c)).metaDataContainer.isSome = true ↔ c ∈ ord
        rw [(hsame _).2, hvis.numbered.container]
        by_cases hc : c ∈ ord
        · simp [hc]
        · simp [hc]
      · show (obj (R.copyMetaTypes.self R.systemType)).globalId = _
        rw [copyMetaTypes_self R.system_mem_classes, hids.id_eq]

/-- **`Initialize` returns** when the owner of every member function is a
class the loop reaches: listed under its own name, or above one that is. -/
theorem initializeSystem_total (hR : R.WellLinked) {walk : List (MetaPtr κ)}
    (hw : R.Walk walk) {fuel : Nat} (hfuel : R.classes.length ≤ fuel)
    (hown : ∀ it ∈ R.functions, ∃ c, R.Listed c
      ∧ (it.owner = c ∨ Ancestor R.parentOf it.owner c)) :
    ∃ sys, initializeSystem R walk fuel = .ok sys := by
  obtain ⟨done, st, ord, tops, hloop, hvis, hmem⟩ := classLoop_spec hR hw hfuel
  have hready : ∀ it ∈ R.functions, it.owner ∈ R.classes
      ∧ (st.1.obj (R.copyMetaTypes.self it.owner)).metaDataContainer.isSome = true := by
    intro it hit
    obtain ⟨c, hc, hoc⟩ := hown it hit
    have hco : c ∈ ord := hvis.done_sub c ((hmem c).mpr hc)
    have howner : it.owner ∈ ord := by
      rcases hoc with he | hanc
      · rwa [he]
      · obtain ⟨l, hl⟩ := hR.exists_lineage hc.mem_classes
        exact (hvis.numbered.lineage_sub hl hco _ (hl.mem_iff.mpr hanc)).1
    have hcls := hvis.numbered.ord_sub _ howner
    refine ⟨hcls, ?_⟩
    rw [copyMetaTypes_self hcls, hvis.numbered.container]
    simp [howner]
  obtain ⟨obj, hfun⟩ := foldlM_fileFunction_total R.functions hready
  simp only [initializeSystem, hloop, bind, Except.bind, hfun]
  exact ⟨_, rfl⟩

end SkyEngine.Meta
