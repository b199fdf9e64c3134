import SkyEngine.Meta.System
import SkyEngine.Lib.Position

/-!
# Meta — Numbering

The invariant of `m_RecursiveInit`. Two ghost lists say all there is to
say about a state: `ord`, the classes in the order they got their global
id, and `tops`, the classes in the order they got their topology id. Every
id is a position in one of them, and both only ever grow at the end.

The induction that carries the recursion is on the lineage of the class,
so nothing depends on the walk of the hash map that calls it.
-/

namespace SkyEngine.Meta

open Function
open Forest Position

variable {κ : Type}

/-! ## A parent's object and its first child -/

/-- The effect of the first child on its parent's object. -/
def withTopo (mc : MetaClass κ) (id : Int) : MetaClass κ :=
  if mc.topoOrder = -1 then
    { mc with topoOrder := id, baseTopoIdList := mc.baseTopoIdList ++ [id] }
  else mc

@[simp] theorem withTopo_name (mc : MetaClass κ) (id : Int) :
    (withTopo mc id).name = mc.name := by
  unfold withTopo; split <;> rfl

@[simp] theorem withTopo_kind (mc : MetaClass κ) (id : Int) :
    (withTopo mc id).kind = mc.kind := by
  unfold withTopo; split <;> rfl

@[simp] theorem withTopo_globalId (mc : MetaClass κ) (id : Int) :
    (withTopo mc id).globalId = mc.globalId := by
  unfold withTopo; split <;> rfl

@[simp] theorem withTopo_container (mc : MetaClass κ) (id : Int) :
    (withTopo mc id).metaDataContainer = mc.metaDataContainer := by
  unfold withTopo; split <;> rfl

variable [DecidableEq κ] {R : Registrations κ}

/-- What the registry asks of the linked program: parents are registered
classes, nobody descends from itself, and the classes fit `m_classes`. -/
structure Registrations.WellLinked (R : Registrations κ) : Prop where
  parent_mem : ∀ c p, R.parentOf c = some p → p ∈ R.classes
  acyclic : Acyclic R.parentOf
  count : R.classes.length ≤ kMaxClasses

theorem Registrations.WellLinked.exists_lineage (h : R.WellLinked) {c : κ}
    (hc : c ∈ R.classes) : ∃ l, Lineage R.parentOf c l :=
  Forest.exists_lineage (s := {c | c ∈ R.classes}) (List.finite_toSet R.classes)
    (fun c _ p hp => h.parent_mem c p hp) h.acyclic c hc

/-! ## One call without the recursion -/

/-- What `finishInit` makes of a class without a parent. -/
def rootStep (s : InitState κ) (mc : MetaPtr κ) : InitState κ where
  obj := update s.obj mc { s.obj mc with
    globalId := s.globalId, baseTopoIdList := [], metaDataContainer := some {} }
  globalId := s.globalId + 1
  topoId := s.topoId

/-- What `finishInit` makes of a class below `sup`. -/
def childStep (s : InitState κ) (mc sup : MetaPtr κ) : InitState κ where
  obj := update (update s.obj sup (withTopo (s.obj sup) s.topoId)) mc { s.obj mc with
    globalId := s.globalId
    baseTopoIdList := (withTopo (s.obj sup) s.topoId).baseTopoIdList
    metaDataContainer := some {} }
  globalId := s.globalId + 1
  topoId := if (s.obj sup).topoOrder = -1 then s.topoId + 1 else s.topoId

theorem rootStep_obj_ne (s : InitState κ) {mc q : MetaPtr κ} (h : q ≠ mc) :
    (rootStep s mc).obj q = s.obj q := update_of_ne h _ _

theorem childStep_obj_ne (s : InitState κ) {mc sup q : MetaPtr κ} (h : q ≠ mc) :
    (childStep s mc sup).obj q
      = if q = sup then withTopo (s.obj sup) s.topoId else s.obj q := by
  show update (update s.obj sup (withTopo (s.obj sup) s.topoId)) mc _ q = _
  rw [update_of_ne h]
  by_cases hq : q = sup
  · subst hq; simp
  · simp [hq]

theorem finishInit_root {super : κ → Option (MetaPtr κ)} {mc : MetaPtr κ} {s : InitState κ}
    (hp : (s.obj mc).parent = none) (hlt : s.globalId < kMaxClasses) :
    finishInit super mc s = .ok (rootStep s mc) := by
  have hp' : ((update s.obj mc { s.obj mc with
      globalId := s.globalId, baseTopoIdList := [] }) mc).parent = none := by
    simpa [MetaClass.parent] using hp
  simp only [finishInit, takeGlobalId, if_pos hlt, bind, Except.bind, InitState.modify, superOf,
    hp', rootStep]
  simp

theorem finishInit_child {super : κ → Option (MetaPtr κ)} {mc sup : MetaPtr κ}
    {s : InitState κ} {p : κ} (hp : (s.obj mc).parent = some p) (hs : super p = some sup)
    (hne : sup ≠ mc) (hlt : s.globalId < kMaxClasses) :
    finishInit super mc s = .ok (childStep s mc sup) := by
  have hp' : ((update s.obj mc { s.obj mc with
      globalId := s.globalId, baseTopoIdList := [] }) mc).parent = some p := by
    simpa [MetaClass.parent] using hp
  simp only [finishInit, takeGlobalId, if_pos hlt, bind, Except.bind, InitState.modify, superOf,
    hp', hs, childStep]
  by_cases ht : (s.obj sup).topoOrder = -1
  · simp only [takeTopoOrder, inheritBases, InitState.modify, withTopo, ht, ne_eq, hne,
      not_false_eq_true, update_of_ne, if_true, update_self]
    rw [update_comm hne.symm]
    simp
  · simp only [takeTopoOrder, inheritBases, InitState.modify, withTopo, ht, ne_eq, hne,
      not_false_eq_true, update_of_ne, if_true, if_false, update_self, List.nil_append]
    simp

/-- With `m_classes` full no id is handed out. -/
theorem finishInit_full {super : κ → Option (MetaPtr κ)} {mc : MetaPtr κ} {s : InitState κ}
    (hfull : ¬ s.globalId < kMaxClasses) : finishInit super mc s = .error .assertion := by
  simp only [finishInit, takeGlobalId, if_neg hfull]
  rfl

/-! ## The invariant -/

/-- The ids in the objects are the places in the two orders: `ord` lists
the classes as they got their global id, `tops` as they got their topology
id. -/
structure Ids (R : Registrations κ) (obj : MetaPtr κ → MetaClass κ) (ord tops : List κ) :
    Prop where
  name : ∀ c, (obj (.copy c)).name = (R.statics.obj (.original c)).name
  kind : ∀ c, (obj (.copy c)).kind = (R.statics.obj (.original c)).kind
  ord_nodup : ord.Nodup
  tops_nodup : tops.Nodup
  ord_sub : ∀ c ∈ ord, c ∈ R.classes
  id_eq : ∀ c, (obj (.copy c)).globalId = position ord c
  topo_eq : ∀ c, (obj (.copy c)).topoOrder = position tops c
  /-- Parents first. -/
  parent_lt : ∀ c ∈ ord, ∀ p, R.parentOf c = some p →
    p ∈ ord ∧ position ord p < position ord c
  /-- A topology id is what a numbered child brings its parent. -/
  tops_iff : ∀ c, c ∈ tops ↔ ∃ b ∈ ord, R.parentOf b = some c
  topo_lt : ∀ c ∈ tops, ∀ p, R.parentOf c = some p → position tops p < position tops c
  bases : ∀ c ∈ ord, ∀ l, Lineage R.parentOf c l →
    (obj (.copy c)).baseTopoIdList = (if c ∈ tops then l ++ [c] else l).map (position tops)

/-- The invariant of the recursion: the counters are the lengths of the
orders, and exactly the numbered classes have their (empty) container. -/
structure Numbered (R : Registrations κ) (s : InitState κ) (ord tops : List κ) : Prop
    extends Ids R s.obj ord tops where
  globalId : s.globalId = ord.length
  topoId : s.topoId = tops.length
  container : ∀ c, (s.obj (.copy c)).metaDataContainer = if c ∈ ord then some {} else none

namespace Ids

variable {obj : MetaPtr κ → MetaClass κ} {ord tops : List κ}

theorem parent (h : Ids R obj ord tops) (c : κ) : (obj (.copy c)).parent = R.parentOf c := by
  rw [MetaClass.parent, h.kind]
  simp only [Registrations.statics, Registrations.parentOf]
  cases R.find c with
  | none => rfl
  | some r => rfl

/-- A numbered class has all its ancestors numbered, each with a topology
id of its own. -/
theorem lineage_sub (h : Ids R obj ord tops) {c : κ} {l : List κ}
    (hl : Lineage R.parentOf c l) (hc : c ∈ ord) : ∀ a ∈ l, a ∈ ord ∧ a ∈ tops := by
  induction hl with
  | root _ => intro a ha; cases ha
  | @child c p l hp _ ih =>
      have hpo := (h.parent_lt c hc p hp).1
      intro a ha
      rcases List.mem_append.mp ha with ha | ha
      · exact ih hpo a ha
      · cases List.mem_singleton.mp ha
        exact ⟨hpo, (h.tops_iff p).mpr ⟨c, hc, hp⟩⟩

theorem tops_sub (h : Ids R obj ord tops) : ∀ c ∈ tops, c ∈ ord := by
  intro c hc
  obtain ⟨b, hb, hp⟩ := (h.tops_iff c).mp hc
  exact (h.parent_lt b hb c hp).1

theorem not_mem_tops (h : Ids R obj ord tops) {c : κ} (hco : c ∉ ord) : c ∉ tops :=
  fun hc => hco (h.tops_sub c hc)

/-- The ids do not depend on what is filed in the containers. -/
theorem of_same {obj' : MetaPtr κ → MetaClass κ} (h : Ids R obj ord tops)
    (hs : ∀ p, obj' p = { obj p with metaDataContainer := (obj' p).metaDataContainer }) :
    Ids R obj' ord tops where
  name := fun c => by rw [hs]; exact h.name c
  kind := fun c => by rw [hs]; exact h.kind c
  ord_nodup := h.ord_nodup
  tops_nodup := h.tops_nodup
  ord_sub := h.ord_sub
  id_eq := fun c => by rw [hs]; exact h.id_eq c
  topo_eq := fun c => by rw [hs]; exact h.topo_eq c
  parent_lt := h.parent_lt
  tops_iff := h.tops_iff
  topo_lt := h.topo_lt
  bases := fun c hc l hl => by rw [hs]; exact h.bases c hc l hl

/-! ### One class more in the orders -/

theorem ord_nodup_append (h : Ids R obj ord tops) {c : κ} (hco : c ∉ ord) :
    (ord ++ [c]).Nodup := by
  have hpush := nodup_pushNew h.ord_nodup c
  rwa [pushNew, if_neg hco] at hpush

theorem ord_sub_append (h : Ids R obj ord tops) {c : κ} (hc : c ∈ R.classes) :
    ∀ a ∈ ord ++ [c], a ∈ R.classes := by
  intro a ha
  rcases List.mem_append.mp ha with ha | ha
  · exact h.ord_sub a ha
  · exact List.mem_singleton.mp ha ▸ hc

/-- A class numbered after its parent keeps the order parents first. -/
theorem parent_lt_append (h : Ids R obj ord tops) {c : κ} (hco : c ∉ ord)
    (hpar : ∀ p, R.parentOf c = some p → p ∈ ord) :
    ∀ a ∈ ord ++ [c], ∀ q, R.parentOf a = some q →
      q ∈ ord ++ [c] ∧ position (ord ++ [c]) q < position (ord ++ [c]) a := by
  intro a ha q hq
  rcases List.mem_append.mp ha with ha | ha
  · obtain ⟨hqo, hlt⟩ := h.parent_lt a ha q hq
    refine ⟨List.mem_append_left _ hqo, ?_⟩
    rwa [position_append_of_mem hqo, position_append_of_mem ha]
  · cases List.mem_singleton.mp ha
    have hqo := hpar q hq
    refine ⟨List.mem_append_left _ hqo, ?_⟩
    rw [position_append_of_mem hqo, position_append_self hco]
    exact (position_range hqo).2

theorem tops_iff_pushNew (h : Ids R obj ord tops) {c p : κ} (hp : R.parentOf c = some p)
    (a : κ) : a ∈ pushNew tops p ↔ ∃ b ∈ ord ++ [c], R.parentOf b = some a := by
  rw [mem_pushNew, h.tops_iff]
  constructor
  · rintro (⟨b, hb, hba⟩ | rfl)
    · exact ⟨b, List.mem_append_left _ hb, hba⟩
    · exact ⟨c, by simp, hp⟩
  · rintro ⟨b, hb, hba⟩
    rcases List.mem_append.mp hb with hb | hb
    · exact .inl ⟨b, hb, hba⟩
    · cases List.mem_singleton.mp hb
      exact .inr (Option.some.inj (hba.symm.trans hp))

/-- A new topology id keeps the order top-down. -/
theorem topo_lt_pushNew (h : Ids R obj ord tops) {p : κ} (hpo : p ∈ ord) :
    ∀ a ∈ pushNew tops p, ∀ q, R.parentOf a = some q →
      position (pushNew tops p) q < position (pushNew tops p) a := by
  intro a ha q hq
  by_cases hat : a ∈ tops
  · -- old entries keep their places
    have hqt : q ∈ tops := (h.tops_iff q).mpr ⟨a, h.tops_sub a hat, hq⟩
    rw [position_of_extends (prefix_pushNew tops p) hqt,
      position_of_extends (prefix_pushNew tops p) hat]
    exact h.topo_lt a hat q hq
  · -- the new entry is the parent, and its own parent is an old entry
    have hap : a = p := (mem_pushNew.mp ha).resolve_left hat
    subst hap
    have hqt : q ∈ tops := (h.tops_iff q).mpr ⟨a, hpo, hq⟩
    have hpush : pushNew tops a = tops ++ [a] := if_neg hat
    rw [hpush, position_append_of_mem hqt, position_append_self hat]
    exact (position_range hqt).2

/-- The base list of every other class stays what it is. -/
theorem bases_pushNew (h : Ids R obj ord tops) {a p : κ} (ha : a ∈ ord) (hap : a ≠ p)
    {l : List κ} (hl : Lineage R.parentOf a l) :
    (if a ∈ tops then l ++ [a] else l).map (position tops)
      = (if a ∈ pushNew tops p then l ++ [a] else l).map (position (pushNew tops p)) := by
  have hiff : a ∈ pushNew tops p ↔ a ∈ tops := by simp [hap]
  simp only [hiff]
  refine List.map_congr_left fun b hb => ?_
  have hbt : b ∈ tops := by
    split at hb
    · rename_i hat
      rcases List.mem_append.mp hb with hb | hb
      · exact (h.lineage_sub hl ha b hb).2
      · exact List.mem_singleton.mp hb ▸ hat
    · exact (h.lineage_sub hl ha b hb).2
  exact (position_of_extends (prefix_pushNew tops p) hbt).symm

end Ids

namespace Numbered

variable {s : InitState κ} {ord tops : List κ}

/-- Fewer ids are given out than there are classes, as long as a class is
left without. -/
theorem globalId_lt (h : Numbered R s ord tops) {c : κ} (hc : c ∈ R.classes) (hco : c ∉ ord) :
    s.globalId < R.classes.length := by
  have hsub : (c :: ord).Subperm R.classes :=
    List.subperm_of_subset (List.nodup_cons.mpr ⟨hco, h.ord_nodup⟩) fun a ha => by
      rcases List.mem_cons.mp ha with rfl | ha
      · exact hc
      · exact h.ord_sub a ha
  have hlen := hsub.length_le
  simp only [List.length_cons] at hlen
  rw [h.globalId]
  omega

/-- **Step, root class**: a class without a parent is numbered next. -/
theorem root (h : Numbered R s ord tops) {c : κ} (hc : c ∈ R.classes) (hco : c ∉ ord)
    (hp : R.parentOf c = none) : Numbered R (rootStep s (.copy c)) (ord ++ [c]) tops := by
  have hobj : ∀ c', c' ≠ c → (rootStep s (.copy c)).obj (.copy c') = s.obj (.copy c') :=
    fun c' hcc => rootStep_obj_ne s (by simpa using hcc)
  have hself : (rootStep s (.copy c)).obj (.copy c) = { s.obj (.copy c) with
      globalId := s.globalId, baseTopoIdList := [], metaDataContainer := some {} } :=
    update_self ..
  constructor
  case toIds =>
    constructor
    case name =>
      intro c'
      by_cases hcc : c' = c
      · rw [hcc, hself, ← h.name]
      · rw [hobj c' hcc, h.name]
    case kind =>
      intro c'
      by_cases hcc : c' = c
      · rw [hcc, hself, ← h.kind]
      · rw [hobj c' hcc, h.kind]
    case ord_nodup => exact h.ord_nodup_append hco
    case tops_nodup => exact h.tops_nodup
    case ord_sub => exact h.ord_sub_append hc
    case id_eq =>
      intro c'
      by_cases hcc : c' = c
      · rw [hcc, hself, position_append_self hco]
        exact h.globalId
      · rw [hobj c' hcc, position_append_ne hcc, h.id_eq]
    case topo_eq =>
      intro c'
      by_cases hcc : c' = c
      · rw [hcc, hself, ← h.topo_eq]
      · rw [hobj c' hcc, h.topo_eq]
    case parent_lt => exact h.parent_lt_append hco fun p hcp => by simp [hp] at hcp
    case tops_iff =>
      intro c'
      rw [h.tops_iff]
      constructor
      · rintro ⟨b, hb, hbp⟩
        exact ⟨b, List.mem_append_left _ hb, hbp⟩
      · rintro ⟨b, hb, hbp⟩
        rcases List.mem_append.mp hb with hb | hb
        · exact ⟨b, hb, hbp⟩
        · cases List.mem_singleton.mp hb
          simp [hp] at hbp
    case topo_lt => exact h.topo_lt
    case bases =>
      intro c' hc' l hl
      rcases List.mem_append.mp hc' with hc' | hc'
      · rw [hobj c' (fun he => hco (he ▸ hc'))]
        exact h.bases c' hc' l hl
      · cases List.mem_singleton.mp hc'
        cases hl with
        | root _ => simp [hself, h.not_mem_tops hco]
        | child hcp _ => simp [hp] at hcp
  case globalId =>
    show s.globalId + 1 = _
    simp [h.globalId]
  case topoId => exact h.topoId
  case container =>
    intro c'
    by_cases hcc : c' = c
    · simp [hcc, hself]
    · simp [hobj c' hcc, h.container, hcc]

/-! ### The step of a class with a parent -/

/-- The parent's object once it has a topology id: the id is its place in
the extended list, and its own list ends with that id. -/
theorem withTopo_parent (h : Numbered R s ord tops) {p : κ} (hpo : p ∈ ord) :
    (withTopo (s.obj (.copy p)) s.topoId).topoOrder = position (pushNew tops p) p
      ∧ ∀ l, Lineage R.parentOf p l →
        (withTopo (s.obj (.copy p)) s.topoId).baseTopoIdList
          = (l ++ [p]).map (position (pushNew tops p)) := by
  have hanc : ∀ l, Lineage R.parentOf p l → ∀ a ∈ l, a ∈ tops :=
    fun l hl a ha => (h.lineage_sub hl hpo a ha).2
  by_cases hpt : p ∈ tops
  · have hne : ¬ (s.obj (.copy p)).topoOrder = -1 := by simpa [h.topo_eq] using hpt
    have hpush : pushNew tops p = tops := if_pos hpt
    refine ⟨by rw [withTopo, if_neg hne, h.topo_eq, hpush], fun l hl => ?_⟩
    rw [withTopo, if_neg hne, h.bases p hpo l hl, if_pos hpt, hpush]
  · have heq : (s.obj (.copy p)).topoOrder = -1 := by simpa [h.topo_eq] using hpt
    have hpush : pushNew tops p = tops ++ [p] := if_neg hpt
    have hself : position (tops ++ [p]) p = s.topoId := by
      rw [position_append_self hpt, h.topoId]
    refine ⟨by rw [withTopo, if_pos heq, hpush, hself], fun l hl => ?_⟩
    rw [withTopo, if_pos heq, hpush]
    show (s.obj (.copy p)).baseTopoIdList ++ [s.topoId] = _
    rw [h.bases p hpo l hl, if_neg hpt, List.map_append, List.map_singleton, hself]
    congr 1
    exact List.map_congr_left fun a ha => (position_append_of_mem (hanc l hl a ha)).symm

/-- **Step, child class**: a class whose parent is numbered is numbered
next, and its parent gets a topology id if it has none yet. -/
theorem child (h : Numbered R s ord tops) {c p : κ} (hc : c ∈ R.classes) (hco : c ∉ ord)
    (hp : R.parentOf c = some p) (hpo : p ∈ ord) :
    Numbered R (childStep s (.copy c) (.copy p)) (ord ++ [c]) (pushNew tops p) := by
  have hpc : p ≠ c := fun he => hco (he ▸ hpo)
  have hct : c ∉ tops := h.not_mem_tops hco
  obtain ⟨htopo, hbases⟩ := h.withTopo_parent hpo
  have hobj : ∀ c', c' ≠ c → (childStep s (.copy c) (.copy p)).obj (.copy c')
      = if c' = p then withTopo (s.obj (.copy p)) s.topoId else s.obj (.copy c') := by
    intro c' hcc
    rw [childStep_obj_ne s (by simpa using hcc)]
    simp
  have hself : (childStep s (.copy c) (.copy p)).obj (.copy c) = { s.obj (.copy c) with
      globalId := s.globalId
      baseTopoIdList := (withTopo (s.obj (.copy p)) s.topoId).baseTopoIdList
      metaDataContainer := some {} } := update_self ..
  constructor
  case toIds =>
    constructor
    case name =>
      intro c'
      by_cases hcc : c' = c
      · rw [hcc, hself, ← h.name]
      · rw [hobj c' hcc]
        split
        · rename_i hcp
          rw [withTopo_name, h.name, hcp]
        · exact h.name c'
    case kind =>
      intro c'
      by_cases hcc : c' = c
      · rw [hcc, hself, ← h.kind]
      · rw [hobj c' hcc]
        split
        · rename_i hcp
          rw [withTopo_kind, h.kind, hcp]
        · exact h.kind c'
    case ord_nodup => exact h.ord_nodup_append hco
    case tops_nodup => exact nodup_pushNew h.tops_nodup p
    case ord_sub => exact h.ord_sub_append hc
    case id_eq =>
      intro c'
      by_cases hcc : c' = c
      · rw [hcc, hself, position_append_self hco]
        exact h.globalId
      · rw [hobj c' hcc, position_append_ne hcc]
        split
        · rename_i hcp
          rw [withTopo_globalId, h.id_eq, hcp]
        · exact h.id_eq c'
    case topo_eq =>
      intro c'
      by_cases hcc : c' = c
      · rw [hcc, hself, position_pushNew_ne hpc.symm]
        exact h.topo_eq c
      · rw [hobj c' hcc]
        split
        · rename_i hcp
          rw [htopo, hcp]
        · rename_i hcp
          rw [position_pushNew_ne hcp, h.topo_eq]
    case parent_lt =>
      refine h.parent_lt_append hco fun q hq => ?_
      cases Option.some.inj (hp.symm.trans hq)
      exact hpo
    case tops_iff => exact h.tops_iff_pushNew hp
    case topo_lt => exact h.topo_lt_pushNew hpo
    case bases =>
      intro c' hc' l hl
      rcases List.mem_append.mp hc' with hc' | hc'
      · have hcc : c' ≠ c := fun he => hco (he ▸ hc')
        rw [hobj c' hcc]
        by_cases hcp : c' = p
        · subst hcp
          rw [if_pos rfl, hbases l hl, if_pos (by simp)]
        · rw [if_neg hcp, h.bases c' hc' l hl]
          exact h.bases_pushNew hc' hcp hl
      · cases List.mem_singleton.mp hc'
        cases hl with
        | root hroot => simp [hp] at hroot
        | child hcp hlp =>
            cases Option.some.inj (hp.symm.trans hcp)
            have hnot : c ∉ pushNew tops p := by simp [hct, hpc.symm]
            rw [hself, if_neg hnot]
            exact hbases _ hlp
  case globalId =>
    show s.globalId + 1 = _
    simp [h.globalId]
  case topoId =>
    show (if (s.obj (.copy p)).topoOrder = -1 then s.topoId + 1 else s.topoId) = _
    have hiff : (s.obj (.copy p)).topoOrder = -1 ↔ p ∉ tops := by
      rw [h.topo_eq, position_eq_neg_one]
    rw [length_pushNew]
    by_cases hpt : p ∈ tops
    · simp [hiff, hpt, h.topoId]
    · simp [hiff, hpt, h.topoId]
  case container =>
    intro c'
    by_cases hcc : c' = c
    · simp [hcc, hself]
    · rw [hobj c' hcc]
      have hmem : c' ∈ ord ++ [c] ↔ c' ∈ ord := by simp [hcc]
      simp only [hmem]
      split
      · rename_i hcp
        rw [withTopo_container, h.container, hcp]
      · exact h.container c'

end Numbered

/-! ## The recursion -/

section Recursion

variable {self : κ → MetaPtr κ} {s : InitState κ} {ord tops : List κ}

/-- Parents are registered classes. -/
def Registrations.ParentsRegistered (R : Registrations κ) : Prop :=
  ∀ c p, R.parentOf c = some p → p ∈ R.classes

/-- After the copy loop every registered class is answered by its copy. -/
theorem superOf_copy (hself : ∀ c ∈ R.classes, self c = .copy c) (hR : R.ParentsRegistered)
    {mc : MetaClass κ} {c : κ} (hmc : mc.parent = R.parentOf c) :
    superOf (R.mustCall self) mc = .ok ((R.parentOf c).map .copy) := by
  rw [superOf, hmc]
  cases hp : R.parentOf c with
  | none => rfl
  | some p =>
      have hpc := hR c p hp
      simp [Registrations.mustCall, hpc, hself p hpc]

/-- The three ways a call on a class with lineage `l` ends: it returns with
the class and its ancestors numbered and only appends to the two orders, it
runs into the bound of `m_classes`, or it had less fuel than the lineage is
long. -/
def RecursiveInitEnds (R : Registrations κ) (self : κ → MetaPtr κ) (c : κ) (l : List κ)
    (s : InitState κ) (ord : List κ) (fuel : Nat) : Prop :=
  (∃ s' ord' tops', recursiveInit (R.mustCall self) fuel (.copy c) s = .ok s'
      ∧ Numbered R s' ord' tops' ∧ ord <+: ord' ∧ c ∈ ord'
      ∧ ∀ a ∈ ord', a ∈ ord ∨ a = c ∨ a ∈ l)
    ∨ (recursiveInit (R.mustCall self) fuel (.copy c) s = .error .assertion
      ∧ kMaxClasses < R.classes.length)
    ∨ (recursiveInit (R.mustCall self) fuel (.copy c) s = .error .outOfFuel ∧ fuel ≤ l.length)

/-- A numbered class is left alone. -/
theorem recursiveInit_numbered (h : Numbered R s ord tops) {c : κ} (hco : c ∈ ord) (l : List κ)
    (fuel : Nat) : RecursiveInitEnds R self c l s ord (fuel + 1) := by
  have hid : (s.obj (.copy c)).globalId ≠ -1 := by simpa [h.id_eq] using hco
  exact .inl ⟨s, ord, tops, by rw [recursiveInit, if_pos hid], h, List.prefix_rfl, hco,
    fun a ha => .inl ha⟩

/-- **`m_RecursiveInit` keeps the invariant**, whatever the fuel. The
induction is on the lineage of the class. -/
theorem recursiveInit_ends (hself : ∀ c ∈ R.classes, self c = .copy c)
    (hR : R.ParentsRegistered) {c : κ} {l : List κ} (hl : Lineage R.parentOf c l)
    (hc : c ∈ R.classes) (h : Numbered R s ord tops) (fuel : Nat) :
    RecursiveInitEnds R self c l s ord fuel := by
  induction hl generalizing s ord tops fuel with
  | @root c hp =>
      cases fuel with
      | zero => exact .inr (.inr ⟨rfl, Nat.zero_le _⟩)
      | succ fuel =>
          by_cases hco : c ∈ ord
          · exact recursiveInit_numbered h hco [] fuel
          · have hid : ¬ (s.obj (.copy c)).globalId ≠ -1 := by simpa [h.id_eq] using hco
            have hpar : (s.obj (.copy c)).parent = none := (h.parent c).trans hp
            have hstep : recursiveInit (R.mustCall self) (fuel + 1) (.copy c) s
                = finishInit (R.mustCall self) (.copy c) s := by
              rw [recursiveInit, if_neg hid, superOf_copy hself hR (h.parent c), hp]
              rfl
            by_cases hlt : s.globalId < kMaxClasses
            · refine .inl ⟨_, ord ++ [c], tops, hstep.trans (finishInit_root hpar hlt),
                h.root hc hco hp, List.prefix_append _ _, by simp, fun a ha => ?_⟩
              rcases List.mem_append.mp ha with ha | ha
              · exact .inl ha
              · exact .inr (.inl (List.mem_singleton.mp ha))
            · have hroom := h.globalId_lt hc hco
              exact .inr (.inl ⟨hstep.trans (finishInit_full hlt), by omega⟩)
  | @child c p l hp hl ih =>
      cases fuel with
      | zero => exact .inr (.inr ⟨rfl, Nat.zero_le _⟩)
      | succ fuel =>
          by_cases hco : c ∈ ord
          · exact recursiveInit_numbered h hco (l ++ [p]) fuel
          · have hid : ¬ (s.obj (.copy c)).globalId ≠ -1 := by simpa [h.id_eq] using hco
            have hpm := hR c p hp
            have hstep : recursiveInit (R.mustCall self) (fuel + 1) (.copy c) s = (do
                let s ← recursiveInit (R.mustCall self) fuel (.copy p) s
                finishInit (R.mustCall self) (.copy c) s) := by
              rw [recursiveInit, if_neg hid, superOf_copy hself hR (h.parent c), hp]
              rfl
            rw [RecursiveInitEnds, hstep]
            rcases ih hpm h fuel with ⟨s₁, ord₁, tops₁, hrec, h₁, hpre, hpo, honly⟩
              | ⟨hrec, hfull⟩ | ⟨hrec, hshort⟩
            · have hcl : c ∉ l ++ [p] := (Lineage.child hp hl).not_mem_self
              have hco₁ : c ∉ ord₁ := by
                intro hc₁
                rcases honly c hc₁ with hc₁ | rfl | hc₁
                · exact hco hc₁
                · simp at hcl
                · exact hcl (List.mem_append_left _ hc₁)
              have hpar : (s₁.obj (.copy c)).parent = some p := (h₁.parent c).trans hp
              have hsup : R.mustCall self p = some (.copy p) := by
                simp [Registrations.mustCall, hpm, hself p hpm]
              have hne : (MetaPtr.copy p) ≠ .copy c := by
                intro he
                cases he
                exact hco₁ hpo
              rw [hrec]
              by_cases hlt : s₁.globalId < kMaxClasses
              · refine .inl ⟨_, ord₁ ++ [c], pushNew tops₁ p, finishInit_child hpar hsup hne hlt,
                  h₁.child hc hco₁ hp hpo, hpre.trans (List.prefix_append _ _), by simp,
                  fun a ha => ?_⟩
                rcases List.mem_append.mp ha with ha | ha
                · rcases honly a ha with ha | ha | ha
                  · exact .inl ha
                  · exact .inr (.inr (by simp [ha]))
                  · exact .inr (.inr (List.mem_append_left _ ha))
                · exact .inr (.inl (List.mem_singleton.mp ha))
              · have hroom := h₁.globalId_lt hc hco₁
                exact .inr (.inl ⟨finishInit_full hlt, by omega⟩)
            · rw [hrec]
              exact .inr (.inl ⟨rfl, hfull⟩)
            · rw [hrec]
              refine .inr (.inr ⟨rfl, ?_⟩)
              simp only [List.length_append, List.length_singleton]
              omega

/-- With fuel for the lineage and room in `m_classes`, the call returns. -/
theorem recursiveInit_spec (hself : ∀ c ∈ R.classes, self c = .copy c) (hR : R.WellLinked)
    {c : κ} {l : List κ} (hl : Lineage R.parentOf c l) (hc : c ∈ R.classes)
    (h : Numbered R s ord tops) {fuel : Nat} (hfuel : l.length < fuel) :
    ∃ s' ord' tops', recursiveInit (R.mustCall self) fuel (.copy c) s = .ok s'
      ∧ Numbered R s' ord' tops' ∧ ord <+: ord' ∧ c ∈ ord'
      ∧ ∀ a ∈ ord', a ∈ ord ∨ a = c ∨ a ∈ l := by
  rcases recursiveInit_ends hself hR.parent_mem hl hc h fuel with hok | ⟨_, hfull⟩ | ⟨_, hshort⟩
  · exact hok
  · exact absurd hR.count (by omega)
  · exact absurd hfuel (by omega)

end Recursion

end SkyEngine.Meta
