import SkyEngine.Meta.Registry

/-!
# Meta — Termination

When `m_RecursiveInit` ends. The recursion stops at a class that has an id
or no parent, and a class gets its id only after its parent's call is back;
so the call ends exactly on the classes whose parent chain does. The guard
`superClass != mc` comes too late for a class that is its own parent.

Nothing is assumed about cycles or about the number of classes.
-/

namespace SkyEngine.Meta

open Function
open Forest Position

variable {κ : Type} [DecidableEq κ] {R : Registrations κ}

/-! ## Calls that do not end -/

section Recursion

variable {self : κ → MetaPtr κ} {s : InitState κ} {ord tops : List κ}

/-- The chain of a numbered class ends: ids fall along it. -/
theorem Ids.exists_lineage {obj : MetaPtr κ → MetaClass κ} (h : Ids R obj ord tops) {c : κ}
    (hc : c ∈ ord) : ∃ l, Lineage R.parentOf c l := by
  generalize hn : (position ord c).toNat = n
  induction n using Nat.strongRecOn generalizing c with
  | ind n ih =>
      cases hp : R.parentOf c with
      | none => exact ⟨[], .root hp⟩
      | some p =>
          obtain ⟨hpo, hlt⟩ := h.parent_lt c hc p hp
          have hrange := position_range hpo
          obtain ⟨l, hl⟩ := ih (position ord p).toNat (by omega) hpo rfl
          exact ⟨l ++ [p], .child hp hl⟩

/-- On a class whose chain does not end the recursion uses up all fuel. -/
theorem recursiveInit_diverges (hself : ∀ c ∈ R.classes, self c = .copy c)
    (hR : R.ParentsRegistered) (h : Numbered R s ord tops) {c : κ}
    (hno : ¬ ∃ l, Lineage R.parentOf c l) (fuel : Nat) :
    recursiveInit (R.mustCall self) fuel (.copy c) s = .error .outOfFuel := by
  induction fuel generalizing c with
  | zero => rfl
  | succ fuel ih =>
      have hco : c ∉ ord := fun hc => hno (h.exists_lineage hc)
      have hid : ¬ (s.obj (.copy c)).globalId ≠ -1 := by simpa [h.id_eq] using hco
      rw [recursiveInit, if_neg hid, superOf_copy hself hR (h.parent c)]
      cases hp : R.parentOf c with
      | none => exact absurd ⟨[], .root hp⟩ hno
      | some p =>
          have hnop : ¬ ∃ l, Lineage R.parentOf p l := by
            rintro ⟨l, hl⟩
            exact hno ⟨l ++ [p], .child hp hl⟩
          show (do
            let s ← recursiveInit (R.mustCall self) fuel (.copy p) s
            finishInit (R.mustCall self) (.copy c) s) = _
          rw [ih hnop]
          rfl

end Recursion

/-! ## States of the class loop -/

/-- A state of the class loop of `Initialize`: some of the walk is done. -/
def LoopState (R : Registrations κ) (walk : List (MetaPtr κ))
    (st : InitState κ × (Fin kMaxClasses → MetaPtr κ)) : Prop :=
  ∃ visited todo fuel, walk = visited ++ todo
    ∧ visited.foldlM (visitClass (R.mustCall R.copyMetaTypes.self) fuel)
        ({ obj := R.copyMetaTypes.obj, globalId := 0, topoId := 0 },
          fun _ => R.copyMetaTypes.self R.voidType) = .ok st

/-- A turn that returns keeps the invariant, cycles or not. -/
theorem visitClass_numbered {self : κ → MetaPtr κ} (hself : ∀ c ∈ R.classes, self c = .copy c)
    (hR : R.ParentsRegistered) {fuel : Nat} {c : κ} (hc : c ∈ R.classes)
    {st st' : InitState κ × (Fin kMaxClasses → MetaPtr κ)} {ord tops : List κ}
    (h : Numbered R st.1 ord tops)
    (hvisit : visitClass (R.mustCall self) fuel st (.copy c) = .ok st') :
    ∃ ord' tops', Numbered R st'.1 ord' tops' := by
  obtain ⟨s, hrec, hrest⟩ := bind_ok hvisit
  obtain ⟨classes, _, hret⟩ := bind_ok hrest
  cases hret
  by_cases hl : ∃ l, Lineage R.parentOf c l
  · obtain ⟨l, hl⟩ := hl
    rcases recursiveInit_ends hself hR hl hc h fuel with ⟨s', ord', tops', hok, hnum, _⟩
      | ⟨hfail, _⟩ | ⟨hfail, _⟩
    · cases hok.symm.trans hrec
      exact ⟨ord', tops', hnum⟩
    · cases hfail.symm.trans hrec
    · cases hfail.symm.trans hrec
  · cases (recursiveInit_diverges hself hR h hl fuel).symm.trans hrec

theorem foldlM_visitClass_numbered {self : κ → MetaPtr κ}
    (hself : ∀ c ∈ R.classes, self c = .copy c) (hR : R.ParentsRegistered) {fuel : Nat}
    (visited : List (MetaPtr κ)) (hsub : ∀ mc ∈ visited, ∃ c ∈ R.classes, mc = .copy c)
    {st st' : InitState κ × (Fin kMaxClasses → MetaPtr κ)} {ord tops : List κ}
    (h : Numbered R st.1 ord tops)
    (hloop : visited.foldlM (visitClass (R.mustCall self) fuel) st = .ok st') :
    ∃ ord' tops', Numbered R st'.1 ord' tops' := by
  induction visited generalizing st ord tops with
  | nil =>
      cases hloop
      exact ⟨ord, tops, h⟩
  | cons mc rest ih =>
      rw [List.foldlM_cons] at hloop
      obtain ⟨st₁, hvisit, hrest⟩ := bind_ok hloop
      obtain ⟨c, hc, rfl⟩ := hsub mc (by simp)
      obtain ⟨ord₁, tops₁, h₁⟩ := visitClass_numbered hself hR hc h hvisit
      exact ih (fun mc hmc => hsub mc (by simp [hmc])) h₁ hrest

/-- Every state of the loop is numbered. -/
theorem LoopState.numbered {walk : List (MetaPtr κ)} (hw : R.Walk walk)
    (hR : R.ParentsRegistered) {st : InitState κ × (Fin kMaxClasses → MetaPtr κ)}
    (h : LoopState R walk st) : ∃ ord tops, Numbered R st.1 ord tops := by
  obtain ⟨visited, todo, fuel, rfl, hloop⟩ := h
  refine foldlM_visitClass_numbered (fun c hc => copyMetaTypes_self hc) hR visited ?_
    numbered_start hloop
  intro mc hmc
  obtain ⟨c, hc, rfl⟩ := (mem_walk hw).mp (List.mem_append_left todo hmc)
  exact ⟨c, hc.mem_classes, rfl⟩

/-! ## Termination -/

/-- A call on `c` has taken `s` to `s'`: `c` and its ancestors have an id,
no two classes share one, none is skipped, and none changes. -/
structure NumberedOnce (R : Registrations κ) (c : κ) (s s' : InitState κ) : Prop where
  numbered : ∀ a, a = c ∨ Ancestor R.parentOf a c → (s'.obj (.copy a)).globalId ≠ -1
  distinct : ∀ a b, (s'.obj (.copy a)).globalId ≠ -1 →
    (s'.obj (.copy a)).globalId = (s'.obj (.copy b)).globalId → a = b
  used : ∀ i : Int, 0 ≤ i → i < s'.globalId →
    ∃ a ∈ R.classes, (s'.obj (.copy a)).globalId = i
  kept : ∀ a, (s.obj (.copy a)).globalId ≠ -1 →
    (s'.obj (.copy a)).globalId = (s.obj (.copy a)).globalId

/-- `m_RecursiveInit` on `c` ends, returns if `m_classes` has room for all
classes, and numbers as it should whenever it returns. -/
structure InitTerminates (R : Registrations κ) (s : InitState κ) (c : κ) : Prop where
  ends : ∃ fuel, recursiveInit (R.mustCall R.copyMetaTypes.self) fuel (.copy c) s
    ≠ .error .outOfFuel
  returns : R.classes.length ≤ kMaxClasses →
    ∃ fuel s', recursiveInit (R.mustCall R.copyMetaTypes.self) fuel (.copy c) s = .ok s'
  numbers : ∀ fuel s', recursiveInit (R.mustCall R.copyMetaTypes.self) fuel (.copy c) s = .ok s' →
    NumberedOnce R c s s'

/-- The two orders before and after a call, read as ids. -/
theorem Numbered.once {s s' : InitState κ} {ord tops ord' tops' : List κ}
    (h : Numbered R s ord tops) (h' : Numbered R s' ord' tops') (hpre : ord <+: ord') {c : κ}
    {l : List κ} (hl : Lineage R.parentOf c l) (hc : c ∈ ord') : NumberedOnce R c s s' where
  numbered := by
    intro a ha
    rw [h'.id_eq, ne_eq, position_eq_neg_one, not_not]
    rcases ha with rfl | hanc
    · exact hc
    · exact (h'.lineage_sub hl hc a (hl.mem_iff.mpr hanc)).1
  distinct := by
    intro a b ha hab
    rw [h'.id_eq, ne_eq, position_eq_neg_one, not_not] at ha
    rw [h'.id_eq, h'.id_eq] at hab
    exact position_inj ha hab
  used := by
    intro i h0 hi
    rw [h'.globalId] at hi
    obtain ⟨a, ha, hai⟩ := exists_position h'.ord_nodup h0 hi
    exact ⟨a, h'.ord_sub a ha, (h'.id_eq a).trans hai⟩
  kept := by
    intro a ha
    rw [h.id_eq, ne_eq, position_eq_neg_one, not_not] at ha
    rw [h'.id_eq, h.id_eq, position_of_extends hpre ha]

/-- **Where class initialisation terminates**: in every state of the class
loop, the call on a class ends, with the class and its ancestors numbered
once, exactly if the parent chain of the class ends at one without a
parent. -/
theorem initTerminates_iff (hR : R.ParentsRegistered) {walk : List (MetaPtr κ)}
    (hw : R.Walk walk) {st : InitState κ × (Fin kMaxClasses → MetaPtr κ)}
    (hst : LoopState R walk st) {c : κ} (hc : c ∈ R.classes) :
    InitTerminates R st.1 c ↔ ∃ l, Lineage R.parentOf c l := by
  have hself : ∀ c ∈ R.classes, R.copyMetaTypes.self c = .copy c :=
    fun c hc => copyMetaTypes_self hc
  obtain ⟨ord, tops, h⟩ := hst.numbered hw hR
  constructor
  · intro hterm
    obtain ⟨fuel, hends⟩ := hterm.ends
    by_contra hno
    exact hends (recursiveInit_diverges hself hR h hno fuel)
  · rintro ⟨l, hl⟩
    have hends := recursiveInit_ends hself hR hl hc h
    constructor
    case ends =>
      refine ⟨l.length + 1, ?_⟩
      rcases hends (l.length + 1) with ⟨s', _, _, hok, _⟩ | ⟨hfail, _⟩ | ⟨_, hshort⟩
      · simp [hok]
      · simp [hfail]
      · omega
    case returns =>
      intro hroom
      refine ⟨l.length + 1, ?_⟩
      rcases hends (l.length + 1) with ⟨s', _, _, hok, _⟩ | ⟨_, hfull⟩ | ⟨_, hshort⟩
      · exact ⟨s', hok⟩
      · omega
      · omega
    case numbers =>
      intro fuel s' hrec
      rcases hends fuel with ⟨s₁, ord', tops', hok, hnum, hpre, hco, _⟩ | ⟨hfail, _⟩
        | ⟨hfail, _⟩
      · cases hok.symm.trans hrec
        exact h.once hnum hpre hl hco
      · cases hfail.symm.trans hrec
      · cases hfail.symm.trans hrec

/-! ## Small programs -/

inductive LinkType where
  | void | metaSystem | root | leaf
  deriving DecidableEq, Repr

/-- A class `Leaf` below a class `Root` whose parent is `parent`. -/
def linkProgram (parent : Option LinkType) : Registrations LinkType where
  types :=
    [⟨.leaf, "Leaf", .cls (some .root)⟩, ⟨.root, "Root", .cls parent⟩,
     ⟨.metaSystem, "MetaSystemExample", .cls none⟩, ⟨.void, "void", .cls none⟩]
  functions := []
  voidType := .void
  systemType := .metaSystem
  type_nodup := by simp
  void_mem := ⟨⟨.void, "void", .cls none⟩, by simp, rfl, rfl⟩
  system_mem := ⟨⟨.metaSystem, "MetaSystemExample", .cls none⟩, by simp, rfl, rfl⟩

def linkStart (parent : Option LinkType) :
    InitState LinkType × (Fin kMaxClasses → MetaPtr LinkType) :=
  ({ obj := (linkProgram parent).copyMetaTypes.obj, globalId := 0, topoId := 0 },
    fun _ => (linkProgram parent).copyMetaTypes.self .void)

theorem linkStart_loopState (parent : Option LinkType) (walk : List (MetaPtr LinkType)) :
    LoopState (linkProgram parent) walk (linkStart parent) := ⟨[], walk, 0, rfl, rfl⟩

theorem initTerminates_iff_root :
    InitTerminates (linkProgram none) (linkStart none).1 .leaf := by
  have hparents : (linkProgram none).ParentsRegistered := by
    intro c p
    cases c <;> revert p <;> decide
  have hlineage : Lineage (linkProgram none).parentOf .leaf [.root] :=
    .child (l := []) (by decide) (.root (by decide))
  exact (initTerminates_iff hparents (List.Perm.refl _) (linkStart_loopState none _)
    (by decide)).mpr ⟨_, hlineage⟩

/-- A `Root` that names itself as its parent is asked for its parent before
it has an id, again and again. -/
theorem self_parent_diverges :
    (linkProgram (some .root)).ParentsRegistered
      ∧ (linkProgram (some .root)).parentOf .leaf = some .root
      ∧ (linkProgram (some .root)).parentOf .root = some .root
      ∧ (∀ c, c = .void ∨ c = .metaSystem → (linkProgram (some .root)).parentOf c = none)
      ∧ ∀ c, c = .root ∨ c = .leaf → ∀ fuel,
        recursiveInit ((linkProgram (some .root)).mustCall
          (linkProgram (some .root)).copyMetaTypes.self) fuel (.copy c)
            (linkStart (some .root)).1 = .error .outOfFuel := by
  have hparents : (linkProgram (some .root)).ParentsRegistered := by
    intro c p
    cases c <;> revert p <;> decide
  have hroot : (linkProgram (some .root)).parentOf .root = some .root := by decide
  have hleaf : (linkProgram (some .root)).parentOf .leaf = some .root := by decide
  have hno : ¬ ∃ l, Lineage (linkProgram (some .root)).parentOf .root l := by
    rintro ⟨l, hl⟩
    have hmem := hl.mem_iff.mpr (.parent hroot)
    exact hl.not_mem_self hmem
  have hothers : ∀ c, c = .void ∨ c = .metaSystem →
      (linkProgram (some .root)).parentOf c = none := by
    intro c
    cases c <;> decide
  refine ⟨hparents, hleaf, hroot, hothers, ?_⟩
  rintro c hc fuel
  refine recursiveInit_diverges (fun c hc => copyMetaTypes_self hc) hparents numbered_start ?_ fuel
  rcases hc with rfl | rfl
  · exact hno
  · rintro ⟨l, hl⟩
    cases hl with
    | root h => exact absurd (h.symm.trans hleaf) (by simp)
    | child hp hl' =>
        cases hp.symm.trans hleaf
        exact hno ⟨_, hl'⟩

end SkyEngine.Meta
