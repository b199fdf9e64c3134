import Mathlib.Data.Set.Finite.Basic
import Mathlib.Logic.Relation
import Mathlib.Order.WellFounded

/-!
# Lib — Forest

Forests given by parent links. `par c = some p` reads "`p` is the parent
of `c`", `none` marks a root. Nothing is assumed about the link function
unless a lemma says so, so a cyclic one can be talked about too.

* `Ancestor par a c` — `a` is a proper ancestor of `c`;
* `Lineage par c l` — `l` lists the proper ancestors of `c` from the root
  down to its parent. Having a lineage is what "the parent chain of `c`
  ends" means, and it is the measure every recursion along parent links
  goes down on.
-/

namespace Forest

variable {α : Type*} {par : α → Option α}

/-- `a` is a proper ancestor of `c`. -/
def Ancestor (par : α → Option α) (a c : α) : Prop :=
  Relation.TransGen (fun p c => par c = some p) a c

/-- No element is its own proper ancestor. -/
def Acyclic (par : α → Option α) : Prop := ∀ a, ¬ Ancestor par a a

/-- `l` lists the proper ancestors of `c`, root first, parent last. -/
inductive Lineage (par : α → Option α) : α → List α → Prop
  | root {c} : par c = none → Lineage par c []
  | child {c p l} : par c = some p → Lineage par p l → Lineage par c (l ++ [p])

/-! ## Ancestors -/

theorem Ancestor.parent {p c : α} (h : par c = some p) : Ancestor par p c :=
  .single h

theorem Ancestor.trans {a b c : α} (hab : Ancestor par a b) (hbc : Ancestor par b c) :
    Ancestor par a c :=
  Relation.TransGen.trans hab hbc

/-- The last link of an ancestor path is the parent link of its end. -/
theorem ancestor_iff_of_parent {a p c : α} (h : par c = some p) :
    Ancestor par a c ↔ a = p ∨ Ancestor par a p := by
  constructor
  · intro hac
    cases hac with
    | single hac => exact .inl (Option.some.inj (hac.symm.trans h))
    | tail hab hbc =>
        cases Option.some.inj (hbc.symm.trans h)
        exact .inr hab
  · rintro (rfl | hap)
    · exact .parent h
    · exact hap.trans (.parent h)

theorem not_ancestor_of_root {a c : α} (h : par c = none) : ¬ Ancestor par a c := by
  intro hac
  cases hac with
  | single hac => simp [h] at hac
  | tail _ hbc => simp [h] at hbc

/-- Everything below an element has a child of that element above it. -/
theorem Ancestor.exists_child {a c : α} (h : Ancestor par a c) :
    ∃ b, par b = some a := by
  induction h with
  | single h => exact ⟨_, h⟩
  | tail _ _ ih => exact ih

/-- A rank that grows along the links rules out cycles. -/
theorem acyclic_of_rank (rank : α → Nat)
    (h : ∀ c p, par c = some p → rank p < rank c) : Acyclic par := by
  have hanc : ∀ a c, Ancestor par a c → rank a < rank c := by
    intro a c hac
    induction hac with
    | single hb => exact h _ _ hb
    | tail _ hbc ih => exact ih.trans (h _ _ hbc)
  exact fun a ha => absurd (hanc a a ha) (by omega)

/-! ## Lineages -/

/-- A lineage is determined by its element. -/
theorem Lineage.unique {c : α} {l l' : List α} (h : Lineage par c l)
    (h' : Lineage par c l') : l = l' := by
  induction h generalizing l' with
  | root hc =>
      cases h' with
      | root _ => rfl
      | child hp _ => simp [hc] at hp
  | child hp _ ih =>
      cases h' with
      | root hc => simp [hc] at hp
      | child hp' hl' =>
          cases Option.some.inj (hp.symm.trans hp')
          rw [ih hl']

/-- A lineage contains the lineage of each of its members as a prefix. -/
theorem Lineage.split {c : α} {l : List α} (h : Lineage par c l) {a : α} (ha : a ∈ l) :
    ∃ l₁ l₂, l = l₁ ++ a :: l₂ ∧ Lineage par a l₁ := by
  induction h with
  | root _ => cases ha
  | @child c p l _ hl ih =>
      rcases List.mem_append.mp ha with ha | ha
      · obtain ⟨l₁, l₂, rfl, h₁⟩ := ih ha
        exact ⟨l₁, l₂ ++ [p], by simp, h₁⟩
      · cases List.mem_singleton.mp ha
        exact ⟨l, [], rfl, hl⟩

theorem Lineage.not_mem_self {c : α} {l : List α} (h : Lineage par c l) : c ∉ l := by
  intro hc
  obtain ⟨l₁, l₂, hl, h₁⟩ := h.split hc
  have hlen := congrArg List.length (hl.symm.trans (h₁.unique h).symm)
  simp at hlen

theorem Lineage.nodup {c : α} {l : List α} (h : Lineage par c l) : l.Nodup := by
  induction h with
  | root _ => exact List.nodup_nil
  | child _ hl ih =>
      refine List.nodup_append.mpr ⟨ih, List.nodup_singleton _, ?_⟩
      intro a ha b hb hab
      cases List.mem_singleton.mp hb
      exact hl.not_mem_self (hab ▸ ha)

/-- **Membership is ancestry**. -/
theorem Lineage.mem_iff {c : α} {l : List α} (h : Lineage par c l) {a : α} :
    a ∈ l ↔ Ancestor par a c := by
  induction h with
  | root hc => simp [not_ancestor_of_root hc]
  | child hp _ ih =>
      rw [ancestor_iff_of_parent hp, ← ih, List.mem_append, List.mem_singleton, or_comm]

/-- A lineage below a set closed under parents stays in the set. -/
theorem Lineage.subset {s : Set α} (hs : ∀ c ∈ s, ∀ p, par c = some p → p ∈ s)
    {c : α} {l : List α} (h : Lineage par c l) (hc : c ∈ s) : ∀ a ∈ l, a ∈ s := by
  induction h with
  | root _ => intro a ha; cases ha
  | child hp _ ih =>
      intro a ha
      have hps := hs _ hc _ hp
      rcases List.mem_append.mp ha with ha | ha
      · exact ih hps a ha
      · exact List.mem_singleton.mp ha ▸ hps

/-- **Chains end**: in a finite set closed under parents, acyclic links
give every element a lineage. -/
theorem exists_lineage {s : Set α} (hfin : s.Finite)
    (hs : ∀ c ∈ s, ∀ p, par c = some p → p ∈ s) (hacyc : Acyclic par) :
    ∀ c ∈ s, ∃ l, Lineage par c l := by
  -- acyclic on finitely many elements is well-founded on the subtype
  let r : s → s → Prop := fun p c => par c = some p.1
  have hlift : ∀ a b : s, Relation.TransGen r a b → Ancestor par a.1 b.1 :=
    fun a b h => Relation.TransGen.lift Subtype.val (fun _ _ h => h) a b h
  have hwf : WellFounded (Relation.TransGen r) := by
    have : Finite s := hfin
    have : IsTrans s (Relation.TransGen r) := ⟨fun _ _ _ => Relation.TransGen.trans⟩
    have : Std.Irrefl (Relation.TransGen r) := ⟨fun a h => hacyc a.1 (hlift a a h)⟩
    exact Finite.wellFounded_of_trans_of_irrefl _
  intro c hc
  obtain ⟨c', rfl⟩ : ∃ c' : s, c'.1 = c := ⟨⟨c, hc⟩, rfl⟩
  induction c' using hwf.induction with
  | _ c' ih =>
      cases hp : par c'.1 with
      | none => exact ⟨[], .root hp⟩
      | some p =>
          have hps := hs c'.1 c'.2 p hp
          obtain ⟨l, hl⟩ := ih ⟨p, hps⟩ (.single hp) hps
          exact ⟨l ++ [p], .child hp hl⟩

end Forest
