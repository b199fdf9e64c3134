import Mathlib.Data.List.Infix

/-!
# Lib — Lifetimes

A log of what a program does to the objects it makes: constructions,
destructor calls, and storage handed to an allocator. Destructor calls and
releases carry a bare address, so which object they hit is read off the
log: it is the last one made at that address.

Logs are newest first. `ι` names objects, `κ` are classes, `ω` allocators.
-/

namespace Lifetimes

/-- An object as it was made. -/
structure Object (ι κ ω : Type) where
  id : ι
  cls : κ
  owner : ω
  addr : Int
  deriving DecidableEq

inductive Event (ι κ ω : Type) where
  | made (o : Object ι κ ω)
  | destroy (cls : κ) (addr : Int)
  | release (owner : ω) (addr : Int)
  deriving DecidableEq

abbrev Log (ι κ ω : Type) := List (Event ι κ ω)

variable {ι κ ω : Type}

/-- The last object made at an address. -/
def occupant : Log ι κ ω → Int → Option (Object ι κ ω)
  | [], _ => none
  | .made o :: past, a => if o.addr = a then some o else occupant past a
  | .destroy _ _ :: past, a => occupant past a
  | .release _ _ :: past, a => occupant past a

def Event.destroyed : Event ι κ ω → Option Int
  | .destroy _ a => some a
  | _ => none

def Event.released : Event ι κ ω → Option Int
  | .release _ a => some a
  | _ => none

theorem occupant_made {log : Log ι κ ω} {a : Int} {o : Object ι κ ω}
    (h : occupant log a = some o) : .made o ∈ log ∧ o.addr = a := by
  induction log with
  | nil => cases h
  | cons e past ih =>
      cases e with
      | made o' =>
          rw [occupant] at h
          split at h
          · cases h
            exact ⟨by simp, by assumption⟩
          · exact ⟨List.mem_cons_of_mem _ (ih h).1, (ih h).2⟩
      | destroy c b => exact ⟨List.mem_cons_of_mem _ (ih h).1, (ih h).2⟩
      | release w b => exact ⟨List.mem_cons_of_mem _ (ih h).1, (ih h).2⟩

theorem occupant_append {es log : Log ι κ ω} (hends : ∀ o, .made o ∉ es) (a : Int) :
    occupant (es ++ log) a = occupant log a := by
  induction es with
  | nil => rfl
  | cons e es ih =>
      have ih := ih fun o ho => hends o (List.mem_cons_of_mem _ ho)
      cases e with
      | made o => exact absurd List.mem_cons_self (hends o)
      | destroy c a => exact ih
      | release w a => exact ih

variable [DecidableEq ι] [DecidableEq κ] [DecidableEq ω]

/-- How many events of one kind hit the object. -/
def hits (target : Event ι κ ω → Option Int) (o : Object ι κ ω) : Log ι κ ω → Nat
  | [] => 0
  | e :: past =>
      (if (target e).bind (occupant past) = some o then 1 else 0) + hits target o past

def destructions (o : Object ι κ ω) (log : Log ι κ ω) : Nat := hits Event.destroyed o log

def releases (o : Object ι κ ω) (log : Log ι κ ω) : Nat := hits Event.released o log

/-- The object's storage has not been given back. -/
def Live (log : Log ι κ ω) (o : Object ι κ ω) : Prop :=
  .made o ∈ log ∧ releases o log = 0

/-- **The life of every object is in order**: it is destroyed at most once
and released at most once, every destructor call and every release is at the
address of an object, and every release goes to the object's allocator. -/
structure Lifecycle (log : Log ι κ ω) : Prop where
  destroyed_once : ∀ o, .made o ∈ log → destructions o log ≤ 1
  released_once : ∀ o, .made o ∈ log → releases o log ≤ 1
  destroy_object : ∀ c a past, .destroy c a :: past <:+ log → ∃ o, occupant past a = some o
  release_owner : ∀ w a past, .release w a :: past <:+ log →
    ∃ o, occupant past a = some o ∧ o.owner = w

/-- The event is due after `log`: a destructor call where an undestroyed
object is, a release where an unreleased one of the allocator is. -/
def Event.Due (log : Log ι κ ω) : Event ι κ ω → Prop
  | .made _ => True
  | .destroy _ a => ∃ o, occupant log a = some o ∧ destructions o log = 0
  | .release w a => ∃ o, occupant log a = some o ∧ releases o log = 0 ∧ o.owner = w

/-- Each event, as it comes after those before it, is due. -/
def Due : Log ι κ ω → Log ι κ ω → Prop
  | [], _ => True
  | e :: es, log => Due es log ∧ e.Due (es ++ log)

/-- The invariant that carries `Lifecycle` through a run: nothing was made on
top of a live object. -/
structure Kept (log : Log ι κ ω) : Prop extends Lifecycle log where
  occupant_of_live : ∀ o, Live log o → occupant log o.addr = some o

/-! ## One event -/

theorem hits_eq_zero {target : Event ι κ ω → Option Int} {o : Object ι κ ω}
    {log : Log ι κ ω} (h : .made o ∉ log) : hits target o log = 0 := by
  induction log with
  | nil => rfl
  | cons e past ih =>
      have hpast : Event.made o ∉ past := fun hm => h (List.mem_cons_of_mem _ hm)
      have hmiss : (target e).bind (occupant past) ≠ some o := by
        intro hhit
        obtain ⟨a, _, ha⟩ := Option.bind_eq_some_iff.mp hhit
        exact hpast (occupant_made ha).1
      rw [hits, if_neg hmiss, ih hpast]

theorem hits_miss {target : Event ι κ ω → Option Int} {e : Event ι κ ω}
    (o : Object ι κ ω) (log : Log ι κ ω) (h : target e = none) :
    hits target o (e :: log) = hits target o log := by
  rw [hits, h]
  simp

theorem hits_at {target : Event ι κ ω → Option Int} {e : Event ι κ ω} {a : Int}
    {o' : Object ι κ ω} (o : Object ι κ ω) {log : Log ι κ ω} (h : target e = some a)
    (hocc : occupant log a = some o') :
    hits target o (e :: log) = (if o' = o then 1 else 0) + hits target o log := by
  rw [hits, h, Option.bind_some, hocc]
  simp

theorem Lifecycle.past {log : Log ι κ ω} {e : Event ι κ ω} (h : Lifecycle (e :: log)) :
    Lifecycle log := by
  have hsuffix : log <:+ e :: log := List.suffix_cons e log
  constructor
  case destroyed_once =>
    exact fun o hm => (Nat.le_add_left _ _).trans
      (h.destroyed_once o (List.mem_cons_of_mem _ hm))
  case released_once =>
    exact fun o hm => (Nat.le_add_left _ _).trans
      (h.released_once o (List.mem_cons_of_mem _ hm))
  case destroy_object => exact fun c a past hs => h.destroy_object c a past (hs.trans hsuffix)
  case release_owner => exact fun w a past hs => h.release_owner w a past (hs.trans hsuffix)

section Hit

variable {target : Event ι κ ω → Option Int} {e : Event ι κ ω} {a : Int} {o : Object ι κ ω}
  {log : Log ι κ ω}

/-- An object that is hit now was not hit before if once is all, -/
theorem hits_before (he : target e = some a) (hocc : occupant log a = some o)
    (honce : hits target o (e :: log) ≤ 1) : hits target o log = 0 := by
  rw [hits_at o he hocc, if_pos rfl] at honce
  omega

/-- and the other way round. -/
theorem hits_once (he : target e = some a) (hocc : occupant log a = some o)
    (hzero : hits target o log = 0) {o' : Object ι κ ω} (honce : hits target o' log ≤ 1) :
    hits target o' (e :: log) ≤ 1 := by
  rw [hits_at o' he hocc]
  by_cases heq : o = o'
  · rw [if_pos heq, ← heq, hzero]
  · rw [if_neg heq]
    omega

end Hit

/-- **A destructor call** keeps lives in order exactly when it is due. -/
theorem lifecycle_destroy {log : Log ι κ ω} {c : κ} {a : Int} :
    Lifecycle (.destroy c a :: log) ↔ Lifecycle log ∧ (Event.destroy c a).Due log := by
  have hmem : ∀ o, .made o ∈ (.destroy c a :: log : Log ι κ ω) → .made o ∈ log := by simp
  constructor
  · intro h
    obtain ⟨o, hocc⟩ := h.destroy_object c a log (List.suffix_refl _)
    have hmade := List.mem_cons_of_mem (.destroy c a) (occupant_made hocc).1
    exact ⟨h.past, o, hocc, hits_before rfl hocc (h.destroyed_once o hmade)⟩
  · rintro ⟨h, o, hocc, hzero⟩
    constructor
    case destroyed_once =>
      exact fun o' hm => hits_once rfl hocc hzero (h.destroyed_once o' (hmem o' hm))
    case released_once =>
      exact fun o' hm => (hits_miss o' log rfl).trans_le (h.released_once o' (hmem o' hm))
    case destroy_object =>
      intro c' a' past hs
      rcases List.suffix_cons_iff.mp hs with he | hs
      · cases he
        exact ⟨o, hocc⟩
      · exact h.destroy_object c' a' past hs
    case release_owner =>
      intro w a' past hs
      rcases List.suffix_cons_iff.mp hs with he | hs
      · cases he
      · exact h.release_owner w a' past hs

/-- **A release** does, too. -/
theorem lifecycle_release {log : Log ι κ ω} {w : ω} {a : Int} :
    Lifecycle (.release w a :: log) ↔ Lifecycle log ∧ (Event.release w a).Due log := by
  have hmem : ∀ o, .made o ∈ (.release w a :: log : Log ι κ ω) → .made o ∈ log := by simp
  constructor
  · intro h
    obtain ⟨o, hocc, howner⟩ := h.release_owner w a log (List.suffix_refl _)
    have hmade := List.mem_cons_of_mem (.release w a) (occupant_made hocc).1
    exact ⟨h.past, o, hocc, hits_before rfl hocc (h.released_once o hmade), howner⟩
  · rintro ⟨h, o, hocc, hzero, howner⟩
    constructor
    case destroyed_once =>
      exact fun o' hm => (hits_miss o' log rfl).trans_le (h.destroyed_once o' (hmem o' hm))
    case released_once =>
      exact fun o' hm => hits_once rfl hocc hzero (h.released_once o' (hmem o' hm))
    case destroy_object =>
      intro c a' past hs
      rcases List.suffix_cons_iff.mp hs with he | hs
      · cases he
      · exact h.destroy_object c a' past hs
    case release_owner =>
      intro w' a' past hs
      rcases List.suffix_cons_iff.mp hs with he | hs
      · cases he
        exact ⟨o, hocc, howner⟩
      · exact h.release_owner w' a' past hs

/-- A new object, under a new name. -/
theorem Lifecycle.made {log : Log ι κ ω} (h : Lifecycle log) {o : Object ι κ ω}
    (hnew : ∀ o', .made o' ∈ log → o'.id ≠ o.id) : Lifecycle (.made o :: log) := by
  have hfresh : Event.made o ∉ log := fun hm => hnew o hm rfl
  have honce : ∀ target o', target (.made o) = none →
      (.made o' ∈ log → hits target o' log ≤ 1) →
      .made o' ∈ (.made o :: log : Log ι κ ω) → hits target o' (.made o :: log) ≤ 1 := by
    intro target o' hmiss hle hm
    rw [hits_miss o' log hmiss]
    rcases List.mem_cons.mp hm with he | hm
    · cases he
      rw [hits_eq_zero hfresh]
      exact Nat.zero_le 1
    · exact hle hm
  constructor
  case destroyed_once => exact fun o' => honce _ o' rfl (h.destroyed_once o')
  case released_once => exact fun o' => honce _ o' rfl (h.released_once o')
  case destroy_object =>
    intro c a past hs
    rcases List.suffix_cons_iff.mp hs with he | hs
    · cases he
    · exact h.destroy_object c a past hs
  case release_owner =>
    intro w a past hs
    rcases List.suffix_cons_iff.mp hs with he | hs
    · cases he
    · exact h.release_owner w a past hs

/-- Where no live object is. -/
theorem Kept.made {log : Log ι κ ω} (h : Kept log) {o : Object ι κ ω}
    (hnew : ∀ o', .made o' ∈ log → o'.id ≠ o.id)
    (hspace : ∀ o', Live log o' → o'.addr ≠ o.addr) : Kept (.made o :: log) where
  toLifecycle := h.toLifecycle.made hnew
  occupant_of_live := by
    rintro o' ⟨hm, hrel⟩
    have hrel' : releases o' log = 0 := (hits_miss o' log rfl).symm.trans hrel
    rcases List.mem_cons.mp hm with he | hm
    · cases he
      exact if_pos rfl
    · rw [occupant, if_neg (hspace o' ⟨hm, hrel'⟩).symm]
      exact h.occupant_of_live o' ⟨hm, hrel'⟩

/-! ## Several events -/

/-- **What ends objects** keeps their lives in order exactly when each event
is due. -/
theorem lifecycle_append {es log : Log ι κ ω} (hends : ∀ o, .made o ∉ es) :
    Lifecycle (es ++ log) ↔ Lifecycle log ∧ Due es log := by
  induction es with
  | nil => exact (and_iff_left trivial).symm
  | cons e es ih =>
      have ih := ih fun o ho => hends o (List.mem_cons_of_mem _ ho)
      have hcons : Lifecycle (e :: (es ++ log)) ↔ Lifecycle (es ++ log) ∧ e.Due (es ++ log) := by
        cases e with
        | made o => exact absurd List.mem_cons_self (hends o)
        | destroy c a => exact lifecycle_destroy
        | release w a => exact lifecycle_release
      exact hcons.trans ((and_congr_left' ih).trans and_assoc)

/-- Objects that are live after more events were so before. -/
theorem Live.of_append {es log : Log ι κ ω} (hends : ∀ o, .made o ∉ es) {o : Object ι κ ω}
    (h : Live (es ++ log) o) : Live log o := by
  obtain ⟨hm, hrel⟩ := h
  refine ⟨(List.mem_append.mp hm).resolve_left (hends o), ?_⟩
  have hle : ∀ l : Log ι κ ω, releases o log ≤ releases o (l ++ log) := by
    intro l
    induction l with
    | nil => exact Nat.le_refl _
    | cons e l ih => exact ih.trans (Nat.le_add_left _ _)
  exact Nat.le_zero.mp ((hle es).trans_eq hrel)

/-- A live object was not released by what came last. -/
theorem Live.not_released {es log : Log ι κ ω} (hends : ∀ o, .made o ∉ es) {o : Object ι κ ω}
    (h : Live (es ++ log) o) (hocc : occupant log o.addr = some o) (w : ω) :
    .release w o.addr ∉ es := by
  intro hin
  obtain ⟨newer, older, rfl⟩ := List.append_of_mem hin
  have hends' : ∀ o', .made o' ∉ newer := fun o' ho => hends o' (List.mem_append_left _ ho)
  have hold : ∀ o', .made o' ∉ older := fun o' ho =>
    hends o' (List.mem_append_right _ (List.mem_cons_of_mem _ ho))
  have hlive : Live (newer ++ (.release w o.addr :: (older ++ log))) o := by
    rw [← List.cons_append, ← List.append_assoc]
    exact h
  obtain ⟨_, hrel⟩ := hlive.of_append hends'
  have hhit : releases o (.release w o.addr :: (older ++ log))
      = (if o = o then 1 else 0) + releases o (older ++ log) :=
    hits_at o rfl ((occupant_append hold o.addr).trans hocc)
  rw [if_pos rfl] at hhit
  omega

/-- Due events keep what they are due after. -/
theorem Kept.append {es log : Log ι κ ω} (h : Kept log) (hends : ∀ o, .made o ∉ es)
    (hdue : Due es log) : Kept (es ++ log) where
  toLifecycle := (lifecycle_append hends).mpr ⟨h.toLifecycle, hdue⟩
  occupant_of_live := by
    intro o hlive
    rw [occupant_append hends]
    exact h.occupant_of_live o (hlive.of_append hends)

end Lifetimes
