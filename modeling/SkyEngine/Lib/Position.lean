import Mathlib.Data.List.Basic
import Mathlib.Data.List.Nodup

/-!
# Lib — Position

Numbering the members of a list by their place in it, with `-1` for what
is not in the list: the numbering an "append when first seen" pass gives
out. Appending never changes the number of what is already there.
-/

namespace Position

variable {α : Type*} [DecidableEq α]

/-- The place of `a` in `l`, or `-1`. -/
def position (l : List α) (a : α) : Int :=
  if a ∈ l then (l.idxOf a : Int) else -1

theorem position_of_mem {l : List α} {a : α} (h : a ∈ l) :
    position l a = (l.idxOf a : Int) := if_pos h

@[simp] theorem position_eq_neg_one {l : List α} {a : α} : position l a = -1 ↔ a ∉ l := by
  unfold position
  split
  · rename_i h
    simp only [h, not_true_eq_false, iff_false]
    omega
  · rename_i h
    simp [h]

theorem position_range {l : List α} {a : α} (h : a ∈ l) :
    0 ≤ position l a ∧ position l a < l.length := by
  have hlt := List.idxOf_lt_length_of_mem h
  rw [position_of_mem h]
  omega

theorem position_inj {l : List α} {a b : α} (ha : a ∈ l) (h : position l a = position l b) :
    a = b := by
  have hb : b ∈ l := by
    by_contra hb
    rw [position_eq_neg_one.mpr hb] at h
    exact absurd ha (position_eq_neg_one.mp h)
  rw [position_of_mem ha, position_of_mem hb] at h
  exact (List.idxOf_inj ha).mp (by exact_mod_cast h)

/-- Every place of a duplicate-free list is somebody's number. -/
theorem exists_position {l : List α} (hl : l.Nodup) {i : Int} (h0 : 0 ≤ i)
    (hi : i < l.length) : ∃ a ∈ l, position l a = i := by
  obtain ⟨n, rfl⟩ := Int.eq_ofNat_of_zero_le h0
  have hn : n < l.length := by exact_mod_cast hi
  refine ⟨l[n], List.getElem_mem hn, ?_⟩
  rw [position_of_mem (List.getElem_mem hn), hl.idxOf_getElem n hn]

theorem position_append_of_mem {l l' : List α} {a : α} (h : a ∈ l) :
    position (l ++ l') a = position l a := by
  rw [position_of_mem h, position_of_mem (List.mem_append_left l' h),
    List.idxOf_append_of_mem h]

theorem position_append_self {l : List α} {a : α} (h : a ∉ l) :
    position (l ++ [a]) a = l.length := by
  rw [position_of_mem (by simp), List.idxOf_append_of_notMem h]
  simp

theorem position_append_ne {l : List α} {a b : α} (h : a ≠ b) :
    position (l ++ [b]) a = position l a := by
  by_cases ha : a ∈ l
  · exact position_append_of_mem ha
  · rw [position_eq_neg_one.mpr ha, position_eq_neg_one]
    simp [ha, h]

theorem position_of_extends {l l' : List α} (h : l <+: l') {a : α} (ha : a ∈ l) :
    position l' a = position l a := by
  obtain ⟨t, rfl⟩ := h
  exact position_append_of_mem ha

/-! ## Appending once -/

/-- Append `a` unless it is there already. -/
def pushNew (l : List α) (a : α) : List α :=
  if a ∈ l then l else l ++ [a]

@[simp] theorem mem_pushNew {l : List α} {a b : α} : b ∈ pushNew l a ↔ b ∈ l ∨ b = a := by
  unfold pushNew
  split
  · rename_i h
    constructor
    · exact .inl
    · rintro (hb | rfl)
      · exact hb
      · exact h
  · simp

theorem nodup_pushNew {l : List α} (h : l.Nodup) (a : α) : (pushNew l a).Nodup := by
  unfold pushNew
  split
  · exact h
  · rename_i ha
    refine List.nodup_append.mpr ⟨h, List.nodup_singleton a, ?_⟩
    intro b hb c hc hbc
    cases List.mem_singleton.mp hc
    exact ha (hbc ▸ hb)

theorem prefix_pushNew (l : List α) (a : α) : l <+: pushNew l a := by
  unfold pushNew
  split
  · exact List.prefix_rfl
  · exact List.prefix_append l [a]

theorem position_pushNew_ne {l : List α} {a b : α} (h : b ≠ a) :
    position (pushNew l a) b = position l b := by
  unfold pushNew
  split
  · rfl
  · exact position_append_ne h

theorem length_pushNew (l : List α) (a : α) :
    (pushNew l a).length = if a ∈ l then l.length else l.length + 1 := by
  unfold pushNew
  split <;> simp

end Position
