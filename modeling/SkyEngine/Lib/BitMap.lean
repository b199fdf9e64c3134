import Mathlib.Data.Nat.Find

/-!
# Lib — BitMap

A bit map over the bins of an allocator: marking and clearing a bit, and
finding the least marked bit above an index by the two's-complement tricks
`x & -x` and `(x << 1) | -(x << 1)`.
-/

namespace BitMap

variable {w : Nat}

/-- The map with bit `i` alone. -/
def idx2bit (i : Nat) : BitVec w := 1#w <<< i

def mark (x : BitVec w) (i : Nat) : BitVec w := x ||| idx2bit i

def clear (x : BitVec w) (i : Nat) : BitVec w := x &&& ~~~ idx2bit i

/-- The least set bit, isolated. -/
def leastBit (x : BitVec w) : BitVec w := x &&& -x

/-- Every bit to the left of the least set one. -/
def leftBits (x : BitVec w) : BitVec w := (x <<< 1) ||| -(x <<< 1)

/-- The index of the least set bit. -/
def bit2idx (x : BitVec w) : Nat := x.ctz.toNat

@[simp] theorem getLsbD_idx2bit (i j : Nat) :
    (idx2bit i : BitVec w).getLsbD j = (decide (i = j) && decide (j < w)) := by
  rw [idx2bit, BitVec.getLsbD_shiftLeft, BitVec.getLsbD_one]
  by_cases hj : j < w
  · by_cases hij : i = j
    · have hw : 0 < w := by omega
      simp [hij, hj, hw]
    · by_cases hlt : j < i
      · simp [hlt, hij]
      · have hne : j - i ≠ 0 := by omega
        simp [hij, hne]
  · simp [hj]

@[simp] theorem getLsbD_mark (x : BitVec w) (i j : Nat) :
    (mark x i).getLsbD j = (x.getLsbD j || (decide (i = j) && decide (j < w))) := by
  rw [mark, BitVec.getLsbD_or, getLsbD_idx2bit]

@[simp] theorem getLsbD_clear (x : BitVec w) (i j : Nat) :
    (clear x i).getLsbD j = (x.getLsbD j && decide (i ≠ j)) := by
  rw [clear, BitVec.getLsbD_and, BitVec.getLsbD_not, getLsbD_idx2bit]
  by_cases hj : j < w
  · simp [hj]
  · simp [hj, BitVec.getLsbD_of_ge x j (by omega)]

theorem mark_of_set {x : BitVec w} {i : Nat} (h : x.getLsbD i = true) : mark x i = x := by
  refine BitVec.eq_of_getLsbD_eq fun j hj => ?_
  rw [getLsbD_mark]
  by_cases hij : i = j
  · rw [← hij, h]
    rfl
  · rw [decide_eq_false hij, Bool.false_and, Bool.or_false]

/-- A map is empty when no bit is marked. -/
theorem eq_zero_iff {x : BitVec w} : x = 0#w ↔ ∀ j, x.getLsbD j = false := by
  constructor
  · rintro rfl j
    exact BitVec.getLsbD_zero
  · intro h
    refine BitVec.eq_of_getLsbD_eq fun j hj => ?_
    rw [h j, BitVec.getLsbD_zero]

theorem exists_of_ne_zero {x : BitVec w} (h : x ≠ 0#w) : ∃ j, x.getLsbD j = true := by
  by_contra hno
  refine h (eq_zero_iff.mpr fun j => ?_)
  cases hj : x.getLsbD j with
  | false => rfl
  | true => exact absurd ⟨j, hj⟩ hno

/-- The map answers for single bits. -/
theorem and_idx2bit_eq_zero {x : BitVec w} {i : Nat} (hi : i < w) :
    x &&& idx2bit i = 0#w ↔ x.getLsbD i = false := by
  rw [eq_zero_iff]
  constructor
  · intro h
    have hbit := h i
    rwa [BitVec.getLsbD_and, getLsbD_idx2bit, decide_eq_true rfl, decide_eq_true hi,
      Bool.and_true, Bool.and_true] at hbit
  · intro h j
    rw [BitVec.getLsbD_and, getLsbD_idx2bit]
    by_cases hij : i = j
    · rw [← hij, h]
      rfl
    · rw [decide_eq_false hij, Bool.false_and, Bool.and_false]

/-- Negation keeps the least set bit and turns over those above it. -/
theorem getLsbD_leastBit (x : BitVec w) (i : Nat) :
    (leastBit x).getLsbD i = true ↔ x.getLsbD i = true ∧ ∀ j < i, x.getLsbD j = false := by
  rw [leastBit, BitVec.getLsbD_and, BitVec.getLsbD_neg]
  constructor
  · intro h
    obtain ⟨hi, hneg⟩ := Bool.and_eq_true_iff.mp h
    have hlt : i < w := BitVec.lt_of_getLsbD hi
    refine ⟨hi, fun j hj => ?_⟩
    cases hxj : x.getLsbD j with
    | false => rfl
    | true =>
        have hex : ∃ j < i, x.getLsbD j = true := ⟨j, hj, hxj⟩
        rw [hi, decide_eq_true hlt, decide_eq_true hex] at hneg
        cases hneg
  · rintro ⟨hi, hlow⟩
    have hno : ¬ ∃ j < i, x.getLsbD j = true := by
      rintro ⟨j, hj, hxj⟩
      rw [hlow j hj] at hxj
      cases hxj
    rw [hi, decide_eq_false hno, Bool.and_false, Bool.xor_false, Bool.and_true]

/-- **The least set bit is found**: `bit2idx (leastBit x)` is marked in `x`
and nothing below it is. -/
theorem bit2idx_leastBit {x : BitVec w} (h : x ≠ 0#w) :
    x.getLsbD (bit2idx (leastBit x)) = true
      ∧ ∀ j < bit2idx (leastBit x), x.getLsbD j = false := by
  obtain ⟨k, hk⟩ : ∃ k, (leastBit x).getLsbD k = true := by
    obtain ⟨j, hj⟩ := exists_of_ne_zero h
    have hex : ∃ j, x.getLsbD j = true := ⟨j, hj⟩
    refine ⟨Nat.find hex, (getLsbD_leastBit x _).mpr ⟨Nat.find_spec hex, fun i hi => ?_⟩⟩
    simpa using Nat.find_min hex hi
  have hne : leastBit x ≠ 0 := by
    intro he
    rw [he] at hk
    simp at hk
  exact (getLsbD_leastBit x _).mp (BitVec.getLsbD_true_ctz_of_ne_zero hne)

/-- The bits to the left of one bit are those above it. -/
theorem getLsbD_leftBits_idx2bit (i j : Nat) :
    (leftBits (idx2bit i : BitVec w)).getLsbD j = (decide (i < j) && decide (j < w)) := by
  have hshift : ∀ k, ((idx2bit i : BitVec w) <<< 1).getLsbD k
      = (decide (i + 1 = k) && decide (k < w)) := by
    intro k
    rw [BitVec.getLsbD_shiftLeft, getLsbD_idx2bit]
    by_cases hk : k < w
    · cases k with
      | zero => simp
      | succ k =>
          have hkw : k < w := by omega
          simp [hk, hkw]
    · simp [hk]
  rw [leftBits, BitVec.getLsbD_or, BitVec.getLsbD_neg, hshift]
  by_cases hj : j < w
  · by_cases hij : i < j
    · by_cases he : i + 1 = j
      · simp [he, hj, hij]
      · have hex : ∃ k < j, ((idx2bit i : BitVec w) <<< 1).getLsbD k = true :=
          ⟨i + 1, by omega, by simp [hshift]; omega⟩
        rw [decide_eq_true hij, decide_eq_false he, decide_eq_true hex, decide_eq_true hj]
        rfl
    · have hne : i + 1 ≠ j := by omega
      have hno : ¬ ∃ k < j, ((idx2bit i : BitVec w) <<< 1).getLsbD k = true := by
        rintro ⟨k, hk, hset⟩
        rw [hshift] at hset
        simp at hset
        omega
      rw [decide_eq_false hne, decide_eq_false hij, decide_eq_false hno, decide_eq_true hj]
      rfl
  · simp [hj]

end BitMap
