import SkyEngine.Mspace.Chunks
import SkyEngine.Lib.BitTrie
import Mathlib.Data.Nat.Log

/-!
# Mspace — TreeIndex

Which tree bin a chunk size belongs to (`compute_tree_index`). The bins cut
the sizes from 256 on into consecutive ranges, two for each power of two and
the rest in the last; inside a bin the size's remaining bits, shifted to the
top of a word, are the path through the tree.
-/

namespace SkyEngine.Mspace

open Word64

def ntreebins : Nat := 32

def treebinShift : Nat := 8

/-- `compute_tree_index`; `_BitScanReverse` finds the highest set bit. -/
def computeTreeIndex (s : Nat) : Nat :=
  let x := s >>> treebinShift
  if x = 0 then 0
  else if x > 0xFFFF then ntreebins - 1
  else
    let k := Nat.log2 x
    (k <<< 1) + ((s >>> (k + (treebinShift - 1))) &&& 1)

/-- Shift placing maximum resolved bit in a treebin at `i` as sign bit. -/
def leftshiftForTreeIndex (i : Nat) : Nat :=
  if i = ntreebins - 1 then 0 else 63 - ((i >>> 1) + treebinShift - 2)

/-- The size of the smallest chunk held in bin with index `i`. -/
def minsizeForTreeIndex (i : Nat) : Nat :=
  (1 <<< ((i >>> 1) + treebinShift)) ||| ((i &&& 1) <<< ((i >>> 1) + treebinShift - 1))

/-- The bits of a size, from the bin's highest on: what `K` shows at its top
while it is shifted left. -/
def treePath (s i : Nat) (n : Nat) : Bool :=
  shl (shl s (leftshiftForTreeIndex i)) n >>> 63 &&& 1 = 1

/-! ## The ranges of the bins -/

/-- The sizes of bin `i` start here. -/
def treeLow (i : Nat) : Nat := if i = ntreebins - 1 then 0 else minsizeForTreeIndex i

/-- The number of bits in which sizes of bin `i` differ. -/
def treeWidth (i : Nat) : Nat := if i = ntreebins - 1 then 64 else (i >>> 1) + 7

theorem minsize_eq {k b : Nat} (hb : b < 2) :
    minsizeForTreeIndex (2 * k + b) = (2 + b) * 2 ^ (k + 7) := by
  have hshift : (2 * k + b) >>> 1 = k := by
    rw [Nat.shiftRight_eq_div_pow]
    omega
  have hbit : (2 * k + b) &&& 1 = b := by
    have hlow : (2 * k + b) &&& 1 = (2 * k + b) % 2 := and_low _ 1
    omega
  rw [minsizeForTreeIndex, hshift, hbit, treebinShift, Nat.shiftLeft_eq, Nat.shiftLeft_eq]
  have hsub : k + 8 - 1 = k + 7 := rfl
  have hpow : 2 ^ (k + 8) = 2 * 2 ^ (k + 7) := by ring
  have hpos := Nat.two_pow_pos (k + 7)
  rw [hsub, one_mul, or_low (k := k + 8) (Nat.mod_self _)]
  · rw [hpow]
    ring
  · rw [hpow]
    exact Nat.mul_lt_mul_of_pos_right hb hpos

theorem computeTreeIndex_def (s : Nat) : computeTreeIndex s
    = if s >>> 8 = 0 then 0 else if s >>> 8 > 0xFFFF then 31
      else (Nat.log2 (s >>> 8) <<< 1) + ((s >>> (Nat.log2 (s >>> 8) + 7)) &&& 1) := rfl

theorem treeLow_of_ne {i : Nat} (h : i ≠ 31) : treeLow i = minsizeForTreeIndex i := if_neg h

theorem treeWidth_of_ne {i : Nat} (h : i ≠ 31) : treeWidth i = (i >>> 1) + 7 := if_neg h

/-- A size below the last bin: its highest bits tell the bin. -/
theorem computeTreeIndex_eq {s : Nat} (hmin : 256 ≤ s) (hmax : s >>> 8 ≤ 0xFFFF) :
    ∃ k b, k ≤ 15 ∧ b < 2 ∧ computeTreeIndex s = 2 * k + b
      ∧ (2 + b) * 2 ^ (k + 7) ≤ s ∧ s < (3 + b) * 2 ^ (k + 7) := by
  obtain ⟨x, hx⟩ : ∃ x, s >>> 8 = x := ⟨_, rfl⟩
  have hxdiv : x = s / 2 ^ 8 := by rw [← hx, Nat.shiftRight_eq_div_pow]
  have hx0 : x ≠ 0 := by omega
  rw [hx] at hmax
  obtain ⟨k, hk⟩ : ∃ k, Nat.log2 x = k := ⟨_, rfl⟩
  have hlow : 2 ^ k ≤ x := hk ▸ Nat.log2_self_le hx0
  have hhigh : x < 2 ^ (k + 1) := hk ▸ Nat.lt_log2_self
  have hk15 : k ≤ 15 := by
    by_contra hno
    have hpow : 2 ^ 16 ≤ 2 ^ k := Nat.pow_le_pow_right (by decide) (by omega)
    omega
  obtain ⟨q, hq⟩ : ∃ q, s / 2 ^ (k + 7) = q := ⟨_, rfl⟩
  have hs256 : 2 ^ k * 256 ≤ s ∧ s < 2 ^ (k + 1) * 256 := by omega
  have hpow8 : 2 ^ k * 256 = 2 * 2 ^ (k + 7) := by ring
  have hpow9 : 2 ^ (k + 1) * 256 = 4 * 2 ^ (k + 7) := by ring
  have hpos := Nat.two_pow_pos (k + 7)
  have hq2 : 2 ≤ q := by
    rw [← hq, Nat.le_div_iff_mul_le hpos]
    omega
  have hq4 : q < 4 := by
    rw [← hq, Nat.div_lt_iff_lt_mul hpos]
    omega
  have hidx : computeTreeIndex s = 2 * k + (q - 2) := by
    have hbit : (s >>> (k + 7)) &&& 1 = q - 2 := by
      have hand : (s >>> (k + 7)) &&& 1 = (s >>> (k + 7)) % 2 := and_low _ 1
      rw [hand, Nat.shiftRight_eq_div_pow, hq]
      omega
    rw [computeTreeIndex_def, hx, if_neg hx0, if_neg (by omega), hk, hbit, Nat.shiftLeft_eq]
    omega
  have hlo : q * 2 ^ (k + 7) ≤ s := by
    rw [← hq]
    exact Nat.div_mul_le_self _ _
  have hhi : s < (q + 1) * 2 ^ (k + 7) := by
    rw [← hq]
    have hdiv := Nat.div_add_mod s (2 ^ (k + 7))
    have hmod := Nat.mod_lt s hpos
    rw [Nat.add_mul, Nat.mul_comm]
    omega
  have hsplit : q = 2 + (q - 2) := by omega
  have hsplit' : q + 1 = 3 + (q - 2) := by omega
  rw [hsplit] at hlo
  rw [hsplit'] at hhi
  exact ⟨k, q - 2, hk15, by omega, hidx, hlo, hhi⟩

theorem computeTreeIndex_large {s : Nat} (hmax : 0xFFFF < s >>> 8) : computeTreeIndex s = 31 := by
  rw [computeTreeIndex_def, if_neg (by omega), if_pos hmax]

theorem computeTreeIndex_lt {s : Nat} (hmin : 256 ≤ s) : computeTreeIndex s < 32 := by
  by_cases hmax : s >>> 8 ≤ 0xFFFF
  · obtain ⟨k, b, hk, hb, hidx, _⟩ := computeTreeIndex_eq hmin hmax
    omega
  · rw [computeTreeIndex_large (by omega)]
    decide

/-- **Larger sizes go to later bins.** -/
theorem computeTreeIndex_mono {s t : Nat} (hmin : 256 ≤ s) (hle : s ≤ t) :
    computeTreeIndex s ≤ computeTreeIndex t := by
  by_cases htmax : t >>> 8 ≤ 0xFFFF
  · have hshift : s >>> 8 ≤ t >>> 8 := by
      rw [Nat.shiftRight_eq_div_pow, Nat.shiftRight_eq_div_pow]
      exact Nat.div_le_div_right hle
    obtain ⟨k, b, _, hb, hs, hslo, hshi⟩ := computeTreeIndex_eq hmin (by omega)
    obtain ⟨k', b', _, hb', ht, htlo, hthi⟩ := computeTreeIndex_eq (by omega) htmax
    rw [hs, ht]
    by_contra hgt
    rcases Nat.lt_or_ge k' k with hlt | hge
    · -- a later power of two starts above the whole of an earlier one
      have hpow : 2 ^ (k' + 1 + 7) ≤ 2 ^ (k + 7) := Nat.pow_le_pow_right (by decide) (by omega)
      have hdouble : 2 ^ (k' + 1 + 7) = 2 * 2 ^ (k' + 7) := by ring
      have h1 : 2 * 2 ^ (k + 7) ≤ (2 + b) * 2 ^ (k + 7) := Nat.mul_le_mul_right _ (by omega)
      have h2 : (3 + b') * 2 ^ (k' + 7) ≤ 4 * 2 ^ (k' + 7) := Nat.mul_le_mul_right _ (by omega)
      omega
    · have hk : k' = k := by omega
      have hbb : b' = 0 ∧ b = 1 := by omega
      rw [hk, hbb.1] at hthi
      rw [hbb.2] at hslo
      omega
  · rw [computeTreeIndex_large (s := t) (by omega)]
    have hlt := computeTreeIndex_lt hmin
    omega

/-- **A size lies in the range of its bin.** -/
theorem tree_range {s : Nat} (hmin : 256 ≤ s) (hlt : s < 2 ^ 64) :
    treeLow (computeTreeIndex s) ≤ s
      ∧ s < treeLow (computeTreeIndex s) + 2 ^ treeWidth (computeTreeIndex s) := by
  have hlast : computeTreeIndex s = 31 →
      treeLow (computeTreeIndex s) ≤ s
        ∧ s < treeLow (computeTreeIndex s) + 2 ^ treeWidth (computeTreeIndex s) := by
    intro h
    rw [h]
    have h0 : treeLow 31 = 0 := rfl
    have h64 : treeWidth 31 = 64 := rfl
    rw [h0, h64]
    omega
  by_cases hmax : s >>> 8 ≤ 0xFFFF
  · obtain ⟨k, b, hk, hb, hidx, hlo, hhi⟩ := computeTreeIndex_eq hmin hmax
    by_cases h31 : computeTreeIndex s = 31
    · exact hlast h31
    · have hne : 2 * k + b ≠ 31 := hidx ▸ h31
      have hshift : (2 * k + b) >>> 1 = k := by
        rw [Nat.shiftRight_eq_div_pow]
        omega
      rw [hidx, treeLow_of_ne hne, treeWidth_of_ne hne, minsize_eq hb, hshift]
      refine ⟨hlo, ?_⟩
      have hsum : (3 + b) * 2 ^ (k + 7) = (2 + b) * 2 ^ (k + 7) + 2 ^ (k + 7) := by ring
      omega
  · exact hlast (computeTreeIndex_large (by omega))

/-- **The shifted size is its path** through the tree of its bin. -/
theorem tree_path {s : Nat} (hmin : 256 ≤ s) (hlt : s < 2 ^ 64) :
    BitTrie.Path (treeWidth (computeTreeIndex s)) (treeLow (computeTreeIndex s)) s
      (treePath s (computeTreeIndex s)) := by
  obtain ⟨i, hi⟩ : ∃ i, computeTreeIndex s = i := ⟨_, rfl⟩
  have hrange := tree_range hmin hlt
  have hi32 := computeTreeIndex_lt hmin
  rw [hi] at hrange hi32 ⊢
  -- the width leaves out exactly the bits shifted away
  have hshift : treeWidth i + leftshiftForTreeIndex i = 64 := by
    by_cases h31 : i = 31
    · rw [h31]
      rfl
    · have hls : leftshiftForTreeIndex i = 63 - ((i >>> 1) + 8 - 2) := if_neg h31
      have hdiv : i >>> 1 = i / 2 := Nat.shiftRight_eq_div_pow i 1
      rw [treeWidth_of_ne h31, hls, hdiv]
      omega
  have hdvd : 2 ^ treeWidth i ∣ treeLow i := by
    by_cases h31 : i = 31
    · rw [h31]
      exact ⟨0, rfl⟩
    · have hsplit : i = 2 * (i / 2) + i % 2 := by omega
      have hdiv : i >>> 1 = i / 2 := Nat.shiftRight_eq_div_pow i 1
      have hmin' := minsize_eq (k := i / 2) (b := i % 2) (Nat.mod_lt _ (by decide))
      rw [← hsplit] at hmin'
      rw [treeLow_of_ne h31, treeWidth_of_ne h31, hmin', hdiv]
      exact Nat.dvd_mul_left _ _
  refine BitTrie.path_of_bits hdvd hrange.1 hrange.2 fun n hn => ?_
  have hcompose :
      shl (shl s (leftshiftForTreeIndex i)) n = shl s (leftshiftForTreeIndex i + n) := by
    simp only [shl, Nat.shiftLeft_eq, Nat.mod_mul_mod, Nat.pow_add, Nat.mul_assoc]
  have hbit : 63 - (leftshiftForTreeIndex i + n) = treeWidth i - 1 - n := by omega
  rw [treePath, hcompose, shl_top _ _ (by omega), hbit, Nat.shiftRight_eq_div_pow]
  exact decide_eq_true_iff

end SkyEngine.Mspace
