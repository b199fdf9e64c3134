import SkyEngine.Mspace.Bins

/-!
# Mspace — Search

The searches of the bins: the small bin of a request or the next one, the
next non-empty small bin, and the best fit in the trees. Each finds a free
chunk that fits, or there is none.
-/

namespace SkyEngine.Mspace

open Word64 BitMap

namespace Bins

/-- The search of `tmalloc_large`: the tree of the request's index, and
after it the root of the next non-empty one. -/
def fitLarge (b : Bins) (nb : Nat) : BitTrie.Fit Nat :=
  let idx := computeTreeIndex nb
  let rem := fun s => sub s nb
  let (f, t) := (b.treebins idx).descend rem (treePath nb idx) .nil ⟨none, neg nb⟩
  let leftbits := leftBits (idx2bit idx) &&& b.treemap
  -- set t to root of next non-empty treebin
  let t := if t.isNil && f.v.isNone && leftbits != 0
    then b.treebins (bit2idx (leastBit leftbits)) else t
  t.leftmost rem f

/-- The search of `tmalloc_small`: the left edge of the first tree. A marked
bin has a root. -/
def fitSmall (b : Bins) (nb : Nat) : BitTrie.Fit Nat :=
  let rem := fun s => sub s nb
  match b.treebins (bit2idx (leastBit b.treemap)) with
  | .nil => ⟨none, neg nb⟩
  | .node s v _ left right =>
      (if left.isNil then right else left).leftmost rem ⟨some (s, v), rem s⟩

/-- The small bin that holds a remainderless fit; uses next bin if `idx`
empty. -/
def exactIndex (b : Bins) (idx : Nat) : Nat :=
  idx + (~~~(b.smallmap >>> idx) &&& 1).toNat

/-- The next non-empty small bin after `idx`. -/
def nextIndex (b : Bins) (idx : Nat) : Nat :=
  bit2idx (leastBit (((b.smallmap >>> idx) <<< idx) &&& leftBits (idx2bit idx)))

end Bins

/-! ## Small bins -/

namespace Holds

variable {b : Bins} {l : List (Nat × Nat)}

theorem smallIndex_of_aligned {nb : Nat} (h : nb % 16 = 0) : nb = 8 * smallIndex nb := by
  rw [smallIndex, smallbinShift, Nat.shiftRight_eq_div_pow]
  omega

/-- **A remainderless fit**: the bin is not empty, and its chunks leave less
than a chunk over. -/
theorem exactIndex_spec (h : Holds b l) {idx : Nat} (hbits : b.smallmap >>> idx &&& 3 ≠ 0) :
    b.exactIndex idx < 32 ∧ b.smallbins (b.exactIndex idx) ≠ [] ∧ idx ≤ b.exactIndex idx
      ∧ b.exactIndex idx ≤ idx + 1 := by
  obtain ⟨x, hx⟩ : ∃ x, b.smallmap >>> idx = x := ⟨_, rfl⟩
  have hshift : ∀ k, x.getLsbD k = b.smallmap.getLsbD (idx + k) := by
    intro k
    rw [← hx, BitVec.getLsbD_ushiftRight]
  rw [hx] at hbits
  have hstep : (~~~x &&& 1#32).toNat = if x.getLsbD 0 then 0 else 1 := by
    have hval : ~~~x &&& 1#32 = if x.getLsbD 0 then 0#32 else 1#32 := by
      refine BitVec.eq_of_getLsbD_eq fun j hj => ?_
      rw [BitVec.getLsbD_and, BitVec.getLsbD_not, BitVec.getLsbD_one]
      by_cases hj0 : j = 0
      · subst hj0
        cases hx0 : x.getLsbD 0 <;> simp
      · cases hx0 : x.getLsbD 0 <;> simp [hj0]
    rw [hval]
    cases x.getLsbD 0 <;> rfl
  have hset : b.smallmap.getLsbD (b.exactIndex idx) = true := by
    unfold Bins.exactIndex
    rw [hx, show (1 : BitVec 32) = 1#32 from rfl, hstep]
    cases hx0 : x.getLsbD 0 with
    | true => exact (hshift 0).symm.trans hx0
    | false =>
        -- the low two bits are not both clear
        obtain ⟨k, hk⟩ := exists_of_ne_zero hbits
        rw [BitVec.getLsbD_and, show (3 : BitVec 32) = 3#32 from rfl] at hk
        obtain ⟨hk1, hk2⟩ := Bool.and_eq_true_iff.mp hk
        have hk' : k = 0 ∨ k = 1 := by
          by_contra hno
          have hthree : (3#32).getLsbD k = false := by
            rw [BitVec.getLsbD, BitVec.toNat_ofNat]
            refine Nat.testBit_lt_two_pow ?_
            have hpow : 2 ^ 2 ≤ 2 ^ k := Nat.pow_le_pow_right (by decide) (by omega)
            omega
          rw [hthree] at hk2
          cases hk2
        rcases hk' with rfl | rfl
        · rw [hx0] at hk1
          cases hk1
        · exact (hshift 1).symm.trans hk1
  have hlt : b.exactIndex idx < 32 := BitVec.lt_of_getLsbD hset
  refine ⟨hlt, (h.smallmap _ hlt).mp hset, Nat.le_add_right _ _, ?_⟩
  unfold Bins.exactIndex
  rw [hx, show (1 : BitVec 32) = 1#32 from rfl, hstep]
  cases x.getLsbD 0 <;> simp

/-- **The next non-empty small bin** is found if there is one. -/
theorem nextIndex_spec (h : Holds b l) {idx : Nat} (hne : b.smallmap >>> idx ≠ 0)
    (hexact : b.smallmap >>> idx &&& 3 = 0) :
    b.nextIndex idx < 32 ∧ b.smallbins (b.nextIndex idx) ≠ [] ∧ idx < b.nextIndex idx
      ∧ ∀ j, idx < j → j < b.nextIndex idx → b.smallmap.getLsbD j = false := by
  obtain ⟨x, hx⟩ : ∃ x, ((b.smallmap >>> idx) <<< idx) &&& leftBits (idx2bit idx) = x := ⟨_, rfl⟩
  have hbit : ∀ j, x.getLsbD j = (b.smallmap.getLsbD j && decide (idx < j)) := by
    intro j
    rw [← hx, BitVec.getLsbD_and, BitVec.getLsbD_shiftLeft, BitVec.getLsbD_ushiftRight,
      getLsbD_leftBits_idx2bit]
    by_cases hj : j < 32
    · by_cases hlt : idx < j
      · have hback : idx + (j - idx) = j := by omega
        have hge : ¬ j < idx := by omega
        simp [hj, hlt, hge, hback]
      · simp [hlt]
    · rw [BitVec.getLsbD_of_ge b.smallmap j (by omega)]
      simp [hj]
  have hx0 : x ≠ 0 := by
    obtain ⟨k, hk⟩ := exists_of_ne_zero hne
    rw [BitVec.getLsbD_ushiftRight] at hk
    have hpos : k ≠ 0 := by
      rintro rfl
      have h0 := eq_zero_iff.mp hexact 0
      rw [BitVec.getLsbD_and, BitVec.getLsbD_ushiftRight, hk] at h0
      cases h0
    intro hzero
    have hset := hbit (idx + k)
    rw [hzero, hk, decide_eq_true (by omega)] at hset
    simp at hset
  have hleast := (bit2idx_leastBit hx0).1
  rw [hbit] at hleast
  obtain ⟨hset, hlt⟩ := Bool.and_eq_true_iff.mp hleast
  have hidx : b.nextIndex idx = bit2idx (leastBit x) := by
    rw [← hx]
    rfl
  rw [hidx]
  have hlt32 : bit2idx (leastBit x) < 32 := BitVec.lt_of_getLsbD hset
  refine ⟨hlt32, (h.smallmap _ hlt32).mp hset, of_decide_eq_true hlt, fun j hj hjlt => ?_⟩
  have hclear := (bit2idx_leastBit hx0).2 j hjlt
  rw [hbit, decide_eq_true hj, Bool.and_true] at hclear
  exact hclear

/-- A small free chunk is in a bin that is marked. -/
theorem small_mem (h : Holds b l) {e : Nat × Nat} (he : e ∈ l) (hsmall : e.1 < 256) :
    b.smallmap.getLsbD (smallIndex e.1) = true := by
  obtain ⟨_, h16, _⟩ := h.sized e he
  obtain ⟨i, hi⟩ : ∃ i, smallIndex e.1 = i := ⟨_, rfl⟩
  have hsize := smallIndex_of_aligned h16
  rw [hi] at hsize ⊢
  have hin : inSmall i e = true := by simp [inSmall, isSmall_iff, hsmall, hi]
  have hmem : e.2 ∈ b.smallbins i :=
    (h.small i).mem_iff.mpr (List.mem_map_of_mem (List.mem_filter.mpr ⟨he, hin⟩))
  exact (h.smallmap i (by omega)).mpr (List.ne_nil_of_mem hmem)

/-- Without a marked bin from `idx` on, no small chunk fits. -/
theorem small_lt (h : Holds b l) {idx : Nat} (hnone : b.smallmap >>> idx = 0) {e : Nat × Nat}
    (he : e ∈ l) (hsmall : e.1 < 256) : e.1 < 8 * idx := by
  have hset := h.small_mem he hsmall
  have hsize := smallIndex_of_aligned (h.sized e he).2.1
  by_contra hge
  have hclear := eq_zero_iff.mp hnone (smallIndex e.1 - idx)
  rw [BitVec.getLsbD_ushiftRight] at hclear
  have hback : idx + (smallIndex e.1 - idx) = smallIndex e.1 := by omega
  rw [hback, hset] at hclear
  cases hclear

/-! ## Trees -/

theorem remainder {nb : Nat} (hpos : 0 < nb) (hlt : nb < 2 ^ 64) :
    BitTrie.Remainder (fun s => sub s nb) nb (2 ^ 64 - nb) where
  fits := fun k hk hlt => sub_of_le hk (by omega)
  misfits := fun k hk => by
    rw [sub_of_lt hk (by omega)]
    omega

/-- A large free chunk is in a tree whose bin is marked. -/
theorem large_mem (h : Holds b l) {e : Nat × Nat} (he : e ∈ l) (hlarge : 256 ≤ e.1) :
    e ∈ (b.treebins (computeTreeIndex e.1)).entries
      ∧ b.treemap.getLsbD (computeTreeIndex e.1) = true := by
  have hsmall : isSmall e.1 = false := by
    cases hs : isSmall e.1 with
    | false => rfl
    | true =>
        have hlt := (isSmall_iff _).mp hs
        omega
  have hin : inTree (computeTreeIndex e.1) e = true := by simp [inTree, hsmall]
  have hmem := (h.tree _).mem_iff.mpr (List.mem_filter.mpr ⟨he, hin⟩)
  refine ⟨hmem, (h.treemap _ (computeTreeIndex_lt hlarge)).mpr fun hnil => ?_⟩
  rw [hnil] at hmem
  cases hmem

/-- A smaller index means a smaller size. -/
theorem size_lt_of_index_lt {s t : Nat} (ht : 256 ≤ t)
    (hlt : computeTreeIndex s < computeTreeIndex t) : s < t := by
  by_contra hge
  have hmono := computeTreeIndex_mono ht (Nat.le_of_not_lt hge)
  omega

/-- A fit found in the first of some trees is the best of them all. -/
theorem best_of_first (h : Holds b l) {nb bound i : Nat} {f : BitTrie.Fit Nat}
    {S : List (Nat × Nat)} (hne : b.treebins i ≠ .nil)
    (hfit : ∀ e ∈ (b.treebins i).entries, nb ≤ e.1)
    (hfirst : ∀ e ∈ l, 256 ≤ e.1 → nb ≤ e.1 → e ∈ S ∨ i ≤ computeTreeIndex e.1)
    (hS : ∀ e ∈ S, e ∈ l ∧ 256 ≤ e.1)
    (hf : f.Best nb bound ((b.treebins i).entries ++ S)) :
    f.Best nb bound (l.filter fun e => 256 ≤ e.1) := by
  obtain ⟨e₀, he₀⟩ := BitTrie.exists_entry hne
  obtain ⟨_, hlarge₀, hidx₀⟩ := h.mem_tree he₀
  refine hf.extend ?_ fun e he hn => ?_
  · intro e he
    rcases List.mem_append.mp he with he | he
    · obtain ⟨hmem, hlarge, _⟩ := h.mem_tree he
      exact List.mem_filter.mpr ⟨hmem, by simpa using hlarge⟩
    · exact List.mem_filter.mpr ⟨(hS e he).1, by simpa using (hS e he).2⟩
  · obtain ⟨hmem, hlarge⟩ := List.mem_filter.mp he
    have hlarge : 256 ≤ e.1 := by simpa using hlarge
    rcases hfirst e hmem hlarge hn with hin | hge
    · exact hf.least e (List.mem_append_right _ hin) hn
    · rcases Nat.lt_or_eq_of_le hge with hlt | heq
      · have hsize : e₀.1 < e.1 := size_lt_of_index_lt hlarge (by omega)
        have hleast := hf.least e₀ (List.mem_append_left _ he₀) (hfit e₀ he₀)
        omega
      · have hin : e ∈ (b.treebins i).entries := by
          rw [heq]
          exact (h.large_mem hmem hlarge).1
        exact hf.least e (List.mem_append_left _ hin) hn

/-- **The search of `tmalloc_large`** finds the best fit among all large free
chunks. -/
theorem fitLarge_best (h : Holds b l) {nb : Nat} (hnb : 256 ≤ nb) (hlt : nb < 2 ^ 64) :
    (b.fitLarge nb).Best nb (2 ^ 64 - nb) (l.filter fun e => 256 ≤ e.1) := by
  obtain ⟨idx, hidx⟩ : ∃ idx, computeTreeIndex nb = idx := ⟨_, rfl⟩
  have hidx32 : idx < 32 := hidx ▸ computeTreeIndex_lt hnb
  have hrem := remainder (by omega) hlt
  have hord := h.ordered idx hidx32
  have hrange := tree_range hnb hlt
  have hpath := tree_path hnb hlt
  rw [hidx] at hrange hpath
  have hkeys : ∀ i, ∀ e ∈ (b.treebins i).entries, e.1 < nb + (2 ^ 64 - nb) := by
    intro i e he
    have hsized := h.sized e (h.mem_tree he).1
    omega
  have hstart : BitTrie.Fit.Best nb (2 ^ 64 - nb) [] (⟨none, neg nb⟩ : BitTrie.Fit Nat) := by
    constructor
    case chosen => exact fun e he => nomatch he
    case none => exact fun _ => neg_of_pos (by omega) (by omega)
    case least => exact fun e he => nomatch he
  obtain ⟨f, t, hdesc⟩ : ∃ f t, (b.treebins idx).descend (fun s => sub s nb) (treePath nb idx)
    .nil ⟨none, neg nb⟩ = (f, t) := ⟨_, _, rfl⟩
  have hbest := hstart.descend hrem hord hrange.1 hrange.2 hpath (hkeys idx)
    ⟨0, 0, BitTrie.ordered_nil _ _⟩ fun e he => nomatch he
  have hrst : f.v = none → ∀ e ∈ t.entries, nb ≤ e.1 ∧ (e ∈ (b.treebins idx).entries
      ∨ e ∈ (BitTrie.nil : BitTrie Nat).entries) := by
    intro hnone
    have hempty : ∀ e ∈ (BitTrie.nil : BitTrie Nat).entries, nb ≤ e.1 := fun e he => nomatch he
    have hnone' : ((b.treebins idx).descend (fun s => sub s nb) (treePath nb idx) .nil
        ⟨none, neg nb⟩).1.v = none := by
      rw [hdesc]
      exact hnone
    have hspec := BitTrie.descend_rst hord hpath hempty hnone'
    rw [hdesc] at hspec
    exact hspec
  rw [hdesc] at hbest
  simp only [BitTrie.entries, List.append_nil] at hbest
  obtain ⟨leftbits, hleft⟩ : ∃ x, leftBits (idx2bit idx) &&& b.treemap = x := ⟨_, rfl⟩
  have hbit : ∀ j, leftbits.getLsbD j = (decide (idx < j) && b.treemap.getLsbD j) := by
    intro j
    rw [← hleft, BitVec.getLsbD_and, getLsbD_leftBits_idx2bit]
    by_cases hj : j < 32
    · simp [hj]
    · rw [BitVec.getLsbD_of_ge b.treemap j (by omega)]
      simp
  -- adequate chunks are in the tree of the request's index or in a later one
  have hlater : ∀ e ∈ l, 256 ≤ e.1 → nb ≤ e.1 →
      e ∈ (b.treebins idx).entries ∨ leftbits.getLsbD (computeTreeIndex e.1) = true := by
    intro e he hlarge hn
    obtain ⟨hin, hset⟩ := h.large_mem he hlarge
    have hmono := computeTreeIndex_mono hnb hn
    rcases Nat.lt_or_eq_of_le hmono with hlt' | heq
    · refine .inr ?_
      rw [hbit, hset, decide_eq_true (by omega)]
      rfl
    · rw [← heq, hidx] at hin
      exact .inl hin
  have hunfold : b.fitLarge nb = (if t.isNil && f.v.isNone && leftbits != 0
      then b.treebins (bit2idx (leastBit leftbits)) else t).leftmost (fun s => sub s nb) f := by
    unfold Bins.fitLarge
    rw [hidx]
    dsimp only
    rw [hdesc]
    dsimp only
    rw [hleft]
  have hown : ∀ e ∈ (b.treebins idx).entries, e ∈ l ∧ 256 ≤ e.1 :=
    fun e he => ⟨(h.mem_tree he).1, (h.mem_tree he).2.1⟩
  rw [hunfold]
  split
  · -- nothing in the request's own tree: the next marked one
    rename_i hnext
    obtain ⟨hnil, hleft0⟩ := Bool.and_eq_true_iff.mp hnext
    obtain ⟨htnil, _⟩ := Bool.and_eq_true_iff.mp hnil
    have hleft0 : leftbits ≠ 0 := by simpa using hleft0
    obtain ⟨hset, hleast⟩ := bit2idx_leastBit hleft0
    obtain ⟨i, hi⟩ : ∃ i, bit2idx (leastBit leftbits) = i := ⟨_, rfl⟩
    rw [hi] at hset hleast ⊢
    have hset' := hset
    rw [hbit] at hset'
    obtain ⟨hgt, hmarked⟩ := Bool.and_eq_true_iff.mp hset'
    have hgt : idx < i := of_decide_eq_true hgt
    have hi32 : i < 32 := BitVec.lt_of_getLsbD hset
    have hfit : ∀ e ∈ (b.treebins i).entries, nb ≤ e.1 := by
      intro e he
      obtain ⟨_, hlarge, hidx'⟩ := h.mem_tree he
      exact Nat.le_of_lt (size_lt_of_index_lt hlarge (by omega))
    rw [BitTrie.isNil_iff.mp htnil] at hbest
    refine h.best_of_first ((h.treemap i hi32).mp hmarked) hfit ?_ hown
      (hbest.leftmost hrem (h.ordered i hi32) fun e he => ⟨hfit e he, hkeys i e he⟩)
    intro e he hlarge hn
    refine (hlater e he hlarge hn).imp_right fun hbit' => ?_
    by_contra hlt'
    rw [hleast _ (by omega)] at hbit'
    cases hbit'
  · rename_i hnext
    refine hbest.extend (fun e he => ?_) fun e he hn => ?_
    · obtain ⟨hmem, hlarge⟩ := hown e he
      exact List.mem_filter.mpr ⟨hmem, by simpa using hlarge⟩
    · obtain ⟨hmem, hlarge⟩ := List.mem_filter.mp he
      have hlarge : 256 ≤ e.1 := by simpa using hlarge
      rcases hlater e hmem hlarge hn with hin | hset
      · exact hbest.least e hin hn
      · -- a later tree has a fit, so the search stopped because it had one already
        have hidx' : computeTreeIndex nb < computeTreeIndex e.1 := by
          rw [hbit] at hset
          rw [hidx]
          exact of_decide_eq_true (Bool.and_eq_true_iff.mp hset).1
        have hleft0 : leftbits ≠ 0 := by
          intro hzero
          rw [hzero] at hset
          simp at hset
        cases hv : (t.leftmost (fun s => sub s nb) f).v with
        | some e₁ =>
            obtain ⟨hin₁, hn₁, hr₁, _⟩ := hbest.chosen e₁ hv
            have hsize : e₁.1 < e.1 := by
              refine size_lt_of_index_lt hlarge ?_
              rw [(h.mem_tree hin₁).2.2]
              omega
            omega
        | none =>
            have hfnone := BitTrie.leftmost_v_eq_none hv
            have htnil : t = .nil := by
              by_contra hne
              obtain ⟨e₁, he₁⟩ := BitTrie.exists_entry hne
              obtain ⟨hn₁, hin₁ | hin₁⟩ := hrst hfnone e₁ he₁
              · have hleast := hbest.least e₁ hin₁ hn₁
                have hbound := hbest.none hv
                have hkey := hkeys idx e₁ hin₁
                omega
              · cases hin₁
            refine absurd ?_ hnext
            rw [htnil, hfnone]
            simpa [BitTrie.isNil] using hleft0

/-- **The search of `tmalloc_small`** finds the smallest large free chunk. -/
theorem fitSmall_best (h : Holds b l) {nb : Nat} (hpos : 0 < nb) (hnb : nb < 256)
    (htrees : b.treemap ≠ 0) :
    (b.fitSmall nb).Best nb (2 ^ 64 - nb) (l.filter fun e => 256 ≤ e.1) := by
  obtain ⟨hset, hleast⟩ := bit2idx_leastBit htrees
  obtain ⟨i, hi⟩ : ∃ i, bit2idx (leastBit b.treemap) = i := ⟨_, rfl⟩
  rw [hi] at hset hleast
  have hi32 : i < 32 := BitVec.lt_of_getLsbD hset
  have hne := (h.treemap i hi32).mp hset
  have hrem := remainder hpos (by omega)
  have hfit : ∀ e ∈ (b.treebins i).entries, nb ≤ e.1 ∧ e.1 < nb + (2 ^ 64 - nb) := by
    intro e he
    obtain ⟨hmem, hlarge, _⟩ := h.mem_tree he
    have hsized := h.sized e hmem
    omega
  have hstart : BitTrie.Fit.Best nb (2 ^ 64 - nb) [] (⟨none, 2 ^ 64 - nb⟩ : BitTrie.Fit Nat) := by
    constructor
    case chosen => exact fun e he => nomatch he
    case none => exact fun _ => rfl
    case least => exact fun e he => nomatch he
  have hbest := hstart.leftmost hrem (h.ordered i hi32) hfit
  -- the root is taken to begin with, as an offer to no fit would
  have hsame : b.fitSmall nb
      = (b.treebins i).leftmost (fun s => sub s nb) ⟨none, 2 ^ 64 - nb⟩ := by
    unfold Bins.fitSmall
    dsimp only
    rw [hi]
    cases htree : b.treebins i with
    | nil => exact absurd htree hne
    | node s v ring left right =>
        have hroot := hfit (s, v) (by rw [htree]; exact List.mem_cons_self)
        have hoffer : BitTrie.Fit.offer (fun s => sub s nb) s v ⟨none, 2 ^ 64 - nb⟩
            = ⟨some (s, v), sub s nb⟩ := by
          have hr := hrem.fits s hroot.1 hroot.2
          rw [BitTrie.Fit.offer, if_pos]
          show sub s nb < 2 ^ 64 - nb
          have hr : sub s nb = s - nb := hr
          have hlt : s < nb + (2 ^ 64 - nb) := hroot.2
          have hle : nb ≤ s := hroot.1
          omega
        dsimp only
        rw [BitTrie.leftmost, hoffer]
        cases left.isNil <;> rfl
  rw [hsame]
  refine h.best_of_first (S := []) hne (fun e he => (hfit e he).1) (fun e he hlarge hn => ?_)
    (fun e he => nomatch he) hbest
  refine .inr ?_
  by_contra hlt
  have hclear := hleast _ (Nat.lt_of_not_le hlt)
  rw [(h.large_mem he hlarge).2] at hclear
  cases hclear

/-- Without a marked tree there is no large free chunk. -/
theorem no_large (h : Holds b l) (htrees : b.treemap = 0) {e : Nat × Nat} (he : e ∈ l) :
    e.1 < 256 := by
  by_contra hge
  have hset := (h.large_mem he (Nat.le_of_not_lt hge)).2
  rw [htrees] at hset
  simp at hset

end Holds

end SkyEngine.Mspace
