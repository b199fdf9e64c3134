import SkyEngine.Mspace.TreeIndex
import SkyEngine.Lib.BitMap
import SkyEngine.Lib.BestFit

/-!
# Mspace — Bins

The bins of a `malloc_state`: lists of small chunks by exact size, trees of
larger ones, and the maps of non-empty bins. The rings that thread through
the free chunks are lists here, in `fd` order from the bin, and the trees
are `BitTrie`s of addresses under chunk sizes. `Holds` says which free
chunks the bins hold.
-/

namespace SkyEngine.Mspace

open Word64 BitMap

/-- What stops a call of the allocator short of its return. `abort` is
`CORRUPTION_ERROR_ACTION` or `USAGE_ERROR_ACTION`; `system` is memory asked
from or given back to the system, and `hang` a loop that never ends. -/
inductive Halt where
  | abort
  | system
  | hang
  deriving DecidableEq, Repr

def nsmallbins : Nat := 32

def smallbinShift : Nat := 3

def maxSmallSize : Nat := (1 <<< treebinShift) - 1

def maxSmallRequest : Nat := maxSmallSize - chunkAlignMask - chunkOverhead

def isSmall (s : Nat) : Bool := s >>> smallbinShift < nsmallbins

def smallIndex (s : Nat) : Nat := s >>> smallbinShift

def smallIndex2size (i : Nat) : Nat := i <<< smallbinShift

structure Bins where
  smallmap : BitVec 32 := 0
  treemap : BitVec 32 := 0
  smallbins : Nat → List Nat := fun _ => []
  treebins : Nat → BitTrie Nat := fun _ => .nil

namespace Bins

/-- Link a free chunk into a smallbin. -/
def insertSmallChunk (b : Bins) (p s : Nat) : Bins :=
  let i := smallIndex s
  if (b.smallmap &&& idx2bit i) = 0 then
    { b with
      smallmap := mark b.smallmap i
      smallbins := Function.update b.smallbins i [p] }
  else { b with smallbins := Function.update b.smallbins i (p :: b.smallbins i) }

/-- Unlink a chunk from a smallbin. -/
def unlinkSmallChunk (b : Bins) (p s : Nat) : Except Halt Bins :=
  let i := smallIndex s
  if p ∈ b.smallbins i then
    let rest := (b.smallbins i).erase p
    .ok { b with
      smallmap := if rest = [] then clear b.smallmap i else b.smallmap
      smallbins := Function.update b.smallbins i rest }
  else .error .abort

/-- Unlink the first chunk from a smallbin. -/
def unlinkFirstSmallChunk (b : Bins) (i : Nat) : Except Halt (Nat × Bins) :=
  match b.smallbins i with
  | [] => .error .abort
  | p :: rest => .ok (p, { b with
      smallmap := if rest = [] then clear b.smallmap i else b.smallmap
      smallbins := Function.update b.smallbins i rest })

/-- Insert chunk into tree. -/
def insertLargeChunk (b : Bins) (x s : Nat) : Bins :=
  let i := computeTreeIndex s
  if (b.treemap &&& idx2bit i) = 0 then
    { b with
      treemap := mark b.treemap i
      treebins := Function.update b.treebins i (.node s x [] .nil .nil) }
  else
    { b with
      treebins := Function.update b.treebins i ((b.treebins i).insert s x (treePath s i)) }

/-- Unlink a chunk from the tree of its index. -/
def unlinkLargeChunk (b : Bins) (x s : Nat) : Except Halt Bins :=
  let i := computeTreeIndex s
  if (s, x) ∈ (b.treebins i).entries then
    let t := (b.treebins i).unlink x
    .ok { b with
      treemap := if t.isNil then clear b.treemap i else b.treemap
      treebins := Function.update b.treebins i t }
  else .error .abort

def insertChunk (b : Bins) (p s : Nat) : Bins :=
  if isSmall s then b.insertSmallChunk p s else b.insertLargeChunk p s

def unlinkChunk (b : Bins) (p s : Nat) : Except Halt Bins :=
  if isSmall s then b.unlinkSmallChunk p s else b.unlinkLargeChunk p s

end Bins

/-! ## What the bins hold -/

theorem isSmall_iff (s : Nat) : isSmall s = true ↔ s < 256 := by
  rw [isSmall, decide_eq_true_iff, smallbinShift, nsmallbins, Nat.shiftRight_eq_div_pow]
  omega

/-- The chunks of small bin `i`. -/
def inSmall (i : Nat) (e : Nat × Nat) : Bool := isSmall e.1 && smallIndex e.1 == i

/-- The chunks of tree bin `i`. -/
def inTree (i : Nat) (e : Nat × Nat) : Bool := !isSmall e.1 && computeTreeIndex e.1 == i

/-- The bins hold exactly the free chunks `l`, given by size and address:
each small bin those of its size, each tree bin those of its index, in
order, and the maps show which bins are not empty. -/
structure Holds (b : Bins) (l : List (Nat × Nat)) : Prop where
  small : ∀ i, (b.smallbins i).Perm ((l.filter (inSmall i)).map Prod.snd)
  tree : ∀ i, (b.treebins i).entries.Perm (l.filter (inTree i))
  ordered : ∀ i < 32, BitTrie.Ordered (treeWidth i) (treeLow i) (b.treebins i)
  smallmap : ∀ i < 32, b.smallmap.getLsbD i = true ↔ b.smallbins i ≠ []
  treemap : ∀ i < 32, b.treemap.getLsbD i = true ↔ b.treebins i ≠ .nil
  nodup : (l.map Prod.snd).Nodup
  sized : ∀ e ∈ l, 32 ≤ e.1 ∧ e.1 % 16 = 0 ∧ e.1 < 2 ^ 64

namespace Holds

variable {b : Bins} {l l' : List (Nat × Nat)}

theorem empty : Holds {} [] where
  small := fun _ => List.Perm.nil
  tree := fun _ => List.Perm.nil
  ordered := fun _ _ => BitTrie.ordered_nil _ _
  smallmap := fun i hi => by simp
  treemap := fun i hi => by simp
  nodup := List.nodup_nil
  sized := fun e he => nomatch he

theorem mem_small (h : Holds b l) {i p : Nat} (hp : p ∈ b.smallbins i) : (8 * i, p) ∈ l := by
  obtain ⟨⟨s, a⟩, he, rfl⟩ := List.mem_map.mp ((h.small i).mem_iff.mp hp)
  obtain ⟨hmem, hin⟩ := List.mem_filter.mp he
  obtain ⟨_, hidx⟩ := Bool.and_eq_true_iff.mp hin
  have hsize := h.sized _ hmem
  have hs : s = 8 * i := by
    have hidx' : s >>> 3 = i := by simpa [smallIndex, smallbinShift] using hidx
    rw [Nat.shiftRight_eq_div_pow] at hidx'
    omega
  rw [← hs]
  exact hmem

theorem mem_tree (h : Holds b l) {i : Nat} {e : Nat × Nat} (he : e ∈ (b.treebins i).entries) :
    e ∈ l ∧ 256 ≤ e.1 ∧ computeTreeIndex e.1 = i := by
  obtain ⟨hmem, hin⟩ := List.mem_filter.mp ((h.tree i).mem_iff.mp he)
  obtain ⟨hlarge, hidx⟩ := Bool.and_eq_true_iff.mp hin
  have h256 : ¬ e.1 < 256 := by
    rw [← isSmall_iff]
    simpa using hlarge
  exact ⟨hmem, by omega, by simpa using hidx⟩

/-- A chunk leaves or joins small bin `i`: everything else is as it was. -/
theorem of_small (h : Holds b l) {i : Nat} {bin : List Nat} {map : BitVec 32}
    (hbin : bin.Perm ((l'.filter (inSmall i)).map Prod.snd))
    (hsmall : ∀ j ≠ i, (l.filter (inSmall j)).Perm (l'.filter (inSmall j)))
    (htree : ∀ j, (l.filter (inTree j)).Perm (l'.filter (inTree j)))
    (hbit : i < 32 → (map.getLsbD i = true ↔ bin ≠ []))
    (hmap : ∀ j ≠ i, map.getLsbD j = b.smallmap.getLsbD j)
    (hnodup : (l'.map Prod.snd).Nodup)
    (hsized : ∀ e ∈ l', 32 ≤ e.1 ∧ e.1 % 16 = 0 ∧ e.1 < 2 ^ 64) :
    Holds { b with smallmap := map, smallbins := Function.update b.smallbins i bin } l' := by
  constructor
  case small =>
    intro j
    by_cases hj : j = i
    · subst hj
      simpa using hbin
    · simpa [Function.update_of_ne hj] using (h.small j).trans ((hsmall j hj).map _)
  case tree => exact fun j => (h.tree j).trans (htree j)
  case ordered => exact h.ordered
  case smallmap =>
    intro j hj
    by_cases hji : j = i
    · subst hji
      simpa using hbit hj
    · have hold := h.smallmap j hj
      rw [← hmap j hji] at hold
      simpa [Function.update_of_ne hji] using hold
  case treemap => exact h.treemap
  case nodup => exact hnodup
  case sized => exact hsized

/-- A chunk leaves or joins tree bin `i`. -/
theorem of_tree (h : Holds b l) {i : Nat} {t : BitTrie Nat} {map : BitVec 32}
    (hbin : t.entries.Perm (l'.filter (inTree i)))
    (hord : i < 32 → BitTrie.Ordered (treeWidth i) (treeLow i) t)
    (hsmall : ∀ j, (l.filter (inSmall j)).Perm (l'.filter (inSmall j)))
    (htree : ∀ j ≠ i, (l.filter (inTree j)).Perm (l'.filter (inTree j)))
    (hbit : i < 32 → (map.getLsbD i = true ↔ t ≠ .nil))
    (hmap : ∀ j ≠ i, map.getLsbD j = b.treemap.getLsbD j)
    (hnodup : (l'.map Prod.snd).Nodup)
    (hsized : ∀ e ∈ l', 32 ≤ e.1 ∧ e.1 % 16 = 0 ∧ e.1 < 2 ^ 64) :
    Holds { b with treemap := map, treebins := Function.update b.treebins i t } l' := by
  constructor
  case small => exact fun j => (h.small j).trans ((hsmall j).map _)
  case tree =>
    intro j
    by_cases hj : j = i
    · subst hj
      simpa using hbin
    · simpa [Function.update_of_ne hj] using (h.tree j).trans (htree j hj)
  case ordered =>
    intro j hj
    by_cases hji : j = i
    · subst hji
      simpa using hord hj
    · simpa [Function.update_of_ne hji] using h.ordered j hj
  case smallmap => exact h.smallmap
  case treemap =>
    intro j hj
    by_cases hji : j = i
    · subst hji
      simpa using hbit hj
    · have hold := h.treemap j hj
      rw [← hmap j hji] at hold
      simpa [Function.update_of_ne hji] using hold
  case nodup => exact hnodup
  case sized => exact hsized

/-! ### Linking in -/

theorem insertSmallChunk (h : Holds b l) {p s : Nat} (hmin : 32 ≤ s) (hs16 : s % 16 = 0)
    (hsmall : isSmall s = true) (hnew : p ∉ l.map Prod.snd) :
    Holds (b.insertSmallChunk p s) ((s, p) :: l) := by
  have hs256 := (isSmall_iff s).mp hsmall
  obtain ⟨i, hi⟩ : ∃ i, smallIndex s = i := ⟨_, rfl⟩
  have hi32 : i < 32 := by
    rw [← hi, smallIndex, smallbinShift, Nat.shiftRight_eq_div_pow]
    omega
  -- whichever way, the chunk comes first in the bin and the bit is set
  have hstate : b.insertSmallChunk p s = { b with
      smallmap := mark b.smallmap i
      smallbins := Function.update b.smallbins i (p :: b.smallbins i) } := by
    unfold Bins.insertSmallChunk
    rw [hi]
    dsimp only
    split
    · rename_i hzero
      have hempty : b.smallbins i = [] := by
        by_contra hne
        have hset := (h.smallmap i hi32).mpr hne
        rw [(and_idx2bit_eq_zero hi32).mp hzero] at hset
        cases hset
      rw [hempty]
    · rename_i hset
      have hbit : b.smallmap.getLsbD i = true := by
        by_contra hb
        exact hset ((and_idx2bit_eq_zero hi32).mpr (Bool.eq_false_iff.mpr hb))
      rw [mark_of_set hbit]
  rw [hstate]
  refine h.of_small ?_ ?_ ?_ (fun _ => by simp [hi32]) ?_ (List.nodup_cons.mpr ⟨hnew, h.nodup⟩) ?_
  · have hin : inSmall i (s, p) = true := by simp [inSmall, hsmall, hi]
    simpa [List.filter_cons, hin] using h.small i
  · intro j hj
    have hin : inSmall j (s, p) = false := by simp [inSmall, hi, Ne.symm hj]
    simp [hin]
  · intro j
    have hin : inTree j (s, p) = false := by simp [inTree, hsmall]
    simp [hin]
  · intro j hj
    simp [Ne.symm hj]
  · intro e he
    rcases List.mem_cons.mp he with rfl | he
    · exact ⟨hmin, hs16, Nat.lt_trans hs256 (by decide)⟩
    · exact h.sized e he

theorem insertLargeChunk (h : Holds b l) {p s : Nat} (hs16 : s % 16 = 0) (hlt : s < 2 ^ 64)
    (hlarge : isSmall s = false) (hnew : p ∉ l.map Prod.snd) :
    Holds (b.insertLargeChunk p s) ((s, p) :: l) := by
  have hs256 : 256 ≤ s := by
    by_contra hno
    rw [(isSmall_iff s).mpr (by omega)] at hlarge
    cases hlarge
  obtain ⟨i, hi⟩ : ∃ i, computeTreeIndex s = i := ⟨_, rfl⟩
  have hi32 : i < 32 := hi ▸ computeTreeIndex_lt hs256
  have hstate : b.insertLargeChunk p s = { b with
      treemap := mark b.treemap i
      treebins := Function.update b.treebins i
        ((b.treebins i).insert s p (treePath s i)) } := by
    unfold Bins.insertLargeChunk
    rw [hi]
    dsimp only
    split
    · rename_i hzero
      have hempty : b.treebins i = .nil := by
        by_contra hne
        have hset := (h.treemap i hi32).mpr hne
        rw [(and_idx2bit_eq_zero hi32).mp hzero] at hset
        cases hset
      rw [hempty]
      rfl
    · rename_i hset
      have hbit : b.treemap.getLsbD i = true := by
        by_contra hb
        exact hset ((and_idx2bit_eq_zero hi32).mpr (Bool.eq_false_iff.mpr hb))
      rw [mark_of_set hbit]
  have hrange := tree_range hs256 hlt
  have hpath := tree_path hs256 hlt
  rw [hi] at hrange hpath
  have hperm := BitTrie.entries_insert s p (treePath s i) (b.treebins i)
  have hne : (b.treebins i).insert s p (treePath s i) ≠ .nil := by
    intro hnil
    rw [hnil] at hperm
    cases hperm.symm.eq_nil
  rw [hstate]
  refine h.of_tree ?_ (fun _ => (h.ordered i hi32).insert hrange.1 hrange.2 hpath) ?_ ?_
    (fun _ => by simp [hi32, hne]) ?_ (List.nodup_cons.mpr ⟨hnew, h.nodup⟩) ?_
  · have hin : inTree i (s, p) = true := by simp [inTree, hlarge, hi]
    simpa [List.filter_cons, hin] using hperm.trans ((h.tree i).cons (s, p))
  · intro j
    have hin : inSmall j (s, p) = false := by simp [inSmall, hlarge]
    simp [hin]
  · intro j hj
    have hin : inTree j (s, p) = false := by simp [inTree, hi, Ne.symm hj]
    simp [hin]
  · intro j hj
    simp [Ne.symm hj]
  · intro e he
    rcases List.mem_cons.mp he with rfl | he
    · exact ⟨Nat.le_trans (by decide) hs256, hs16, hlt⟩
    · exact h.sized e he

/-- **A free chunk is linked into its bin.** -/
theorem insertChunk (h : Holds b l) {p s : Nat} (hmin : 32 ≤ s) (hs16 : s % 16 = 0)
    (hlt : s < 2 ^ 64) (hnew : p ∉ l.map Prod.snd) :
    Holds (b.insertChunk p s) ((s, p) :: l) := by
  unfold Bins.insertChunk
  split
  · exact h.insertSmallChunk hmin hs16 ‹_› hnew
  · exact h.insertLargeChunk hs16 hlt (Bool.eq_false_iff.mpr ‹_›) hnew

/-! ### Unlinking -/

section Unlink

variable {p s : Nat}

theorem sized_rest (h : Holds b l) (hp : l.Perm ((s, p) :: l')) :
    ∀ e ∈ l', 32 ≤ e.1 ∧ e.1 % 16 = 0 ∧ e.1 < 2 ^ 64 :=
  fun e he => h.sized e (hp.mem_iff.mpr (List.mem_cons_of_mem _ he))

theorem nodup_rest (h : Holds b l) (hp : l.Perm ((s, p) :: l')) : (l'.map Prod.snd).Nodup :=
  (List.nodup_cons.mp ((hp.map Prod.snd).nodup_iff.mp h.nodup)).2

theorem small_rest (hp : l.Perm ((s, p) :: l')) (hsmall : isSmall s = true) :
    ((l.filter (inSmall (smallIndex s))).map Prod.snd).Perm
        (p :: (l'.filter (inSmall (smallIndex s))).map Prod.snd)
      ∧ (∀ j ≠ smallIndex s, (l.filter (inSmall j)).Perm (l'.filter (inSmall j)))
      ∧ ∀ j, (l.filter (inTree j)).Perm (l'.filter (inTree j)) := by
  refine ⟨?_, fun j hj => ?_, fun j => ?_⟩
  · have hin : inSmall (smallIndex s) (s, p) = true := by simp [inSmall, hsmall]
    have hf := (hp.filter (inSmall (smallIndex s))).map Prod.snd
    simpa [List.filter_cons, hin] using hf
  · have hin : inSmall j (s, p) = false := by simp [inSmall, Ne.symm hj]
    simpa [List.filter_cons, hin] using hp.filter (inSmall j)
  · have hin : inTree j (s, p) = false := by simp [inTree, hsmall]
    simpa [List.filter_cons, hin] using hp.filter (inTree j)

theorem unlinkSmallChunk (h : Holds b l) (hp : l.Perm ((s, p) :: l'))
    (hsmall : isSmall s = true) :
    ∃ b', b.unlinkSmallChunk p s = .ok b' ∧ Holds b' l' := by
  obtain ⟨hbin, hother, htree⟩ := small_rest hp hsmall
  have hbin' := (h.small (smallIndex s)).trans hbin
  have hin : p ∈ b.smallbins (smallIndex s) := hbin'.mem_iff.mpr List.mem_cons_self
  refine ⟨_, by rw [Bins.unlinkSmallChunk, if_pos hin], ?_⟩
  have hrest := hbin'.erase p
  rw [List.erase_cons_head] at hrest
  refine h.of_small hrest hother htree ?_ ?_ (nodup_rest h hp) (sized_rest h hp)
  · intro hi
    split
    · rename_i hnil
      simp [hnil]
    · rename_i hne
      have hmem : b.smallbins (smallIndex s) ≠ [] := List.ne_nil_of_mem hin
      simpa [hne] using (h.smallmap _ hi).mpr hmem
  · intro j hj
    split
    · simp [Ne.symm hj]
    · rfl

theorem unlinkLargeChunk (h : Holds b l) (hp : l.Perm ((s, p) :: l'))
    (hlarge : isSmall s = false) :
    ∃ b', b.unlinkLargeChunk p s = .ok b' ∧ Holds b' l' := by
  obtain ⟨i, hi⟩ : ∃ i, computeTreeIndex s = i := ⟨_, rfl⟩
  have hin : inTree i (s, p) = true := by simp [inTree, hlarge, hi]
  have hbin : (b.treebins i).entries.Perm ((s, p) :: l'.filter (inTree i)) := by
    refine (h.tree i).trans ?_
    simpa [List.filter_cons, hin] using hp.filter (inTree i)
  have hmem : (s, p) ∈ (b.treebins i).entries := hbin.mem_iff.mpr List.mem_cons_self
  have hnodup : (b.treebins i).members.Nodup := by
    have hsub : ((l.filter (inTree i)).map Prod.snd).Sublist (l.map Prod.snd) :=
      List.filter_sublist.map _
    exact ((h.tree i).map Prod.snd).nodup_iff.mpr (h.nodup.sublist hsub)
  have hrest : ((b.treebins i).unlink p).entries.Perm (l'.filter (inTree i)) :=
    (List.perm_cons _).mp ((BitTrie.entries_unlink hnodup hmem).symm.trans hbin)
  have hne : b.treebins i ≠ .nil := by
    intro hnil
    rw [hnil] at hmem
    cases hmem
  refine ⟨_, by rw [Bins.unlinkLargeChunk, hi, if_pos hmem], ?_⟩
  refine h.of_tree hrest (fun hi32 => (h.ordered i hi32).unlink) ?_ ?_ ?_ ?_ (nodup_rest h hp)
    (sized_rest h hp)
  · intro j
    have hout : inSmall j (s, p) = false := by simp [inSmall, hlarge]
    simpa [List.filter_cons, hout] using hp.filter (inSmall j)
  · intro j hj
    have hout : inTree j (s, p) = false := by simp [inTree, hi, Ne.symm hj]
    simpa [List.filter_cons, hout] using hp.filter (inTree j)
  · intro hi32
    split
    · rename_i hnil
      rw [BitTrie.isNil_iff.mp hnil]
      simp
    · rename_i hnil
      have hset := (h.treemap i hi32).mpr hne
      have hne' : (b.treebins i).unlink p ≠ .nil := fun hn => hnil (BitTrie.isNil_iff.mpr hn)
      simp [hset, hne']
  · intro j hj
    split
    · simp [Ne.symm hj]
    · rfl

/-- **A binned chunk is unlinked.** -/
theorem unlinkChunk (h : Holds b l) (hp : l.Perm ((s, p) :: l')) :
    ∃ b', b.unlinkChunk p s = .ok b' ∧ Holds b' l' := by
  cases hsmall : isSmall s with
  | true =>
      obtain ⟨b', hok, hb'⟩ := unlinkSmallChunk h hp hsmall
      exact ⟨b', by rw [Bins.unlinkChunk, if_pos hsmall, hok], hb'⟩
  | false =>
      obtain ⟨b', hok, hb'⟩ := unlinkLargeChunk h hp hsmall
      exact ⟨b', by rw [Bins.unlinkChunk, hsmall, if_neg Bool.false_ne_true, hok], hb'⟩

end Unlink

/-- **The first chunk of a non-empty small bin is unlinked.** -/
theorem unlinkFirst (h : Holds b l) {i : Nat} (hi : i < 32) (hne : b.smallbins i ≠ []) :
    ∃ p b' l', b.unlinkFirstSmallChunk i = .ok (p, b') ∧ l.Perm ((8 * i, p) :: l')
      ∧ Holds b' l' := by
  cases hbin : b.smallbins i with
  | nil => exact absurd hbin hne
  | cons p rest =>
      have hmem : (8 * i, p) ∈ l := h.mem_small (by rw [hbin]; exact List.mem_cons_self)
      have hp := List.perm_cons_erase hmem
      have hsmall : isSmall (8 * i) = true := (isSmall_iff _).mpr (by omega)
      have hidx : smallIndex (8 * i) = i := by
        rw [smallIndex, smallbinShift, Nat.shiftRight_eq_div_pow]
        omega
      obtain ⟨b', hok, hb'⟩ := unlinkSmallChunk h hp hsmall
      -- unlinking the first chunk is unlinking that chunk
      rw [Bins.unlinkSmallChunk, hidx, hbin, if_pos List.mem_cons_self,
        List.erase_cons_head] at hok
      refine ⟨p, b', _, ?_, hp, hb'⟩
      rw [Bins.unlinkFirstSmallChunk, hbin]
      cases hok
      rfl

end Holds

end SkyEngine.Mspace
