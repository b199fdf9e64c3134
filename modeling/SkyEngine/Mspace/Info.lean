import SkyEngine.Mspace.Invariant

/-!
# Mspace — Info

What an mspace tells of itself: the usable size of a block, and the figures
of `mspace_mallinfo`, summed up over the chunks of the segment.
-/

namespace SkyEngine.Mspace

open Word64

/-! ## The code -/

def mmapChunkOverhead : Nat := twoSizeTSizes

def fencepostHead : Nat := inuseBits ||| sizeTSize

def overheadFor (w : Words) (p : Nat) : Nat :=
  if isMmapped w p then mmapChunkOverhead else chunkOverhead

def mspaceUsableSize (m : Mstate) (mem : Nat) : Nat :=
  if mem ≠ 0 then
    let p := mem2chunk mem
    if isInuse m.mem p then sub (chunksize m.mem p) (overheadFor m.mem p) else 0
  else 0

/-- `struct mallinfo`, without the fields that are always 0. -/
structure Mallinfo where
  arena : Nat := 0
  ordblks : Nat := 0
  hblkhd : Nat := 0
  usmblks : Nat := 0
  uordblks : Nat := 0
  fordblks : Nat := 0
  keepcost : Nat := 0
  deriving DecidableEq

/-- The only segment holds the address. -/
def Mstate.segmentHolds (m : Mstate) (a : Nat) : Bool :=
  m.segBase ≤ a && a < m.segBase + m.segSize

/-- The inner loop of `internal_mallinfo`, from the chunk `q` on: sizes of
all chunks, sizes of the free ones, and how many these are. -/
def mallinfoLoop (m : Mstate) : Nat → Nat → Nat × Nat × Nat → Except Halt (Nat × Nat × Nat)
  | 0, _, _ => .error .hang
  | fuel + 1, q, (sum, mfree, nfree) =>
      if m.segmentHolds q = true ∧ q ≠ m.top ∧ head m.mem q ≠ fencepostHead then
        let sz := chunksize m.mem q
        mallinfoLoop m fuel (add q sz) (if isInuse m.mem q = false
          then (add sum sz, add mfree sz, add nfree 1) else (add sum sz, mfree, nfree))
      else .ok (sum, mfree, nfree)

/-- `internal_mallinfo`. A segment has no more chunks than bytes. -/
def mspaceMallinfo (m : Mstate) : Except Halt Mallinfo :=
  if m.top ≠ 0 then do
    let mfree := add m.topsize topFootSize
    let (sum, mfree, nfree) ← mallinfoLoop m m.segSize (alignAsChunk m.segBase) (mfree, mfree, 1)
    .ok {
      arena := sum
      ordblks := nfree
      hblkhd := sub m.footprint sum
      usmblks := m.maxFootprint
      uordblks := sub m.footprint mfree
      fordblks := mfree
      keepcost := m.topsize }
  else .ok {}

/-! ## Usable sizes -/

variable {lo limit : Nat} {m : Mstate} {cs : List Chunk} {s a : Nat}

/-- A block may be used up to the foot of its chunk. -/
theorem mspaceUsableSize_spec (h : Inv lo limit m cs) (hmem : (s, a) ∈ held cs) :
    mspaceUsableSize m (chunk2mem a) = s - 8 := by
  obtain ⟨_, hmin, htop, hsz, _, hin, hmm, _⟩ := Gap.of_held h.arena hmem
  have hlim := h.arena.limit_lt
  have hend := h.arena.topEnd
  have hback : mem2chunk (chunk2mem a) = a := Nat.add_sub_cancel _ _
  have hne : chunk2mem a ≠ 0 := Nat.succ_ne_zero _
  have hover : overheadFor m.mem a = 8 := by
    rw [overheadFor, hmm]
    rfl
  rw [mspaceUsableSize, if_pos hne, hback]
  dsimp only
  rw [if_pos hin, hsz, hover, sub_of_le (by omega) (by omega)]

/-! ## Sums over the chunks -/

/-- The sum of the sizes of the chunks `l`. -/
def sizes (l : List (Nat × Nat)) : Nat := (l.map Prod.fst).sum

@[simp] theorem sizes_nil : sizes [] = 0 := rfl

@[simp] theorem sizes_cons (s a : Nat) (l : List (Nat × Nat)) :
    sizes ((s, a) :: l) = s + sizes l := rfl

theorem sizes_perm {l l' : List (Nat × Nat)} (h : l.Perm l') : sizes l = sizes l' :=
  (h.map Prod.fst).sum_nat

/-- The chunks fill the walk. -/
theorem Walk.sizes_eq {w : Words} {hi lo : Nat} {last prev : Bool} {cs : List Chunk}
    (h : Walk w hi last prev lo cs) : lo + (sizes (held cs) + sizes (loose cs)) = hi := by
  induction cs generalizing prev lo with
  | nil => exact h.1
  | cons c cs ih =>
      obtain ⟨a, s, u⟩ := c
      obtain ⟨_, _, _, _, _, hrest⟩ := h
      have hsum := ih hrest
      have hsum : lo + s + (sizes (held cs) + sizes (loose cs)) = hi := hsum
      cases u with
      | true =>
          rw [held_inUse, loose_inUse, sizes_cons]
          omega
      | false =>
          rw [held_free, loose_free, sizes_cons]
          omega

/-- **The loop adds up the chunks** of the walk it follows. -/
theorem mallinfoLoop_spec {q sum mfree nfree fuel : Nat} {prev last : Bool}
    (hwalk : Walk m.mem m.top last prev q cs) (hlo : m.segBase ≤ q)
    (hhi : m.top < m.segBase + m.segSize) (hlt : m.top < 2 ^ 64) (hfuel : cs.length < fuel)
    (hsum : sum + (m.top - q) < 2 ^ 64) (hmfree : mfree + (m.top - q) < 2 ^ 64)
    (hnfree : nfree + (m.top - q) < 2 ^ 64) :
    mallinfoLoop m fuel q (sum, mfree, nfree)
      = .ok (sum + (sizes (held cs) + sizes (loose cs)), mfree + sizes (loose cs),
          nfree + (loose cs).length) := by
  induction cs generalizing q sum mfree nfree fuel prev with
  | nil =>
      obtain ⟨fuel, rfl⟩ : ∃ f, fuel = f + 1 := ⟨fuel - 1, by simp at hfuel; omega⟩
      have hstop : ¬ (m.segmentHolds q = true ∧ q ≠ m.top ∧ head m.mem q ≠ fencepostHead) :=
        fun hc => hc.2.1 hwalk.1
      rw [mallinfoLoop, if_neg hstop]
      rfl
  | cons c cs ih =>
      obtain ⟨a, s, u⟩ := c
      obtain ⟨fuel, rfl⟩ : ∃ f, fuel = f + 1 := ⟨fuel - 1, by simp at hfuel; omega⟩
      obtain ⟨_, hmin, hs16, hhead, hfree, hrest⟩ := hwalk
      have hmin : 32 ≤ s := hmin
      have hs16 : s % 16 = 0 := hs16
      have hhead : head m.mem q = headWord s prev u := hhead
      have hrest : Walk m.mem m.top last u (q + s) cs := hrest
      have hle := hrest.le
      have hsz : chunksize m.mem q = s := by
        rw [chunksize, hhead, headWord_size (by omega) _ _ (by omega)]
      have hholds : m.segmentHolds q = true := by
        unfold Mstate.segmentHolds
        rw [Bool.and_eq_true_iff]
        exact ⟨decide_eq_true hlo, decide_eq_true (by omega)⟩
      have hfence : head m.mem q ≠ fencepostHead := by
        have hval : fencepostHead = 11 := rfl
        rw [hhead, hval, headWord]
        omega
      have hgo : m.segmentHolds q = true ∧ q ≠ m.top ∧ head m.mem q ≠ fencepostHead :=
        ⟨hholds, by omega, hfence⟩
      rw [mallinfoLoop, if_pos hgo]
      dsimp only
      have hnext : add q s = q + s := add_of_lt (by omega)
      have hadd : add sum s = sum + s := add_of_lt (by omega)
      have hfuel' : cs.length < fuel := Nat.lt_of_succ_lt_succ hfuel
      rw [hsz, hnext, hadd]
      cases u with
      | true =>
          have hin : isInuse m.mem q = true := by
            rw [isInuse, hhead, headWord_and_inuse (by omega)]
            cases prev <;> rfl
          rw [if_neg (by rw [hin]; decide)]
          rw [ih hrest (by omega) hfuel' (by omega) (by omega) (by omega), held_inUse, loose_inUse,
            sizes_cons]
          have hsum : sum + s + (sizes (held cs) + sizes (loose cs))
              = sum + (s + sizes (held cs) + sizes (loose cs)) := by omega
          rw [hsum]
      | false =>
          obtain ⟨rfl, _⟩ := hfree rfl
          have hout : isInuse m.mem q = false := by
            rw [isInuse, hhead, headWord_and_inuse (by omega)]
            rfl
          have hadd' : add mfree s = mfree + s := add_of_lt (by omega)
          have hone : add nfree 1 = nfree + 1 := add_of_lt (by omega)
          rw [if_pos hout, hadd', hone]
          rw [ih hrest (by omega) hfuel' (by omega) (by omega) (by omega), held_free, loose_free,
            sizes_cons, List.length_cons]
          have hsum : sum + s + (sizes (held cs) + sizes (loose cs))
              = sum + (sizes (held cs) + (s + sizes (loose cs))) := by omega
          have hcount : nfree + 1 + (loose cs).length = nfree + ((loose cs).length + 1) := by omega
          rw [hsum, Nat.add_assoc mfree, hcount]

theorem Walk.length_le {w : Words} {hi lo : Nat} {last prev : Bool} {cs : List Chunk}
    (h : Walk w hi last prev lo cs) : lo + cs.length ≤ hi := by
  induction cs generalizing prev lo with
  | nil => exact Nat.le_of_eq h.1
  | cons c cs ih =>
      have hle := ih h.2.2.2.2.2
      have hmin := h.2.1
      rw [List.length_cons]
      omega

/-- **`mspace_mallinfo`**: what is in use is what the chunks in use add up
to, the one of the state included, and all of the region is accounted for. -/
theorem mspaceMallinfo_spec {base capacity : Nat} (h : Inv base (base + capacity - 80) m cs)
    (hbase : m.segBase = base) (hsize : m.segSize = capacity) (hfoot : m.footprint = capacity)
    (hroom : base + capacity ≤ 2 ^ 64) :
    mspaceMallinfo m = .ok {
        arena := capacity
        ordblks := 1 + (loose cs).length
        hblkhd := 0
        usmblks := m.maxFootprint
        uordblks := sizes (held cs)
        fordblks := m.topsize + 80 + sizes (loose cs)
        keepcost := m.topsize }
      ∧ sizes (held cs) + (m.topsize + 80 + sizes (loose cs)) = capacity := by
  have hwalk := h.arena.walk
  have hsum := hwalk.sizes_eq
  have hlen := hwalk.length_le
  have hend := h.arena.topEnd
  have htop := h.arena.topPos
  have hpos := h.lo_pos
  have hle := hwalk.le
  have hfootsize : topFootSize = 80 := by decide
  have hmfree : add m.topsize topFootSize = m.topsize + 80 := by
    rw [hfootsize]
    exact add_of_lt (by omega)
  have htotal : sizes (held cs) + (m.topsize + 80 + sizes (loose cs)) = capacity := by omega
  refine ⟨?_, htotal⟩
  have hloop : mallinfoLoop m capacity base (m.topsize + 80, m.topsize + 80, 1)
      = .ok (m.topsize + 80 + (sizes (held cs) + sizes (loose cs)),
          m.topsize + 80 + sizes (loose cs), 1 + (loose cs).length) :=
    mallinfoLoop_spec hwalk (by omega) (by omega) (by omega) (by omega) (by omega) (by omega)
      (by omega)
  have hall : m.topsize + 80 + (sizes (held cs) + sizes (loose cs)) = capacity := by omega
  have hnone : sub capacity capacity = 0 := by
    rw [sub_of_le (Nat.le_refl _) (by omega), Nat.sub_self]
  have hused : sub capacity (m.topsize + 80 + sizes (loose cs)) = sizes (held cs) := by
    rw [sub_of_le (by omega) (by omega)]
    omega
  have hne : m.top ≠ 0 := by omega
  rw [mspaceMallinfo, if_pos hne, hmfree, hbase, alignAsChunk_of_aligned h.arena.lo_aligned, hsize]
  dsimp only
  rw [hloop, hall, hfoot]
  dsimp only [bind, Except.bind]
  rw [hnone, hused]

end SkyEngine.Mspace
