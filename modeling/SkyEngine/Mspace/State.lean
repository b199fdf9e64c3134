import SkyEngine.Mspace.Arena
import SkyEngine.Mspace.Bins

/-!
# Mspace — State

`malloc_state` and the calls that set an mspace up over a region it is given
(`create_mspace_with_base`, `mspace_set_footprint_limit`), and what an mspace
asks of the system: nothing, as long as its footprint limit leaves no room
for one more granule.
-/

namespace SkyEngine.Mspace

open Word64

def maxSizeT : Nat := 2 ^ 64 - 1

/-- `malloc_params`, as `init_mparams` sets them; the page size and the
granularity are the system's. -/
structure Mparams where
  granularity : Nat := 64 * 1024
  pageSize : Nat := 4096
  mmapThreshold : Nat := 256 * 1024
  trimThreshold : Nat := 2 * 1024 * 1024

/-- `init_mparams` aborts unless the granularity is a power of two. -/
def Mparams.Valid (pr : Mparams) : Prop := ∃ k < 64, pr.granularity = 2 ^ k

def granularityAlign (pr : Mparams) (s : Nat) : Nat :=
  add s (pr.granularity - 1) &&& compl (pr.granularity - 1)

def mmapAlign (pr : Mparams) (s : Nat) : Nat := granularityAlign pr s

def externBit : Nat := 8

/-- `sizeof(struct malloc_state)`: two maps, eight words, 66 pointers for the
small bins, 32 for the trees, three footprints, the flags, the segment of
four words, and two words for extensions. -/
def mallocStateSize : Nat := 8 + 8 * 8 + 66 * 8 + 32 * 8 + 3 * 8 + 8 + 4 * 8 + 2 * 8

/-- `sizeof(struct malloc_segment)`. -/
def mallocSegmentSize : Nat := 4 * sizeTSize

/-- Padding at the end of a segment. -/
def topFootSize : Nat :=
  alignOffset (chunk2mem 0) + padRequest mallocSegmentSize + minChunkSize

def sysAllocPadding : Nat := topFootSize + mallocAlignment

def maxReleaseCheckRate : Nat := 4095

/-- A `malloc_state`, with the memory its chunks lie in. Its only segment is
the one it was created over. -/
structure Mstate where
  bins : Bins := {}
  dvsize : Nat := 0
  topsize : Nat := 0
  leastAddr : Nat := 0
  dv : Nat := 0
  top : Nat := 0
  trimCheck : Nat := 0
  releaseChecks : Nat := 0
  footprint : Nat := 0
  maxFootprint : Nat := 0
  footprintLimit : Nat := 0
  segBase : Nat := 0
  segSize : Nat := 0
  sflags : Nat := 0
  mem : Words

/-! ## Setting up -/

/-- Initialize top chunk and its size. -/
def initTop (pr : Mparams) (m : Mstate) (p psize : Nat) : Mstate :=
  let offset := alignOffset (chunk2mem p)
  let p := p + offset
  let psize := sub psize offset
  { m with
    top := p
    topsize := psize
    mem := setHead (setHead m.mem p (psize ||| pinuseBit)) (p + psize) topFootSize
    trimCheck := pr.trimThreshold }

/-- The state sits in a chunk of its own at the start of the region. -/
def initUserMstate (pr : Mparams) (w : Words) (tbase tsize : Nat) : Mstate :=
  let msize := padRequest mallocStateSize
  let msp := alignAsChunk tbase
  let m := chunk2mem msp
  let cleared : Words := fun a => if m ≤ a ∧ a < m + msize then 0 else w a
  let mn := msp + msize
  initTop pr {
    mem := setHead cleared msp (msize ||| inuseBits)
    segBase := tbase
    leastAddr := tbase
    segSize := tsize
    footprint := tsize
    maxFootprint := tsize
    releaseChecks := maxReleaseCheckRate } mn (sub (sub (tbase + tsize) mn) topFootSize)

/-- `create_mspace_with_base`, over memory that holds `w`. -/
def createMspaceWithBase (pr : Mparams) (w : Words) (base capacity : Nat) : Option Mstate :=
  let msize := padRequest mallocStateSize
  if capacity > msize + topFootSize ∧ capacity < neg (msize + topFootSize + pr.pageSize) then
    some { initUserMstate pr w base capacity with sflags := externBit }
  else none

def mspaceSetFootprintLimit (pr : Mparams) (m : Mstate) (bytes : Nat) : Nat × Mstate :=
  let result := if bytes = maxSizeT then 0 else granularityAlign pr bytes
  (result, { m with footprintLimit := result })

/-! ## The system -/

/-- The limit admits `size` more bytes. -/
def Mstate.withinLimit (m : Mstate) (size : Nat) : Bool :=
  if m.footprintLimit ≠ 0 then
    let fp := add m.footprint size
    !(fp ≤ m.footprint || fp > m.footprintLimit)
  else true

/-- Malloc using mmap: null, unless the system is asked. -/
def mmapAlloc (pr : Mparams) (m : Mstate) (nb : Nat) : Except Halt (Option Nat) :=
  let mmsize := mmapAlign pr (add (add nb (6 * sizeTSize)) chunkAlignMask)
  if m.withinLimit mmsize then
    if mmsize > nb then .error .system else .ok none
  else .ok none

/-- Get memory from system: null, unless the system is asked. -/
def sysAlloc (pr : Mparams) (m : Mstate) (nb : Nat) : Except Halt (Option Nat) := do
  if nb ≥ pr.mmapThreshold ∧ m.topsize ≠ 0 then
    let mem ← mmapAlloc pr m nb
    if mem.isSome then return mem
  let asize := granularityAlign pr (add nb sysAllocPadding)
  if asize ≤ nb then .ok none
  else if m.withinLimit asize then .error .system
  else .ok none

/-- There is no segment but the first, and that is not released. -/
def releaseUnusedSegments (m : Mstate) : Mstate := { m with releaseChecks := maxReleaseCheckRate }

def sysTrim (m : Mstate) (pad : Nat) : Except Halt Mstate :=
  if pad < maxRequest ∧ m.top ≠ 0 then
    let pad := add pad topFootSize
    if m.topsize > pad ∧ m.sflags &&& externBit = 0 then .error .system
    else
      let m := releaseUnusedSegments m
      .ok (if m.topsize > m.trimCheck then { m with trimCheck := maxSizeT } else m)
  else .ok m

/-! ## The footprint limit -/

theorem granularity_mask {pr : Mparams} {k : Nat} (hk : k < 64) (hg : pr.granularity = 2 ^ k) :
    compl (pr.granularity - 1) = 2 ^ 64 - 2 ^ k := by
  have hpos := Nat.two_pow_pos k
  have hpow : 2 ^ k ≤ 2 ^ 64 := Nat.pow_le_pow_right (by decide) (by omega)
  rw [hg]
  unfold Word64.compl
  omega

theorem granularityAlign_dvd {pr : Mparams} {k : Nat} (hk : k < 64)
    (hg : pr.granularity = 2 ^ k) (s : Nat) :
    granularityAlign pr s % 2 ^ k = 0 ∧ granularityAlign pr s < 2 ^ 64 := by
  have hlt : add s (pr.granularity - 1) < 2 ^ 64 := Nat.mod_lt _ (by decide)
  rw [granularityAlign, granularity_mask hk hg, and_high_mask hlt (by omega)]
  refine ⟨Nat.mul_mod_left _ _, ?_⟩
  have hle := Nat.div_mul_le_self (add s (pr.granularity - 1)) (2 ^ k)
  omega

/-- The limit leaves no room for a granule. -/
def Capped (pr : Mparams) (m : Mstate) : Prop :=
  m.footprintLimit ≠ 0 ∧ m.footprintLimit < m.footprint + pr.granularity ∧ m.footprint < 2 ^ 64

theorem Capped.withinLimit {pr : Mparams} (hv : pr.Valid) {m : Mstate} (h : Capped pr m)
    (s : Nat) : m.withinLimit (granularityAlign pr s) = false := by
  obtain ⟨k, hk, hg⟩ := hv
  obtain ⟨hmul, hlt⟩ := granularityAlign_dvd hk hg s
  obtain ⟨hne, hcap, hfoot⟩ := h
  rw [Mstate.withinLimit, if_pos hne]
  rw [hg] at hcap
  -- a granule more is beyond the limit, and a sum that wraps around is seen as well
  have hstep : granularityAlign pr s = 0 ∨ 2 ^ k ≤ granularityAlign pr s := by
    rcases Nat.eq_zero_or_pos (granularityAlign pr s) with h0 | hpos
    · exact .inl h0
    · exact .inr (Nat.le_of_dvd hpos (Nat.dvd_of_mod_eq_zero hmul))
  have hsum : add m.footprint (granularityAlign pr s) ≤ m.footprint
      ∨ m.footprintLimit < add m.footprint (granularityAlign pr s) := by
    unfold add
    omega
  rcases hsum with hle | hgt
  · simp [hle]
  · simp [hgt]

/-- **A capped mspace never asks the system for memory.** -/
theorem sysAlloc_capped {pr : Mparams} (hv : pr.Valid) {m : Mstate} (h : Capped pr m)
    (nb : Nat) : sysAlloc pr m nb = .ok none := by
  have hmmap : mmapAlloc pr m nb = .ok none := by
    rw [mmapAlloc, mmapAlign]
    simp only [h.withinLimit hv]
    rfl
  unfold sysAlloc
  simp only [hmmap, h.withinLimit hv]
  split <;> split <;> rfl

end SkyEngine.Mspace
