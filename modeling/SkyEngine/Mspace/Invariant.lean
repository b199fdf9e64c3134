import SkyEngine.Mspace.State

/-!
# Mspace — Invariant

What holds of an mspace between calls: its memory is a tagged arena, and
each free chunk is either the designated victim `dv` or in the bin of its
size.
-/

namespace SkyEngine.Mspace

open Word64

/-- The designated victim, if there is one. -/
def dvEntries (m : Mstate) : List (Nat × Nat) :=
  if m.dvsize = 0 then [] else [(m.dvsize, m.dv)]

/-- The invariant of an mspace whose chunks are `cs`, from `lo` on, with
`limit` the end of its top. -/
structure Inv (lo limit : Nat) (m : Mstate) (cs : List Chunk) : Prop where
  arena : Arena m.mem lo limit m.top m.topsize cs
  binned : ∃ l, (loose cs).Perm (dvEntries m ++ l) ∧ Holds m.bins l
  dv_null : m.dvsize = 0 → m.dv = 0
  least : m.leastAddr ≤ lo
  lo_pos : 0 < lo
  external : m.sflags = externBit

/-- The fields no call changes once the mspace is set up. -/
structure Same (m m' : Mstate) : Prop where
  leastAddr : m'.leastAddr = m.leastAddr
  footprint : m'.footprint = m.footprint
  footprintLimit : m'.footprintLimit = m.footprintLimit
  segBase : m'.segBase = m.segBase
  segSize : m'.segSize = m.segSize

theorem Same.refl (m : Mstate) : Same m m := ⟨rfl, rfl, rfl, rfl, rfl⟩

theorem Same.trans {m m' m'' : Mstate} (h : Same m m') (h' : Same m' m'') : Same m m'' where
  leastAddr := h'.leastAddr.trans h.leastAddr
  footprint := h'.footprint.trans h.footprint
  footprintLimit := h'.footprintLimit.trans h.footprintLimit
  segBase := h'.segBase.trans h.segBase
  segSize := h'.segSize.trans h.segSize

theorem Same.capped {pr : Mparams} {m m' : Mstate} (h : Same m m') (hc : Capped pr m) :
    Capped pr m' := by
  unfold Capped
  rw [h.footprint, h.footprintLimit]
  exact hc

/-! ## The free chunks -/

section Free

variable {lo limit : Nat} {m : Mstate} {cs : List Chunk} {l : List (Nat × Nat)} {e : Nat × Nat}

/-- A free chunk is the victim or in the bins. -/
theorem mem_cases (hloose : (loose cs).Perm (dvEntries m ++ l)) (he : e ∈ loose cs) :
    e = (m.dvsize, m.dv) ∨ e ∈ l := by
  rcases List.mem_append.mp (hloose.mem_iff.mp he) with hdv | hin
  · unfold dvEntries at hdv
    split at hdv
    · cases hdv
    · exact .inl (List.mem_singleton.mp hdv)
  · exact .inr hin

theorem binned_mem (hloose : (loose cs).Perm (dvEntries m ++ l)) (he : e ∈ l) : e ∈ loose cs :=
  hloose.mem_iff.mpr (List.mem_append_right _ he)

theorem Inv.dv_mem (h : Inv lo limit m cs) (hdv : m.dvsize ≠ 0) : (m.dvsize, m.dv) ∈ loose cs := by
  obtain ⟨l, hloose, _⟩ := h.binned
  refine hloose.mem_iff.mpr (List.mem_append_left _ ?_)
  rw [dvEntries, if_neg hdv]
  exact List.mem_singleton.mpr rfl

theorem Inv.dv_lt (h : Inv lo limit m cs) : m.dvsize < 2 ^ 64 := by
  by_cases hdv : m.dvsize = 0
  · omega
  · exact (h.arena.loose_sized (h.dv_mem hdv)).2.2.2.2

end Free

/-! ## A new mspace -/

theorem alignOffset_of_aligned {a : Nat} (h : a % 16 = 0) : alignOffset a = 0 := by
  have hand : a &&& chunkAlignMask = a % 16 := and_low a 4
  rw [alignOffset, hand, if_pos h]

theorem alignAsChunk_of_aligned {a : Nat} (h : a % 16 = 0) : alignAsChunk a = a := by
  rw [alignAsChunk, chunk2mem, alignOffset_of_aligned, Nat.add_zero]
  simp only [twoSizeTSizes, sizeTSize]
  omega

/-- **A new mspace** over an aligned region: the chunk its state sits in, and
the top. -/
theorem createMspaceWithBase_inv {pr : Mparams} {w : Words} {base capacity : Nat} {m : Mstate}
    (hbase : base % 16 = 0) (hcap : capacity % 16 = 0) (hpos : 0 < base)
    (hregion : base + capacity ≤ 2 ^ 64) (hm : createMspaceWithBase pr w base capacity = some m) :
    Inv base (base + capacity - 80) m [⟨base, 944, true⟩] ∧ m.footprint = capacity
      ∧ m.segBase = base ∧ m.segSize = capacity := by
  have hmsize : padRequest mallocStateSize = 944 := by decide
  have hfoot : topFootSize = 80 := by decide
  unfold createMspaceWithBase at hm
  dsimp only at hm
  split at hm
  · rename_i hfits
    rw [hmsize, hfoot] at hfits
    cases hm
    have hmsp := alignAsChunk_of_aligned hbase
    have hoff : alignOffset (chunk2mem (base + 944)) = 0 := by
      refine alignOffset_of_aligned ?_
      simp only [chunk2mem, twoSizeTSizes, sizeTSize]
      omega
    have hsub : sub (base + capacity) (base + 944) = capacity - 944 := by
      unfold sub
      omega
    have hsub' : sub (capacity - 944) 80 = capacity - 1024 := by
      unfold sub
      omega
    have hsub'' : sub (capacity - 1024) 0 = capacity - 1024 := by
      unfold sub
      omega
    have hbits : 944 ||| inuseBits = headWord 944 true true := by decide
    simp only [initUserMstate, initTop, hmsp, hmsize, hfoot, hoff, hsub, hsub', hsub'', hbits,
      Nat.add_zero]
    refine ⟨?_, trivial, trivial, trivial⟩
    constructor
    case arena =>
      constructor
      case lo_aligned => exact hbase
      case limit_aligned => omega
      case limit_lt => omega
      case walk =>
        refine ⟨rfl, by show 32 ≤ 944; decide, by show 944 % 16 = 0; decide, ?_,
          fun hc => Bool.noConfusion hc, rfl, rfl⟩
        show head (setHead (setHead (setHead _ _ _) _ _) _ _) base = headWord 944 true true
        rw [head_setHead_of_ne (by omega), head_setHead_of_ne (by omega), head_setHead]
      case topHead =>
        show head (setHead _ _ _) (base + 944) = headWord (capacity - 1024) true false
        rw [head_setHead_of_ne (by omega), head_setHead, size_or_pinuse (by omega)]
      case topEnd =>
        show base + 944 + (capacity - 1024) = base + capacity - 80
        omega
      case topPos =>
        show 0 < capacity - 1024
        omega
    case binned => exact ⟨[], List.Perm.refl _, Holds.empty⟩
    case dv_null => exact fun _ => rfl
    case least => exact Nat.le_refl _
    case lo_pos => exact hpos
    case external => rfl
  · cases hm

/-- A footprint limit of the capacity caps the mspace. -/
theorem setFootprintLimit_capped {pr : Mparams} (hv : pr.Valid) {m : Mstate}
    (hpos : 0 < m.footprint) (hroom : m.footprint + pr.granularity < 2 ^ 64) :
    Capped pr (mspaceSetFootprintLimit pr m m.footprint).2 := by
  obtain ⟨k, hk, hg⟩ := hv
  have hgpos := Nat.two_pow_pos k
  rw [hg] at hroom
  have hadd : add m.footprint (pr.granularity - 1) = m.footprint + (2 ^ k - 1) := by
    rw [hg]
    exact add_of_lt (by omega)
  obtain ⟨r, hr, hle, hlt, _⟩ := round_up (x := m.footprint) (k := k) (by omega) (by omega)
  have halign : granularityAlign pr m.footprint = r := by
    rw [granularityAlign, granularity_mask hk hg, hadd, hr]
  have hne : m.footprint ≠ maxSizeT := by
    unfold maxSizeT
    omega
  have hset : mspaceSetFootprintLimit pr m m.footprint = (r, { m with footprintLimit := r }) := by
    rw [mspaceSetFootprintLimit, if_neg hne, halign]
  rw [hset]
  refine ⟨?_, ?_, ?_⟩
  · show r ≠ 0
    omega
  · show r < m.footprint + pr.granularity
    omega
  · show m.footprint < 2 ^ 64
    omega

/-! ## One free chunk out of the bins -/

/-- The invariant but for the free chunk of `s` bytes at `a`, which neither
the bins nor `dv` know. -/
structure Loosened (lo limit : Nat) (m : Mstate) (cs : List Chunk) (s a : Nat) : Prop where
  arena : Arena m.mem lo limit m.top m.topsize cs
  binned : ∃ l, (loose cs).Perm ((s, a) :: (dvEntries m ++ l)) ∧ Holds m.bins l
  dv_null : m.dvsize = 0 → m.dv = 0
  least : m.leastAddr ≤ lo
  lo_pos : 0 < lo
  external : m.sflags = externBit

variable {lo limit : Nat} {m : Mstate} {cs : List Chunk} {s a : Nat}

/-- Unlinking a binned chunk. -/
theorem Inv.unlinkChunk (h : Inv lo limit m cs) {l l' : List (Nat × Nat)}
    (hloose : (loose cs).Perm (dvEntries m ++ l)) (hb : Holds m.bins l)
    (hmem : l.Perm ((s, a) :: l')) :
    ∃ b, m.bins.unlinkChunk a s = .ok b ∧ Loosened lo limit { m with bins := b } cs s a := by
  obtain ⟨b, hok, hb'⟩ := hb.unlinkChunk hmem
  refine ⟨b, hok, ?_⟩
  constructor
  case arena => exact h.arena
  case binned =>
    exact ⟨l', hloose.trans ((hmem.append_left _).trans List.perm_middle), hb'⟩
  case dv_null => exact h.dv_null
  case least => exact h.least
  case lo_pos => exact h.lo_pos
  case external => exact h.external

namespace Loosened

theorem mem (h : Loosened lo limit m cs s a) : (s, a) ∈ loose cs := by
  obtain ⟨l, hperm, _⟩ := h.binned
  exact hperm.mem_iff.mpr List.mem_cons_self

/-- **The chunk goes into a bin.** -/
theorem insertChunk (h : Loosened lo limit m cs s a) :
    Inv lo limit { m with bins := m.bins.insertChunk a s } cs := by
  obtain ⟨l, hperm, hb⟩ := h.binned
  obtain ⟨_, _, hmin, hs16, hlt⟩ := h.arena.loose_sized h.mem
  have hnew : a ∉ l.map Prod.snd := by
    have hnodup := (hperm.map Prod.snd).nodup_iff.mp h.arena.loose_nodup
    intro hin
    refine (List.nodup_cons.mp hnodup).1 ?_
    rw [List.map_append]
    exact List.mem_append_right _ hin
  constructor
  case arena => exact h.arena
  case binned =>
    exact ⟨(s, a) :: l, hperm.trans List.perm_middle.symm, hb.insertChunk hmin hs16 hlt hnew⟩
  case dv_null => exact h.dv_null
  case least => exact h.least
  case lo_pos => exact h.lo_pos
  case external => exact h.external

end Loosened

end SkyEngine.Mspace
