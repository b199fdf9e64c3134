import SkyEngine.Mspace.Invariant
import SkyEngine.Mspace.Search

/-!
# Mspace — Malloc

`mspace_malloc`: a small request from the bin of its size or the next one,
then from the designated victim, a larger small bin or the smallest tree
chunk; a large request from the best fitting tree chunk unless the victim
fits better; and either from `top`, or from the system.
-/

namespace SkyEngine.Mspace

open Word64

/-! ## The code -/

/-- Replace dv node, binning the old one. -/
def replaceDv (m : Mstate) (p s : Nat) : Mstate :=
  let bins := if m.dvsize ≠ 0 then m.bins.insertSmallChunk m.dv m.dvsize else m.bins
  { m with bins := bins, dvsize := s, dv := p }

/-- Bin a remainder. -/
def insertRemainder (m : Mstate) (p s : Nat) : Mstate :=
  { m with bins := m.bins.insertChunk p s }

/-- The unlinked free chunk at `p` serves a request of `nb` bytes; `rsize`
is what it leaves over, and goes to `keep` if it makes a chunk. -/
def serve (keep : Mstate → Nat → Nat → Mstate) (m : Mstate) (p nb rsize : Nat) : Mstate :=
  if rsize < minChunkSize then { m with mem := setInuseAndPinuse m.mem p (rsize + nb) }
  else
    let w := setSizeAndPinuseOfFreeChunk (setSizeAndPinuseOfInuseChunk m.mem p nb) (p + nb) rsize
    keep { m with mem := w } (p + nb) rsize

/-- Unlink the tree chunk `v` of `s` bytes and serve the request from it. -/
def serveFromTree (keep : Mstate → Nat → Nat → Mstate) (m : Mstate) (v s nb rsize : Nat) :
    Except Halt (Nat × Mstate) := do
  if m.leastAddr ≤ v ∧ v < add v nb then
    let bins ← m.bins.unlinkLargeChunk v s
    .ok (v, serve keep { m with bins := bins } v nb rsize)
  else .error .abort

/-- Allocate a large request from the best fitting chunk in a treebin. -/
def tmallocLarge (m : Mstate) (nb : Nat) : Except Halt (Option (Nat × Mstate)) :=
  let f := m.bins.fitLarge nb
  match f.v with
  | none => .ok none
  | some (s, v) =>
      -- if dv is a better fit, return 0 so malloc will use it
      if f.rsize < sub m.dvsize nb then do
        let r ← serveFromTree insertRemainder m v s nb f.rsize
        .ok (some r)
      else .ok none

/-- Allocate a small request from the best fitting chunk in a treebin. -/
def tmallocSmall (m : Mstate) (nb : Nat) : Except Halt (Nat × Mstate) :=
  let f := m.bins.fitSmall nb
  match f.v with
  | none => .error .abort
  | some (s, v) => serveFromTree replaceDv m v s nb f.rsize

/-- The bins' part of a small request. -/
def mallocSmall (m : Mstate) (nb : Nat) : Except Halt (Option (Nat × Mstate)) :=
  let idx := smallIndex nb
  let smallbits := m.bins.smallmap >>> idx
  if smallbits &&& 3 ≠ 0 then do
    -- remainderless fit to a smallbin
    let idx := m.bins.exactIndex idx
    let (p, bins) ← m.bins.unlinkFirstSmallChunk idx
    .ok (some (p, { m with
      bins := bins
      mem := setInuseAndPinuse m.mem p (smallIndex2size idx) }))
  else if nb > m.dvsize then
    if smallbits ≠ 0 then do
      let i := m.bins.nextIndex idx
      let (p, bins) ← m.bins.unlinkFirstSmallChunk i
      .ok (some (p, serve replaceDv { m with bins := bins } p nb (smallIndex2size i - nb)))
    else if m.bins.treemap ≠ 0 then do
      let r ← tmallocSmall m nb
      .ok (some r)
    else .ok none
  else .ok none

/-- From the designated victim, from top, or from the system. -/
def mallocDvOrTop (pr : Mparams) (m : Mstate) (nb : Nat) : Except Halt (Option Nat × Mstate) :=
  if nb ≤ m.dvsize then
    let rsize := m.dvsize - nb
    let p := m.dv
    if rsize ≥ minChunkSize then
      .ok (some (chunk2mem p), { m with
        dv := p + nb
        dvsize := rsize
        mem := setSizeAndPinuseOfInuseChunk
          (setSizeAndPinuseOfFreeChunk m.mem (p + nb) rsize) p nb })
    else
      .ok (some (chunk2mem p), { m with
        dvsize := 0
        dv := 0
        mem := setInuseAndPinuse m.mem p m.dvsize })
  else if nb < m.topsize then
    let rsize := m.topsize - nb
    let p := m.top
    .ok (some (chunk2mem p), { m with
      topsize := rsize
      top := p + nb
      mem := setSizeAndPinuseOfInuseChunk (setHead m.mem (p + nb) (rsize ||| pinuseBit)) p nb })
  else do
    let mem ← sysAlloc pr m nb
    .ok (mem, m)

def mspaceMalloc (pr : Mparams) (m : Mstate) (bytes : Nat) :
    Except Halt (Option Nat × Mstate) := do
  if bytes ≤ maxSmallRequest then
    let nb := if bytes < minRequest then minChunkSize else padRequest bytes
    match ← mallocSmall m nb with
    | some (p, m) => .ok (some (chunk2mem p), m)
    | none => mallocDvOrTop pr m nb
  else if bytes ≥ maxRequest then
    -- too big to allocate: force failure (in sys alloc)
    mallocDvOrTop pr m maxSizeT
  else
    let nb := padRequest bytes
    match ← (if m.bins.treemap ≠ 0 then tmallocLarge m nb else .ok none) with
    | some (p, m) => .ok (some (chunk2mem p), m)
    | none => mallocDvOrTop pr m nb

/-! ## Serving from a free chunk -/

/-- A request for `nb` bytes got a chunk at `p`, with at most a minimum chunk
to spare, and nothing in another chunk in use changed. -/
def Served (lo limit : Nat) (m : Mstate) (cs : List Chunk) (nb p : Nat) (m' : Mstate) : Prop :=
  Same m m' ∧ ∃ s cs', Inv lo limit m' cs' ∧ (held cs').Perm ((s, p) :: held cs)
    ∧ nb ≤ s ∧ s ≤ nb + 32 ∧ Untouched m.mem m'.mem (held cs)

variable {lo limit : Nat} {m : Mstate} {cs : List Chunk} {s a nb : Nat}

/-- **The chunk becomes the designated victim**, the old one, which is
small, being binned. -/
theorem Loosened.replaceDv (h : Loosened lo limit m cs s a) (hdv : m.dvsize < 256) :
    Inv lo limit (replaceDv m a s) cs := by
  obtain ⟨l, hperm, hb⟩ := h.binned
  obtain ⟨_, _, hmin, _, _⟩ := h.arena.loose_sized h.mem
  have hs : s ≠ 0 := by omega
  constructor
  case arena => exact h.arena
  case binned =>
    by_cases h0 : m.dvsize = 0
    · refine ⟨l, ?_, ?_⟩
      · have hold : dvEntries m = [] := if_pos h0
        rw [hold] at hperm
        show (loose cs).Perm ((if s = 0 then [] else [(s, a)]) ++ l)
        rw [if_neg hs]
        exact hperm
      · show Holds (if m.dvsize ≠ 0 then m.bins.insertSmallChunk m.dv m.dvsize else m.bins) l
        rw [if_neg (not_not.mpr h0)]
        exact hb
    · have hold : dvEntries m = [(m.dvsize, m.dv)] := if_neg h0
      rw [hold] at hperm
      refine ⟨(m.dvsize, m.dv) :: l, ?_, ?_⟩
      · show (loose cs).Perm ((if s = 0 then [] else [(s, a)]) ++ (m.dvsize, m.dv) :: l)
        rw [if_neg hs]
        exact hperm
      · show Holds (if m.dvsize ≠ 0 then m.bins.insertSmallChunk m.dv m.dvsize else m.bins) _
        rw [if_pos h0]
        have hmem : (m.dvsize, m.dv) ∈ loose cs := hperm.mem_iff.mpr (by simp)
        obtain ⟨_, _, hmin', h16, _⟩ := h.arena.loose_sized hmem
        have hnodup := (hperm.map Prod.snd).nodup_iff.mp h.arena.loose_nodup
        have hnew := (List.nodup_cons.mp (List.nodup_cons.mp hnodup).2).1
        exact hb.insertSmallChunk hmin' h16 ((isSmall_iff _).mpr hdv) hnew
  case dv_null => exact fun h0 => absurd h0 hs
  case least => exact h.least
  case lo_pos => exact h.lo_pos
  case external => exact h.external

/-- **An unlinked chunk serves a request**, whichever way its remainder is
kept. -/
theorem Loosened.serve (h : Loosened lo limit m cs s a) (keep : Mstate → Nat → Nat → Mstate)
    (hnb : 32 ≤ nb) (hnb16 : nb % 16 = 0) (hle : nb ≤ s)
    (hsame : ∀ m r rs, Same m (keep m r rs) ∧ (keep m r rs).mem = m.mem)
    (hkeep : ∀ w cs' rs r, Loosened lo limit { m with mem := w } cs' rs r →
      Inv lo limit (keep { m with mem := w } r rs) cs') :
    Served lo limit m cs nb a (serve keep m a nb (s - nb)) := by
  obtain ⟨l, hperm, hb⟩ := h.binned
  have hmin : minChunkSize = 32 := rfl
  by_cases hsmall : s - nb < 32
  · have hs : s - nb + nb = s := by omega
    have hserve : SkyEngine.Mspace.serve keep m a nb (s - nb)
        = { m with mem := setInuseAndPinuse m.mem a s } := by
      rw [SkyEngine.Mspace.serve, hmin, if_pos hsmall, hs]
    rw [hserve]
    obtain ⟨cs', harena, hloose, hheld, hkept⟩ := h.arena.takeWhole h.mem
    refine ⟨⟨rfl, rfl, rfl, rfl, rfl⟩, s, cs', ?_, hheld, hle, by omega, hkept⟩
    constructor
    case arena => exact harena
    case binned => exact ⟨l, (List.perm_cons _).mp (hloose.symm.trans hperm), hb⟩
    case dv_null => exact h.dv_null
    case least => exact h.least
    case lo_pos => exact h.lo_pos
    case external => exact h.external
  · obtain ⟨cs', F, harena, hloose, hloose', hheld, hkept⟩ :=
      h.arena.takeSplit h.mem hnb hnb16 (by omega)
    have hF : F.Perm (dvEntries m ++ l) := (List.perm_cons _).mp (hloose.symm.trans hperm)
    obtain ⟨w, hw⟩ : ∃ w, setSizeAndPinuseOfFreeChunk (setSizeAndPinuseOfInuseChunk m.mem a nb)
      (a + nb) (s - nb) = w := ⟨_, rfl⟩
    rw [hw] at harena hkept
    have hserve : SkyEngine.Mspace.serve keep m a nb (s - nb)
        = keep { m with mem := w } (a + nb) (s - nb) := by
      rw [SkyEngine.Mspace.serve, hmin, if_neg hsmall, ← hw]
    rw [hserve]
    have hrest : Loosened lo limit { m with mem := w } cs' (s - nb) (a + nb) := by
      constructor
      case arena => exact harena
      case binned => exact ⟨l, hloose'.trans (hF.cons _), hb⟩
      case dv_null => exact h.dv_null
      case least => exact h.least
      case lo_pos => exact h.lo_pos
      case external => exact h.external
    obtain ⟨⟨h1, h2, h3, h4, h5⟩, hmem⟩ := hsame { m with mem := w } (a + nb) (s - nb)
    refine ⟨⟨h1, h2, h3, h4, h5⟩, nb, cs', hkeep _ _ _ _ hrest, hheld, Nat.le_refl _, by omega, ?_⟩
    rw [hmem]
    exact hkept

theorem same_insertRemainder (m : Mstate) (p s : Nat) :
    Same m (insertRemainder m p s) ∧ (insertRemainder m p s).mem = m.mem :=
  ⟨⟨rfl, rfl, rfl, rfl, rfl⟩, rfl⟩

theorem same_replaceDv (m : Mstate) (p s : Nat) :
    Same m (replaceDv m p s) ∧ (replaceDv m p s).mem = m.mem :=
  ⟨⟨rfl, rfl, rfl, rfl, rfl⟩, rfl⟩

/-! ## The searches -/

/-- The free chunk of `s` bytes at `p` fits, and no free chunk fits better. -/
structure BestFit (cs : List Chunk) (nb s p : Nat) : Prop where
  mem : (s, p) ∈ loose cs
  fits : nb ≤ s
  least : ∀ e ∈ loose cs, nb ≤ e.1 → s ≤ e.1

/-- No free chunk fits. -/
def NoFit (cs : List Chunk) (nb : Nat) : Prop := ∀ e ∈ loose cs, e.1 < nb

/-- The designated victim is what a small request is served from if no chunk
has just its size. -/
structure Victim (m : Mstate) (cs : List Chunk) (nb p : Nat) : Prop where
  small : nb < 256
  fits : nb ≤ m.dvsize
  addr : p = m.dv
  inexact : ∀ e ∈ loose cs, e.1 = nb → m.dvsize = nb

theorem serveFromTree_spec (keep : Mstate → Nat → Nat → Mstate) (h : Inv lo limit m cs)
    {l : List (Nat × Nat)} (hloose : (loose cs).Perm (dvEntries m ++ l)) (hb : Holds m.bins l)
    (hmem : (s, a) ∈ l) (hlarge : 256 ≤ s) (hnb : 32 ≤ nb) (hnb16 : nb % 16 = 0) (hle : nb ≤ s)
    (hsame : ∀ m r rs, Same m (keep m r rs) ∧ (keep m r rs).mem = m.mem)
    (hkeep : ∀ b w cs' rs r, Loosened lo limit { m with bins := b, mem := w } cs' rs r →
      Inv lo limit (keep { m with bins := b, mem := w } r rs) cs') :
    ∃ m', serveFromTree keep m a s nb (s - nb) = .ok (a, m') ∧ Served lo limit m cs nb a m' := by
  have hin : (s, a) ∈ loose cs := binned_mem hloose hmem
  obtain ⟨hlo, htop, _, _, _⟩ := h.arena.loose_sized hin
  have hlim := h.arena.limit_lt
  have hend := h.arena.topEnd
  have hleast := h.least
  obtain ⟨b, hok, hloosened⟩ := h.unlinkChunk hloose hb (List.perm_cons_erase hmem)
  have hunlink : m.bins.unlinkLargeChunk a s = .ok b := by
    have hsmall : ¬ isSmall s = true := by
      rw [isSmall_iff]
      omega
    rwa [Bins.unlinkChunk, if_neg hsmall] at hok
  have hnext : add a nb = a + nb := add_of_lt (by omega)
  have hcheck : m.leastAddr ≤ a ∧ a < add a nb := by
    rw [hnext]
    omega
  obtain ⟨⟨h1, h2, h3, h4, h5⟩, hserved⟩ := hloosened.serve keep hnb hnb16 hle hsame (hkeep b)
  refine ⟨_, ?_, ⟨⟨h1, h2, h3, h4, h5⟩, hserved⟩⟩
  rw [serveFromTree, if_pos hcheck, hunlink]
  rfl

/-- **`tmalloc_large`** takes the best fit of all free chunks, and leaves the
request to the designated victim exactly when that is a best fit. -/
theorem tmallocLarge_spec (h : Inv lo limit m cs) (hnb : 256 ≤ nb) (hnb16 : nb % 16 = 0)
    (hlt : nb < 2 ^ 64) :
    (∃ s p m', tmallocLarge m nb = .ok (some (p, m')) ∧ BestFit cs nb s p
        ∧ Served lo limit m cs nb p m')
      ∨ (tmallocLarge m nb = .ok none
        ∧ (NoFit cs nb ∨ nb ≤ m.dvsize ∧ BestFit cs nb m.dvsize m.dv)) := by
  obtain ⟨l, hloose, hb⟩ := h.binned
  have hbest := hb.fitLarge_best hnb hlt
  have hsized : ∀ e ∈ l, e.1 < 2 ^ 64 := fun e he => (hb.sized e he).2.2
  have hdvmem : nb ≤ m.dvsize → (m.dvsize, m.dv) ∈ loose cs := fun hle => h.dv_mem (by omega)
  have hdvlt := h.dv_lt
  have hleast : ∀ e ∈ l, nb ≤ e.1 → (m.bins.fitLarge nb).rsize ≤ e.1 - nb :=
    fun e he hn => hbest.least e (List.mem_filter.mpr ⟨he, by simp; omega⟩) hn
  cases hv : (m.bins.fitLarge nb).v with
  | none =>
      have hbound := hbest.none hv
      have hnone : ∀ e ∈ l, e.1 < nb := by
        intro e he
        by_contra hge
        have hr := hleast e he (Nat.le_of_not_lt hge)
        have hs := hsized e he
        omega
      refine .inr ⟨by rw [tmallocLarge, hv], ?_⟩
      by_cases hdv : nb ≤ m.dvsize
      · refine .inr ⟨hdv, hdvmem hdv, hdv, fun e he hn => ?_⟩
        rcases mem_cases hloose he with rfl | hin
        · exact Nat.le_refl _
        · have hlt' := hnone e hin
          omega
      · refine .inl fun e he => ?_
        rcases mem_cases hloose he with rfl | hin
        · exact Nat.lt_of_not_le hdv
        · exact hnone e hin
  | some e₁ =>
      obtain ⟨s, v⟩ := e₁
      obtain ⟨hmem, hn, hr, hbound⟩ := hbest.chosen _ hv
      obtain ⟨hin, hlarge⟩ := List.mem_filter.mp hmem
      have hlarge : 256 ≤ s := by simpa using hlarge
      have hn : nb ≤ s := hn
      have hr : (m.bins.fitLarge nb).rsize = s - nb := hr
      by_cases hbetter : (m.bins.fitLarge nb).rsize < sub m.dvsize nb
      · obtain ⟨m', hok, hserved⟩ := serveFromTree_spec insertRemainder h hloose hb hin
          hlarge (by omega) hnb16 hn same_insertRemainder fun b w cs' rs r hl => hl.insertChunk
        refine .inl ⟨s, v, m', ?_, ⟨binned_mem hloose hin, hn, ?_⟩,
          hserved⟩
        · rw [tmallocLarge, hv]
          dsimp only
          rw [if_pos hbetter, hr, hok]
          rfl
        · intro e he hne
          rcases mem_cases hloose he with rfl | hin'
          · have hdv : nb ≤ m.dvsize := hne
            rw [sub_of_le hdv hdvlt] at hbetter
            show s ≤ m.dvsize
            omega
          · have hle := hleast e hin' hne
            omega
      · have hdv : nb ≤ m.dvsize := by
          by_contra hno
          rw [sub_of_lt (by omega) (by omega)] at hbetter
          omega
        rw [sub_of_le hdv hdvlt] at hbetter
        refine .inr ⟨?_, .inr ⟨hdv, hdvmem hdv, hdv, fun e he hne => ?_⟩⟩
        · rw [tmallocLarge, hv]
          dsimp only
          rw [sub_of_le hdv hdvlt, if_neg hbetter]
        · rcases mem_cases hloose he with rfl | hin'
          · exact Nat.le_refl _
          · have hle := hleast e hin' hne
            omega

/-- **`tmalloc_small`** finds the smallest large chunk once a tree is
marked. -/
theorem tmallocSmall_spec (h : Inv lo limit m cs) (hnb : 32 ≤ nb) (hnb16 : nb % 16 = 0)
    (hsmall : nb < 256) (hdv : m.dvsize < 256) (htrees : m.bins.treemap ≠ 0) :
    ∃ s p m', tmallocSmall m nb = .ok (p, m') ∧ (s, p) ∈ loose cs ∧ nb ≤ s
      ∧ (∀ e ∈ loose cs, 256 ≤ e.1 → s ≤ e.1) ∧ Served lo limit m cs nb p m' := by
  obtain ⟨l, hloose, hb⟩ := h.binned
  have hbest := hb.fitSmall_best (by omega) hsmall htrees
  cases hv : (m.bins.fitSmall nb).v with
  | none =>
      -- the marked tree has a member, and it fits
      obtain ⟨j, hj⟩ := BitMap.exists_of_ne_zero htrees
      have hj32 : j < 32 := BitVec.lt_of_getLsbD hj
      obtain ⟨e, he⟩ := BitTrie.exists_entry ((hb.treemap j hj32).mp hj)
      obtain ⟨hmem, hlarge, _⟩ := hb.mem_tree he
      have hleast := hbest.least e (List.mem_filter.mpr ⟨hmem, by simpa using hlarge⟩) (by omega)
      have hbound := hbest.none hv
      have hsized := (hb.sized e hmem).2.2
      omega
  | some e₁ =>
      obtain ⟨s, v⟩ := e₁
      obtain ⟨hmem, hn, hr, _⟩ := hbest.chosen _ hv
      obtain ⟨hin, hlarge⟩ := List.mem_filter.mp hmem
      have hlarge : 256 ≤ s := by simpa using hlarge
      have hn : nb ≤ s := hn
      have hr : (m.bins.fitSmall nb).rsize = s - nb := hr
      obtain ⟨m', hok, hserved⟩ := serveFromTree_spec replaceDv h hloose hb hin hlarge hnb
        hnb16 hn same_replaceDv fun b w cs' rs r hl => hl.replaceDv hdv
      refine ⟨s, v, m', ?_, binned_mem hloose hin, hn, fun e he hl => ?_, hserved⟩
      · rw [tmallocSmall, hv]
        dsimp only
        rw [hr, hok]
      · rcases mem_cases hloose he with rfl | hin'
        · exact absurd hdv (Nat.not_lt_of_ge hl)
        · have hle := hbest.least e (List.mem_filter.mpr ⟨hin', by simpa using hl⟩) (by omega)
          omega

/-- A chunk of a small bin serves the request. -/
theorem serveFromBin_spec (h : Inv lo limit m cs) {i : Nat} (hi : i < 32)
    (hne : m.bins.smallbins i ≠ []) (hnb : 32 ≤ nb) (hnb16 : nb % 16 = 0) (hle : nb ≤ 8 * i)
    (hdv : m.dvsize < 256 ∨ 8 * i < nb + 32) :
    ∃ p b, m.bins.unlinkFirstSmallChunk i = .ok (p, b) ∧ (8 * i, p) ∈ loose cs
      ∧ Served lo limit m cs nb p
        (serve replaceDv { m with bins := b } p nb (smallIndex2size i - nb)) := by
  obtain ⟨l, hloose, hb⟩ := h.binned
  obtain ⟨p, b, l', hok, hperm, hb'⟩ := hb.unlinkFirst hi hne
  have hsize : smallIndex2size i = 8 * i := by
    rw [smallIndex2size, smallbinShift, Nat.shiftLeft_eq]
    omega
  have hin : (8 * i, p) ∈ loose cs :=
    binned_mem hloose (hperm.mem_iff.mpr List.mem_cons_self)
  have hloosened : Loosened lo limit { m with bins := b } cs (8 * i) p := by
    constructor
    case arena => exact h.arena
    case binned =>
      exact ⟨l', hloose.trans ((hperm.append_left _).trans List.perm_middle), hb'⟩
    case dv_null => exact h.dv_null
    case least => exact h.least
    case lo_pos => exact h.lo_pos
    case external => exact h.external
  refine ⟨p, b, hok, hin, ?_⟩
  rw [hsize]
  rcases hdv with hdv | hexact
  · obtain ⟨⟨h1, h2, h3, h4, h5⟩, hserved⟩ := hloosened.serve replaceDv hnb hnb16 hle
      same_replaceDv fun w cs' rs r hl => hl.replaceDv hdv
    exact ⟨⟨h1, h2, h3, h4, h5⟩, hserved⟩
  · -- nothing is left over, so the way to keep it does not matter
    have hany : ∀ keep, serve keep { m with bins := b } p nb (8 * i - nb)
        = serve insertRemainder { m with bins := b } p nb (8 * i - nb) := by
      intro keep
      have hmin : 8 * i - nb < minChunkSize := by
        show 8 * i - nb < 32
        omega
      rw [serve, serve, if_pos hmin, if_pos hmin]
    rw [hany]
    obtain ⟨⟨h1, h2, h3, h4, h5⟩, hserved⟩ := hloosened.serve insertRemainder hnb hnb16 hle
      same_insertRemainder fun w cs' rs r hl => hl.insertChunk
    exact ⟨⟨h1, h2, h3, h4, h5⟩, hserved⟩

/-- **The bins serve a small request** with the best fit of all free chunks,
unless the designated victim is to serve it or no chunk fits. -/
theorem mallocSmall_spec (h : Inv lo limit m cs) (hnb : 32 ≤ nb) (hnb16 : nb % 16 = 0)
    (hsmall : nb < 256) :
    (∃ s p m', mallocSmall m nb = .ok (some (p, m')) ∧ BestFit cs nb s p
        ∧ Served lo limit m cs nb p m')
      ∨ (mallocSmall m nb = .ok none ∧ (NoFit cs nb ∨ nb ≤ m.dvsize
        ∧ ∀ e ∈ loose cs, e.1 = nb → m.dvsize = nb)) := by
  obtain ⟨l, hloose, hb⟩ := h.binned
  obtain ⟨idx, hidx⟩ : ∃ idx, smallIndex nb = idx := ⟨_, rfl⟩
  have hsize := Holds.smallIndex_of_aligned hnb16
  rw [hidx] at hsize
  have hshape : ∀ i, smallIndex2size i = 8 * i := by
    intro i
    rw [smallIndex2size, smallbinShift, Nat.shiftLeft_eq]
    omega
  unfold mallocSmall
  rw [hidx]
  dsimp only
  by_cases hbits : m.bins.smallmap >>> idx &&& 3 ≠ 0
  · -- remainderless, so of just this size
    rw [if_pos hbits]
    obtain ⟨hlt, hne, hge, hle⟩ := hb.exactIndex_spec hbits
    obtain ⟨i, hi⟩ : ∃ i, m.bins.exactIndex idx = i := ⟨_, rfl⟩
    rw [hi] at hlt hne hge hle ⊢
    obtain ⟨p, b, hok, hmem, hserved⟩ := serveFromBin_spec h hlt hne hnb hnb16 (by omega)
      (.inr (by omega))
    obtain ⟨_, _, _, h16, _⟩ := h.arena.loose_sized hmem
    have hexact : 8 * i = nb := by
      have h16 : 8 * i % 16 = 0 := h16
      omega
    refine .inl ⟨nb, p, _, ?_, ⟨hexact ▸ hmem, Nat.le_refl _, fun e he hn => hn⟩, hserved⟩
    rw [hok, hshape, hexact, serve, Nat.sub_self, if_pos (by decide), Nat.zero_add]
    rfl
  · rw [if_neg hbits]
    have hbits : m.bins.smallmap >>> idx &&& 3 = 0 := not_not.mp hbits
    have hclear : m.bins.smallmap.getLsbD idx = false := by
      have h0 := BitMap.eq_zero_iff.mp hbits 0
      rw [BitVec.getLsbD_and, BitVec.getLsbD_ushiftRight, Nat.add_zero] at h0
      simpa using h0
    have hinexact : ∀ e ∈ l, e.1 ≠ nb := by
      intro e he hn
      have hset := hb.small_mem he (by omega)
      rw [hn, hidx, hclear] at hset
      cases hset
    by_cases hdv : nb > m.dvsize
    · rw [if_pos hdv]
      by_cases hnone : m.bins.smallmap >>> idx = 0
      · rw [if_neg (not_not.mpr hnone)]
        have hnosmall : ∀ e ∈ l, e.1 < 256 → e.1 < nb := by
          intro e he hs
          have hlt := hb.small_lt hnone he hs
          omega
        by_cases htrees : m.bins.treemap = 0
        · rw [if_neg (not_not.mpr htrees)]
          refine .inr ⟨rfl, .inl fun e he => ?_⟩
          rcases mem_cases hloose he with rfl | hin
          · exact hdv
          · exact hnosmall e hin (hb.no_large htrees hin)
        · rw [if_pos htrees]
          obtain ⟨s, p, m', hok, hmem, hle, hleast, hserved⟩ := tmallocSmall_spec h hnb hnb16 hsmall
            (by omega) htrees
          refine .inl ⟨s, p, m', by rw [hok]; rfl, ⟨hmem, hle, fun e he hn => ?_⟩, hserved⟩
          rcases mem_cases hloose he with rfl | hin
          · exact absurd hn (Nat.not_le_of_gt hdv)
          · refine hleast e he ?_
            by_contra hs
            have hlt := hnosmall e hin (by omega)
            omega
      · rw [if_pos hnone]
        obtain ⟨hlt, hne, hgt, hfirst⟩ := hb.nextIndex_spec hnone hbits
        obtain ⟨i, hi⟩ : ∃ i, m.bins.nextIndex idx = i := ⟨_, rfl⟩
        rw [hi] at hlt hne hgt hfirst ⊢
        obtain ⟨p, b, hok, hmem, hserved⟩ := serveFromBin_spec h hlt hne hnb hnb16 (by omega)
          (.inl (by omega))
        refine .inl ⟨8 * i, p, _, by rw [hok]; rfl, ⟨hmem, by omega, fun e he hn => ?_⟩, hserved⟩
        rcases mem_cases hloose he with rfl | hin
        · exact absurd hn (Nat.not_le_of_gt hdv)
        · by_contra hless
          have hmarked := hb.small_mem hin (by omega)
          have hsz := Holds.smallIndex_of_aligned (hb.sized e hin).2.1
          have hneq := hinexact e hin
          rw [hfirst _ (by omega) (by omega)] at hmarked
          cases hmarked
    · rw [if_neg hdv]
      refine .inr ⟨rfl, .inr ⟨Nat.le_of_not_lt hdv, fun e he hn => ?_⟩⟩
      rcases mem_cases hloose he with rfl | hin
      · exact hn
      · exact absurd hn (hinexact e hin)

/-! ## The whole call -/

/-- The order in which the split of the victim writes does not matter. -/
theorem split_comm {w : Words} {p rsize : Nat} (hnb : 32 ≤ nb) :
    setSizeAndPinuseOfInuseChunk (setSizeAndPinuseOfFreeChunk w (p + nb) rsize) p nb
      = setSizeAndPinuseOfFreeChunk (setSizeAndPinuseOfInuseChunk w p nb) (p + nb) rsize := by
  have hfoot : p + nb + rsize ≠ p + 8 := by omega
  have hhead : p + nb + 8 ≠ p + 8 := by omega
  unfold setSizeAndPinuseOfInuseChunk setSizeAndPinuseOfFreeChunk setFoot setHead sizeTSize
  rw [Function.update_comm hfoot, Function.update_comm hhead]

/-- The designated victim, with `dv` cleared. -/
theorem Inv.loosenDv (h : Inv lo limit m cs) (hdv : m.dvsize ≠ 0) :
    Loosened lo limit { m with dvsize := 0, dv := 0 } cs m.dvsize m.dv := by
  obtain ⟨l, hloose, hb⟩ := h.binned
  constructor
  case arena => exact h.arena
  case binned =>
    rw [dvEntries, if_neg hdv] at hloose
    exact ⟨l, hloose, hb⟩
  case dv_null => exact fun _ => rfl
  case least => exact h.least
  case lo_pos => exact h.lo_pos
  case external => exact h.external

/-- **Past the bins**: the victim if it is large enough, then the top, then
nothing, since the mspace may not grow. -/
theorem mallocDvOrTop_spec {pr : Mparams} (hv : pr.Valid) (hc : Capped pr m)
    (h : Inv lo limit m cs) (hnb : 32 ≤ nb) (hnb16 : nb % 16 = 0 ∨ nb = maxSizeT) :
    (∃ m', mallocDvOrTop pr m nb = .ok (some (chunk2mem m.dv), m') ∧ nb ≤ m.dvsize
        ∧ Served lo limit m cs nb m.dv m')
      ∨ (∃ m', mallocDvOrTop pr m nb = .ok (some (chunk2mem m.top), m') ∧ m.dvsize < nb
        ∧ nb < m.topsize ∧ Served lo limit m cs nb m.top m')
      ∨ (mallocDvOrTop pr m nb = .ok (none, m) ∧ m.dvsize < nb ∧ m.topsize ≤ nb) := by
  have hlim := h.arena.limit_lt
  have hend := h.arena.topEnd
  have hmax : maxSizeT = 2 ^ 64 - 1 := rfl
  have hmin : minChunkSize = 32 := rfl
  unfold mallocDvOrTop
  by_cases hdv : nb ≤ m.dvsize
  · left
    rw [if_pos hdv]
    have hne : m.dvsize ≠ 0 := by omega
    have hsized := h.arena.loose_sized (h.dv_mem hne)
    have hnb16 : nb % 16 = 0 := by
      rcases hnb16 with h16 | hbig
      · exact h16
      · omega
    obtain ⟨⟨h1, h2, h3, h4, h5⟩, hserved⟩ := (h.loosenDv hne).serve replaceDv hnb hnb16 hdv
      same_replaceDv fun w cs' rs r hl => hl.replaceDv (Nat.zero_lt_succ _)
    refine ⟨_, ?_, hdv, ⟨⟨h1, h2, h3, h4, h5⟩, hserved⟩⟩
    dsimp only
    rw [serve, hmin]
    by_cases hsplit : m.dvsize - nb ≥ 32
    · rw [if_pos hsplit, if_neg (Nat.not_lt_of_ge hsplit), split_comm hnb]
      rfl
    · have hwhole : m.dvsize - nb + nb = m.dvsize := by omega
      rw [if_neg hsplit, if_pos (Nat.lt_of_not_ge hsplit), hwhole]
  · rw [if_neg hdv]
    right
    by_cases htop : nb < m.topsize
    · left
      rw [if_pos htop]
      have hnb16 : nb % 16 = 0 := by
        rcases hnb16 with h16 | hbig
        · exact h16
        · omega
      obtain ⟨harena, hkept⟩ := h.arena.takeTop hnb hnb16 htop
      refine ⟨_, rfl, Nat.lt_of_not_le hdv, htop, ⟨rfl, rfl, rfl, rfl, rfl⟩, nb,
        cs ++ [⟨m.top, nb, true⟩], ?_, ?_, Nat.le_refl _, by omega, hkept⟩
      · constructor
        case arena => exact harena
        case binned =>
          obtain ⟨l, hloose, hb⟩ := h.binned
          have hsame : loose (cs ++ [⟨m.top, nb, true⟩]) = loose cs := by simp
          exact ⟨l, hsame ▸ hloose, hb⟩
        case dv_null => exact h.dv_null
        case least => exact h.least
        case lo_pos => exact h.lo_pos
        case external => exact h.external
      · rw [held_append]
        exact List.perm_append_comm
    · right
      rw [if_neg htop, sysAlloc_capped hv hc]
      exact ⟨rfl, Nat.lt_of_not_le hdv, Nat.le_of_not_lt htop⟩

/-- **`mspace_malloc`** always returns. It serves the request from a free
chunk that fits best, a small one perhaps from the designated victim
instead, and from the top only when no free chunk fits; it fails, changing
nothing, only when the top does not fit either or the request is past
`MAX_REQUEST`. -/
theorem mspaceMalloc_spec {pr : Mparams} (hv : pr.Valid) (hc : Capped pr m)
    (h : Inv lo limit m cs) (bytes : Nat) :
    (∃ p m', mspaceMalloc pr m bytes = .ok (some (chunk2mem p), m') ∧ bytes < maxRequest
        ∧ Served lo limit m cs (request2size bytes) p m'
        ∧ ((∃ s, BestFit cs (request2size bytes) s p) ∨ Victim m cs (request2size bytes) p
          ∨ (NoFit cs (request2size bytes) ∧ p = m.top ∧ request2size bytes < m.topsize)))
      ∨ (mspaceMalloc pr m bytes = .ok (none, m)
        ∧ (maxRequest ≤ bytes ∨ NoFit cs (request2size bytes)
          ∧ m.topsize ≤ request2size bytes)) := by
  have hmaxsmall : maxSmallRequest = 232 := by decide
  have hmaxreq : maxRequest = 2 ^ 64 - 128 := by decide
  have hminreq : minRequest = 23 := by decide
  obtain ⟨l, hloose, hb⟩ := h.binned
  -- past the bins, once they are known to hold nothing for the request
  have hrest : ∀ nb, 32 ≤ nb → nb % 16 = 0 → (NoFit cs nb ∨ nb ≤ m.dvsize
      ∧ ((∃ s, BestFit cs nb s m.dv) ∨ Victim m cs nb m.dv)) →
      (∃ p m', mallocDvOrTop pr m nb = .ok (some (chunk2mem p), m')
          ∧ Served lo limit m cs nb p m' ∧ ((∃ s, BestFit cs nb s p) ∨ Victim m cs nb p
            ∨ (NoFit cs nb ∧ p = m.top ∧ nb < m.topsize)))
        ∨ (mallocDvOrTop pr m nb = .ok (none, m) ∧ NoFit cs nb ∧ m.topsize ≤ nb) := by
    intro nb hnb hnb16 hfit
    have hdvfit : nb ≤ m.dvsize → (∃ s, BestFit cs nb s m.dv) ∨ Victim m cs nb m.dv := by
      intro hle
      rcases hfit with hno | ⟨_, hfit⟩
      · exact absurd (hno _ (h.dv_mem (by omega))) (Nat.not_lt_of_ge hle)
      · exact hfit
    have hnofit : m.dvsize < nb → NoFit cs nb := by
      intro hlt
      rcases hfit with hno | ⟨hle, _⟩
      · exact hno
      · exact absurd hlt (Nat.not_lt_of_ge hle)
    rcases mallocDvOrTop_spec hv hc h hnb (.inl hnb16) with ⟨m', hok, hle, hserved⟩
      | ⟨m', hok, hlt, htop, hserved⟩ | ⟨hok, hlt, htop⟩
    · exact .inl ⟨_, m', hok, hserved, (hdvfit hle).imp_right .inl⟩
    · exact .inl ⟨_, m', hok, hserved, .inr (.inr ⟨hnofit hlt, rfl, htop⟩)⟩
    · exact .inr ⟨hok, hnofit hlt, htop⟩
  unfold mspaceMalloc
  by_cases hsmall : bytes ≤ maxSmallRequest
  · have hspec := request2size_spec bytes (by omega)
    obtain ⟨nb, hnb⟩ : ∃ nb, request2size bytes = nb := ⟨_, rfl⟩
    have hnb' : (if bytes < minRequest then minChunkSize else padRequest bytes) = nb := hnb
    rw [hnb] at hspec ⊢
    rw [if_pos hsmall]
    dsimp only
    rw [hnb']
    obtain ⟨_, hlt, hge, h16⟩ := hspec
    have hnb256 : nb < 256 := by
      have hpad := padRequest_spec bytes (by omega)
      rw [← hnb, request2size]
      split
      · decide
      · omega
    rcases mallocSmall_spec h hge h16 hnb256 with ⟨s, p, m', hok, hbest, hserved⟩ | ⟨hok, hfit⟩
    · rw [hok]
      exact .inl ⟨p, m', rfl, by omega, hserved, .inl ⟨s, hbest⟩⟩
    · rw [hok]
      have hvictim := hfit.imp_right fun ⟨hle, hexact⟩ =>
        (⟨hle, .inr ⟨hnb256, hle, rfl, hexact⟩⟩ :
          nb ≤ m.dvsize ∧ ((∃ s, BestFit cs nb s m.dv) ∨ Victim m cs nb m.dv))
      rcases hrest nb hge h16 hvictim with ⟨p, m', hok, hserved, hfit⟩ | ⟨hok, hno, htop⟩
      · exact .inl ⟨p, m', hok, by omega, hserved, hfit⟩
      · exact .inr ⟨hok, .inr ⟨hno, htop⟩⟩
  · rw [if_neg hsmall]
    by_cases hbig : bytes ≥ maxRequest
    · rw [if_pos hbig]
      have hlim := h.arena.limit_lt
      have hend := h.arena.topEnd
      have hmax : maxSizeT = 2 ^ 64 - 1 := rfl
      have hdvlt := h.dv_lt
      rcases @mallocDvOrTop_spec lo limit m cs maxSizeT pr hv hc h (by decide) (.inr rfl)
        with ⟨m', _, hle, _⟩ | ⟨m', _, _, htop, _⟩ | ⟨hok, _⟩
      · have hsized := h.arena.loose_sized (h.dv_mem (by omega))
        omega
      · omega
      · exact .inr ⟨hok, .inl hbig⟩
    · rw [if_neg hbig]
      have hspec := request2size_spec bytes (by omega)
      obtain ⟨nb, hnb⟩ : ∃ nb, request2size bytes = nb := ⟨_, rfl⟩
      have hnb' : padRequest bytes = nb := by
        rw [← hnb, request2size, if_neg (by omega)]
      rw [hnb] at hspec ⊢
      dsimp only
      rw [hnb']
      obtain ⟨hroom, hlt, hge, h16⟩ := hspec
      have hlarge : (∃ s p m', (if m.bins.treemap ≠ 0 then tmallocLarge m nb else .ok none)
            = .ok (some (p, m')) ∧ BestFit cs nb s p ∧ Served lo limit m cs nb p m')
          ∨ ((if m.bins.treemap ≠ 0 then tmallocLarge m nb else .ok none) = .ok none
            ∧ (NoFit cs nb ∨ nb ≤ m.dvsize ∧ BestFit cs nb m.dvsize m.dv)) := by
        by_cases htrees : m.bins.treemap = 0
        · rw [if_neg (not_not.mpr htrees)]
          refine .inr ⟨rfl, ?_⟩
          have hbinned : ∀ e ∈ l, e.1 < nb := by
            intro e he
            have hlt := hb.no_large htrees he
            omega
          by_cases hdv : nb ≤ m.dvsize
          · refine .inr ⟨hdv, h.dv_mem (by omega), hdv, fun e he hn => ?_⟩
            rcases mem_cases hloose he with rfl | hin
            · exact Nat.le_refl _
            · exact absurd hn (Nat.not_le_of_gt (hbinned e hin))
          · refine .inl fun e he => ?_
            rcases mem_cases hloose he with rfl | hin
            · exact Nat.lt_of_not_le hdv
            · exact hbinned e hin
        · rw [if_pos htrees]
          exact tmallocLarge_spec h (by omega) h16 (by omega)
      rcases hlarge with ⟨s, p, m', hok, hbest, hserved⟩ | ⟨hok, hfit⟩
      · rw [hok]
        exact .inl ⟨p, m', rfl, by omega, hserved, .inl ⟨s, hbest⟩⟩
      · rw [hok]
        rcases hrest nb hge h16 (hfit.imp_right fun hdv => ⟨hdv.1, .inl ⟨_, hdv.2⟩⟩)
          with ⟨p, m', hok, hserved, hfit⟩ | ⟨hok, hno, htop⟩
        · exact .inl ⟨p, m', hok, by omega, hserved, hfit⟩
        · exact .inr ⟨hok, .inr ⟨hno, htop⟩⟩

/-- Neither a free chunk nor the top holds a request for `bytes` bytes. -/
def Full (m : Mstate) (cs : List Chunk) (bytes : Nat) : Prop :=
  maxRequest ≤ bytes ∨ NoFit cs (request2size bytes) ∧ m.topsize ≤ request2size bytes

/-- A request that was served had something to be served from. -/
theorem Inv.not_full (h : Inv lo limit m cs) {bytes p : Nat} (hlt : bytes < maxRequest)
    (hfit : (∃ s, BestFit cs (request2size bytes) s p) ∨ Victim m cs (request2size bytes) p
      ∨ (NoFit cs (request2size bytes) ∧ p = m.top ∧ request2size bytes < m.topsize)) :
    ¬ Full m cs bytes := by
  have hmaxreq : maxRequest = 2 ^ 64 - 128 := by decide
  rintro (hmax | ⟨hno, htop⟩)
  · omega
  rcases hfit with ⟨s, hbest⟩ | hvictim | ⟨_, _, hlt⟩
  · exact absurd hbest.fits (Nat.not_le_of_gt (hno _ hbest.mem))
  · obtain ⟨_, _, hmin, _⟩ := request2size_spec bytes (by omega)
    have hle := hvictim.fits
    exact absurd hle (Nat.not_le_of_gt (hno _ (h.dv_mem (by omega))))
  · omega

/-- **`mspace_malloc` returns null** exactly when nothing holds the request. -/
theorem mspaceMalloc_full {pr : Mparams} (hv : pr.Valid) (hc : Capped pr m)
    (h : Inv lo limit m cs) (bytes : Nat) :
    (¬ Full m cs bytes ∧ ∃ p m', mspaceMalloc pr m bytes = .ok (some (chunk2mem p), m')
        ∧ bytes < maxRequest ∧ Served lo limit m cs (request2size bytes) p m')
      ∨ (Full m cs bytes ∧ mspaceMalloc pr m bytes = .ok (none, m)) := by
  rcases mspaceMalloc_spec hv hc h bytes with ⟨p, m', hok, hlt, hserved, hfit⟩ | ⟨hok, hfull⟩
  · exact .inl ⟨h.not_full hlt hfit, p, m', hok, hlt, hserved⟩
  · exact .inr ⟨hfull, hok⟩

end SkyEngine.Mspace
