import SkyEngine.Mspace.Info
import SkyEngine.Mspace.Memalign
import SkyEngine.Lib.Blocks

/-!
# Mspace — Runs

An mspace over a region of its own, capped to that region, and its clients:
blocks are allocated and freed in any order, and the clients write where
they may, up to the last usable byte. No check on the heads, feet and
addresses of chunks ever fails, no block is ever handed out twice, and
freeing everything gives everything back.

The bins are kept beside the memory, as the sets of chunks they hold. What
dlmalloc writes for them, links between free chunks and the fields of its
state, is an event of its own: at any time, the words that are the
allocator's may hold anything else.
-/

namespace SkyEngine.Mspace

open Blocks

/-! ## The mspace and its clients -/

/-- An mspace and the blocks it has handed out, with their usable sizes. -/
structure Space where
  m : Mstate
  live : List Block := []

/-- A call, or a write. `mspace_malloc` is `mspace_memalign` with an
alignment of 16 or less. -/
inductive Event where
  | memalign (alignment bytes : Nat)
  | free (mem : Nat)
  /-- A client writes the word `v` at `a`. -/
  | write (a v : Nat)
  /-- The allocator has written its records; memory is `w` now. -/
  | allocator (w : Words)

/-- The block that was returned, if one was, is a client's. -/
def Space.grant (s : Space) : Option Nat × Mstate → Space
  | (none, m) => { s with m := m }
  | (some mem, m) => ⟨m, ⟨mem, mspaceUsableSize m mem⟩ :: s.live⟩

def Space.step (pr : Mparams) (s : Space) : Event → Except Halt Space
  | .memalign alignment bytes => do
      let r ← mspaceMemalign pr s.m alignment bytes
      .ok (s.grant r)
  | .free mem => do
      let m ← mspaceFree s.m mem
      .ok ⟨m, release s.live mem⟩
  | .write a v => .ok { s with m := { s.m with mem := Function.update s.m.mem a v } }
  | .allocator w => .ok { s with m := { s.m with mem := w } }

/-- The chunks of an mspace, as its memory has them. -/
def Mstate.Chunks (m : Mstate) (base : Nat) (cs : List Chunk) : Prop :=
  Walk m.mem m.top true true base cs

/-- The words an mspace with the chunks `cs` keeps its records in: those of
its state, of the free chunks between header and foot, and of the top. -/
def Mstate.Owns (m : Mstate) (cs : List Chunk) (x : Nat) : Prop :=
  (chunk2mem m.segBase ≤ x ∧ x + 8 ≤ chunk2mem m.segBase + mallocStateSize)
    ∨ (∃ e ∈ loose cs, e.2 + 16 ≤ x ∧ x < e.2 + e.1)
    ∨ (m.top + 16 ≤ x ∧ x < m.top + m.topsize)

/-- A word a client may write: all of it is in a block. -/
def Space.Writable (s : Space) (a : Nat) : Prop :=
  a % 8 = 0 ∧ ∃ b ∈ s.live, b.addr ≤ a ∧ a + 8 ≤ b.stop

/-- What clients may do: alignments that are not past 2^63, no block freed
twice, no write out of bounds. The allocator writes what it owns. -/
def Space.Permitted (s : Space) : Event → Prop
  | .memalign alignment _ => alignment ≤ 2 ^ 63
  | .free mem => mem = 0 ∨ ∃ b ∈ s.live, b.addr = mem
  | .write a _ => s.Writable a
  | .allocator w => ∃ cs, s.m.Chunks s.m.segBase cs ∧ ∀ x, w x ≠ s.m.mem x → s.m.Owns cs x

/-- The region an mspace is set up over: aligned, in the address space, and
not so large that the footprint limit wraps around. -/
structure Region (pr : Mparams) (base capacity : Nat) : Prop where
  params : pr.Valid
  base_aligned : base % 16 = 0
  capacity_aligned : capacity % 16 = 0
  base_pos : 0 < base
  fits : base + capacity ≤ 2 ^ 64
  limit_fits : capacity + pr.granularity < 2 ^ 64

/-- `create_mspace_with_base` and `mspace_set_footprint_limit`, over memory
that holds `w`. -/
def openSpace (pr : Mparams) (w : Words) (base capacity : Nat) : Option Space :=
  (createMspaceWithBase pr w base capacity).map fun m =>
    { m := (mspaceSetFootprintLimit pr m capacity).2 }

/-- What came of a request for `bytes` bytes: nothing, or one more block that
is as large and as aligned as asked. -/
def Answered (alignment bytes : Nat) (s s' : Space) : Prop :=
  s' = s ∨ ∃ b k, s'.live = b :: s.live ∧ bytes ≤ b.size ∧ b.size ≤ bytes + 64
    ∧ alignment ≤ 2 ^ k ∧ b.addr % 2 ^ k = 0

/-- What an event does to the live blocks. -/
def Effect (s s' : Space) : Event → Prop
  | .memalign alignment bytes => Answered alignment bytes s s'
  | .free mem => s'.live = release s.live mem
  | .write _ _ => s'.live = s.live
  | .allocator _ => s'.live = s.live

/-- The states an mspace reaches. -/
inductive SpaceRun (pr : Mparams) (base capacity : Nat) : Space → Prop
  | create {w : Words} {s : Space} : openSpace pr w base capacity = some s →
      SpaceRun pr base capacity s
  | event {s s' : Space} {e : Event} : SpaceRun pr base capacity s → s.Permitted e →
      s.step pr e = .ok s' → SpaceRun pr base capacity s'

/-! ## The invariant -/

/-- Size and address of the chunk a block is in. -/
def chunkOf (b : Block) : Nat × Nat := (b.size + 8, b.addr - 16)

/-- The chunks in use are the one the state sits in and those of the live
blocks. -/
structure Tenanted (pr : Mparams) (base capacity : Nat) (s : Space) : Prop where
  books : ∃ cs, Inv base (base + capacity - 80) s.m cs
    ∧ (held cs).Perm ((944, base) :: s.live.map chunkOf)
  headers : ∀ b ∈ s.live, 16 ≤ b.addr
  capped : Capped pr s.m
  segBase : s.m.segBase = base
  segSize : s.m.segSize = capacity
  footprint : s.m.footprint = capacity

variable {pr : Mparams} {base capacity : Nat} {s s' : Space}

theorem tenanted_openSpace (hr : Region pr base capacity) {w : Words}
    (hopen : openSpace pr w base capacity = some s) : Tenanted pr base capacity s := by
  obtain ⟨m, hm, rfl⟩ := Option.map_eq_some_iff.mp hopen
  obtain ⟨hinv, hfoot, hbase, hsize⟩ := createMspaceWithBase_inv hr.base_aligned
    hr.capacity_aligned hr.base_pos hr.fits hm
  have hcapped : Capped pr (mspaceSetFootprintLimit pr m capacity).2 := by
    rw [← hfoot]
    refine setFootprintLimit_capped hr.params ?_ ?_
    · have htop := hinv.arena.topEnd
      have hpos := hinv.arena.topPos
      have hle := hinv.arena.walk.le
      omega
    · rw [hfoot]
      exact hr.limit_fits
  constructor
  case books =>
    refine ⟨[⟨base, 944, true⟩], ?_, List.Perm.refl _⟩
    exact ⟨hinv.arena, hinv.binned, hinv.dv_null, hinv.least, hinv.lo_pos, hinv.external⟩
  case headers => exact fun b hb => absurd hb List.not_mem_nil
  case capped => exact hcapped
  case segBase => exact hbase
  case segSize => exact hsize
  case footprint => exact hfoot

namespace Tenanted

/-- A live block and its chunk. -/
theorem chunk_mem (h : Tenanted pr base capacity s) {b : Block} (hb : b ∈ s.live)
    {cs : List Chunk} (hheld : (held cs).Perm ((944, base) :: s.live.map chunkOf)) :
    chunkOf b ∈ held cs ∧ chunk2mem (b.addr - 16) = b.addr := by
  refine ⟨hheld.mem_iff.mpr (List.mem_cons_of_mem _ (List.mem_map_of_mem hb)), ?_⟩
  exact Nat.sub_add_cancel (h.headers b hb)

/-- **Where the live blocks are**: past the state, before the top, aligned,
and apart. -/
theorem placed (h : Tenanted pr base capacity s) :
    s.live.Pairwise Apart ∧ ∀ b ∈ s.live, Within (base + 960) (s.m.top + 8) b
      ∧ b.addr % 16 = 0 ∧ 24 ≤ b.size := by
  obtain ⟨cs, hinv, hheld⟩ := h.books
  have hapart : (held cs).Pairwise fun e f => e.2 + e.1 ≤ f.2 ∨ f.2 + f.1 ≤ e.2 :=
    hinv.arena.walk.held_apart.imp fun hlt => .inl hlt
  have hapart' : ((944, base) :: s.live.map chunkOf).Pairwise
      fun e f => e.2 + e.1 ≤ f.2 ∨ f.2 + f.1 ≤ e.2 :=
    (hheld.pairwise_iff fun hor => hor.symm).mp hapart
  obtain ⟨hfirst, hrest⟩ := List.pairwise_cons.mp hapart'
  have hchunk : ∀ b ∈ s.live, 16 ≤ b.addr ∧ base ≤ b.addr - 16
      ∧ b.addr - 16 + (b.size + 8) ≤ s.m.top ∧ 32 ≤ b.size + 8 ∧ (b.addr - 16) % 16 = 0 := by
    intro b hb
    obtain ⟨hmem, _⟩ := h.chunk_mem hb hheld
    obtain ⟨hlo, htop, hmin, _⟩ := hinv.arena.chunk_range (mem_held.mp hmem)
    exact ⟨h.headers b hb, hlo, htop, hmin, hinv.arena.addr_aligned (mem_held.mp hmem)⟩
  constructor
  · refine (List.pairwise_map.mp hrest).imp_of_mem fun {b c} hb hc hbc => ?_
    have hb' := hchunk b hb
    have hc' := hchunk c hc
    unfold chunkOf at hbc
    unfold Apart Block.stop
    dsimp only at hbc
    omega
  · intro b hb
    have hb' := hchunk b hb
    have hstate : base + 944 ≤ b.addr - 16 ∨ b.addr - 16 + (b.size + 8) ≤ base :=
      hfirst _ (List.mem_map_of_mem hb)
    unfold Within Block.stop
    omega

theorem size_pos (h : Tenanted pr base capacity s) : ∀ b ∈ s.live, 0 < b.size := by
  intro b hb
  have hsize := (h.placed.2 b hb).2.2
  omega

/-- What the chunks of an mspace are is what its books are kept of. -/
theorem books_of_chunks (h : Tenanted pr base capacity s) {cs : List Chunk}
    (hcs : s.m.Chunks base cs) : Inv base (base + capacity - 80) s.m cs
      ∧ (held cs).Perm ((944, base) :: s.live.map chunkOf) := by
  obtain ⟨cs', hinv, hheld⟩ := h.books
  cases hinv.arena.walk.unique hcs
  exact ⟨hinv, hheld⟩

/-! ## What is the allocator's -/

/-- The state is in the first chunk. -/
theorem state_words (h : Tenanted pr base capacity s) {x : Nat} :
    (chunk2mem s.m.segBase ≤ x ∧ x + 8 ≤ chunk2mem s.m.segBase + mallocStateSize)
      ↔ base + 16 ≤ x ∧ x ≤ base + 944 := by
  have hmem : chunk2mem s.m.segBase = base + 16 := by
    rw [h.segBase]
    rfl
  have hsize : mallocStateSize = 936 := by decide
  rw [hmem, hsize]
  omega

/-- **No word of a block is the allocator's.** -/
theorem not_owns (h : Tenanted pr base capacity s) {cs : List Chunk}
    (hcs : s.m.Chunks base cs) {b : Block} (hb : b ∈ s.live) {x : Nat} (hlo : b.addr ≤ x)
    (hhi : x + 8 ≤ b.stop) : ¬ s.m.Owns cs x := by
  obtain ⟨hinv, hheld⟩ := h.books_of_chunks hcs
  obtain ⟨⟨hstate, htop⟩, _⟩ := h.placed.2 b hb
  have hheader := h.headers b hb
  rintro (hown | ⟨⟨t, a⟩, he, hlo', hhi'⟩ | ⟨hlo', _⟩)
  · have hwords := h.state_words.mp hown
    omega
  · -- a free chunk is apart from the one the block is in
    obtain ⟨hmem, _⟩ := h.chunk_mem hb hheld
    have hfree : (⟨a, t, false⟩ : Chunk) ∈ cs := mem_loose.mp he
    have hused : (⟨b.addr - 16, b.size + 8, true⟩ : Chunk) ∈ cs := mem_held.mp hmem
    have hapart := hinv.arena.walk.disjoint hfree hused (by simp)
    unfold Block.stop at hhi
    dsimp only at hapart hlo' hhi'
    omega
  · omega

/-! ## Steps -/

/-- **A granted request** joins the live blocks. -/
theorem grant (h : Tenanted pr base capacity s) {cs : List Chunk}
    (hheld : (held cs).Perm ((944, base) :: s.live.map chunkOf)) {nb p : Nat} {m' : Mstate}
    (hserved : Served base (base + capacity - 80) s.m cs nb p m') (hnb : 32 ≤ nb) :
    ∃ k, nb ≤ k + 8 ∧ k ≤ nb + 24 ∧ s.grant (some (chunk2mem p), m') = ⟨m', ⟨p + 16, k⟩ :: s.live⟩
      ∧ Tenanted pr base capacity ⟨m', ⟨p + 16, k⟩ :: s.live⟩ := by
  obtain ⟨hsame, t, cs', hinv, hheld', hle, hspare, _⟩ := hserved
  have husable := mspaceUsableSize_spec hinv (hheld'.mem_iff.mpr List.mem_cons_self)
  have hchunk : chunkOf ⟨p + 16, t - 8⟩ = (t, p) := by
    have hsize : t - 8 + 8 = t := by omega
    rw [chunkOf, hsize, Nat.add_sub_cancel]
  refine ⟨t - 8, by omega, by omega, ?_, ?_⟩
  · rw [Space.grant, husable]
    rfl
  constructor
  case books =>
    refine ⟨cs', hinv, ?_⟩
    rw [List.map_cons, hchunk]
    exact hheld'.trans ((hheld.cons _).trans (List.Perm.swap _ _ _))
  case headers => exact List.forall_mem_cons.mpr ⟨Nat.le_add_left _ _, h.headers⟩
  case capped => exact hsame.capped h.capped
  case segBase => exact hsame.segBase.trans h.segBase
  case segSize => exact hsame.segSize.trans h.segSize
  case footprint => exact hsame.footprint.trans h.footprint

/-- **A freed block** leaves them. -/
theorem freed (h : Tenanted pr base capacity s) {cs : List Chunk}
    (hinv : Inv base (base + capacity - 80) s.m cs)
    (hheld : (held cs).Perm ((944, base) :: s.live.map chunkOf)) {b : Block} (hb : b ∈ s.live) :
    ∃ m' cs', mspaceFree s.m b.addr = .ok m' ∧ release s.live b.addr = s.live.erase b
      ∧ Inv base (base + capacity - 80) m' cs'
      ∧ (held cs').Perm ((944, base) :: (s.live.erase b).map chunkOf)
      ∧ Untouched s.m.mem m'.mem (held cs') ∧ Tenanted pr base capacity ⟨m', s.live.erase b⟩ := by
  obtain ⟨hmem, haddr⟩ := h.chunk_mem hb hheld
  obtain ⟨m', hok, hsame, cs', hinv', hheld', hkept⟩ := mspaceFree_spec hinv hmem
  rw [haddr] at hok
  have hrest : (held cs').Perm ((944, base) :: (s.live.erase b).map chunkOf) := by
    have hlive := (List.perm_cons_erase hb).map chunkOf
    have hboth := hheld'.symm.trans (hheld.trans ((hlive.cons _).trans (List.Perm.swap _ _ _)))
    exact (List.perm_cons _).mp hboth
  refine ⟨m', cs', hok, release_of_mem h.placed.1 h.size_pos hb, hinv', hrest, hkept, ?_⟩
  constructor
  case books => exact ⟨cs', hinv', hrest⟩
  case headers => exact fun c hc => h.headers c (List.mem_of_mem_erase hc)
  case capped => exact hsame.capped h.capped
  case segBase => exact hsame.segBase.trans h.segBase
  case segSize => exact hsame.segSize.trans h.segSize
  case footprint => exact hsame.footprint.trans h.footprint

/-- **A client's write** changes nothing the allocator relies on. -/
theorem write (h : Tenanted pr base capacity s) {a v : Nat} (ha : s.Writable a) :
    Tenanted pr base capacity { s with m := { s.m with mem := Function.update s.m.mem a v } } := by
  obtain ⟨cs, hinv, hheld⟩ := h.books
  obtain ⟨_, b, hb, hlo, hhi⟩ := ha
  obtain ⟨hmem, haddr⟩ := h.chunk_mem hb hheld
  have hheader := h.headers b hb
  constructor
  case books =>
    refine ⟨cs, ?_, hheld⟩
    constructor
    case arena =>
      refine hinv.arena.writeHeld hmem (x := a) ?_ ?_ fun y hy => Function.update_of_ne hy _ _
      · show b.addr - 16 + 16 ≤ a
        omega
      · show a ≤ b.addr - 16 + (b.size + 8)
        unfold Block.stop at hhi
        omega
    case binned => exact hinv.binned
    case dv_null => exact hinv.dv_null
    case least => exact hinv.least
    case lo_pos => exact hinv.lo_pos
    case external => exact hinv.external
  case headers => exact h.headers
  case capped => exact h.capped
  case segBase => exact h.segBase
  case segSize => exact h.segSize
  case footprint => exact h.footprint

/-- **The allocator's own writes** change no tag: heads and feet are no words
of its records. -/
theorem allocator (h : Tenanted pr base capacity s) {w : Words}
    (hw : s.Permitted (.allocator w)) :
    Tenanted pr base capacity { s with m := { s.m with mem := w } } := by
  obtain ⟨cs, hcs, hown⟩ := hw
  rw [h.segBase] at hcs
  obtain ⟨hinv, hheld⟩ := h.books_of_chunks hcs
  have hstate : (⟨base, 944, true⟩ : Chunk) ∈ cs :=
    mem_held.mp (hheld.mem_iff.mpr List.mem_cons_self)
  have hbefore : base + 944 ≤ s.m.top := (hinv.arena.chunk_range hstate).2.1
  constructor
  case books =>
    refine ⟨cs, ?_, hheld⟩
    constructor
    case arena =>
      refine hinv.arena.rewalk (hinv.arena.walk.retag fun x _ hhi hin => ?_) ?_
      · by_contra hne
        rcases hown x hne with hrec | ⟨⟨t, a⟩, he, hlo', hhi'⟩ | ⟨hlo', _⟩
        · have hwords := h.state_words.mp hrec
          refine hin _ hstate ⟨hwords.1, ?_⟩
          rcases Nat.lt_or_eq_of_le hwords.2 with hlt | heq
          · exact .inl hlt
          · exact .inr ⟨rfl, heq⟩
        · exact hin _ (mem_loose.mp he) ⟨hlo', .inl hhi'⟩
        · omega
      · by_contra hne
        rcases hown _ hne with hrec | ⟨⟨t, a⟩, he, _, hhi'⟩ | ⟨hlo', _⟩
        · have hwords := h.state_words.mp hrec
          omega
        · have htop : a + t ≤ s.m.top := (hinv.arena.chunk_range (mem_loose.mp he)).2.1
          have hhi' : s.m.top + 8 < a + t := hhi'
          omega
        · omega
    case binned => exact hinv.binned
    case dv_null => exact hinv.dv_null
    case least => exact hinv.least
    case lo_pos => exact hinv.lo_pos
    case external => exact hinv.external
  case headers => exact h.headers
  case capped => exact h.capped
  case segBase => exact h.segBase
  case segSize => exact h.segSize
  case footprint => exact h.footprint

/-- **A request that was served** joins the live blocks as a block that is as
large and as aligned as asked. -/
theorem answer (h : Tenanted pr base capacity s) {cs : List Chunk}
    (hheld : (held cs).Perm ((944, base) :: s.live.map chunkOf)) {alignment bytes p : Nat}
    {m' : Mstate} (hbytes : bytes < maxRequest)
    (hserved : Served base (base + capacity - 80) s.m cs (request2size bytes) p m')
    (hal : ∃ k, alignment ≤ 2 ^ k ∧ chunk2mem p % 2 ^ k = 0) :
    Tenanted pr base capacity (s.grant (some (chunk2mem p), m'))
      ∧ Answered alignment bytes s (s.grant (some (chunk2mem p), m')) := by
  have hmaxreq : maxRequest = 2 ^ 64 - 128 := by decide
  obtain ⟨hroom, hlt, hmin, _⟩ := request2size_spec bytes (by omega)
  obtain ⟨size, hle, hspare, hgrant, htenanted⟩ := h.grant hheld hserved hmin
  obtain ⟨k, hk, haligned⟩ := hal
  rw [hgrant]
  refine ⟨htenanted, .inr ⟨⟨p + 16, size⟩, k, rfl, ?_, ?_, hk, haligned⟩⟩
  · show bytes ≤ size
    omega
  · show size ≤ bytes + 64
    omega

/-- No block lies at null. -/
theorem release_null (h : Tenanted pr base capacity s) : release s.live 0 = s.live := by
  have hnone : find s.live 0 = none := by
    refine List.find?_eq_none.mpr fun b hb => ?_
    have hheader := h.headers b hb
    have hne : b.addr ≠ 0 := by omega
    simpa using hne
  rw [release, hnone]

/-- **One event** neither aborts nor hangs, does what was asked, and the books
stay right. -/
theorem step (hr : Region pr base capacity) (h : Tenanted pr base capacity s) {e : Event}
    (he : s.Permitted e) :
    ∃ s', s.step pr e = .ok s' ∧ Tenanted pr base capacity s' ∧ Effect s s' e := by
  obtain ⟨cs, hinv, hheld⟩ := h.books
  cases e with
  | memalign alignment bytes =>
      rcases mspaceMemalign_spec hr.params h.capped hinv he bytes
        with ⟨_, p, m', hok, hlt, ⟨k, _, hk, haligned⟩, hserved⟩ | ⟨_, hok⟩
      · obtain ⟨htenanted, hans⟩ := h.answer hheld hlt hserved ⟨k, hk, haligned⟩
        exact ⟨_, by rw [Space.step, hok]; rfl, htenanted, hans⟩
      · exact ⟨s, by rw [Space.step, hok]; rfl, h, .inl rfl⟩
  | free mem =>
      rcases he with rfl | ⟨b, hb, rfl⟩
      · refine ⟨s, ?_, h, h.release_null.symm⟩
        show Except.ok (⟨s.m, release s.live 0⟩ : Space) = .ok s
        rw [h.release_null]
      · obtain ⟨m', cs', hok, hrel, _, _, _, htenanted⟩ := h.freed hinv hheld hb
        refine ⟨⟨m', release s.live b.addr⟩, by rw [Space.step, hok]; rfl, ?_, rfl⟩
        rw [hrel]
        exact htenanted
  | write a v => exact ⟨_, rfl, h.write he, rfl⟩
  | allocator w => exact ⟨_, rfl, h.allocator he, rfl⟩

end Tenanted

theorem SpaceRun.tenanted (hr : Region pr base capacity) (h : SpaceRun pr base capacity s) :
    Tenanted pr base capacity s := by
  induction h with
  | create hopen => exact tenanted_openSpace hr hopen
  | event _ he hstep ih =>
      obtain ⟨s'', hok, htenanted, _⟩ := ih.step hr he
      rw [hok] at hstep
      cases hstep
      exact htenanted

/-! ## What clients rely on -/

/-- The live blocks are apart, lie between the state of the mspace and the
end of its region, and report the sizes they were handed out with. -/
structure Safe (base capacity : Nat) (s : Space) : Prop where
  apart : s.live.Pairwise Apart
  within : ∀ b ∈ s.live, Within (base + 960) (base + capacity - 72) b
  aligned : ∀ b ∈ s.live, b.addr % 16 = 0
  usable : ∀ b ∈ s.live, mspaceUsableSize s.m b.addr = b.size

theorem Tenanted.safe (h : Tenanted pr base capacity s) : Safe base capacity s := by
  obtain ⟨cs, hinv, hheld⟩ := h.books
  have hend := hinv.arena.topEnd
  have hpos := hinv.arena.topPos
  have hlim := hinv.arena.limit_lt
  obtain ⟨hapart, hplaced⟩ := h.placed
  constructor
  case apart => exact hapart
  case within =>
    intro b hb
    obtain ⟨⟨hlo, hhi⟩, _⟩ := hplaced b hb
    exact ⟨hlo, by omega⟩
  case aligned => exact fun b hb => (hplaced b hb).2.1
  case usable =>
    intro b hb
    obtain ⟨hmem, haddr⟩ := h.chunk_mem hb hheld
    have husable := mspaceUsableSize_spec hinv hmem
    rw [haddr, Nat.add_sub_cancel] at husable
    exact husable

/-- **An mspace is safe**: whatever its clients do within their rights, no
call aborts, hangs or asks the system for memory, every request is answered
with a block as large and as aligned as asked or not at all, and no two live
blocks ever share a byte. -/
theorem safe_of_run (hr : Region pr base capacity) (h : SpaceRun pr base capacity s) :
    Safe base capacity s ∧ ∀ e, s.Permitted e →
      ∃ s', s.step pr e = .ok s' ∧ Effect s s' e ∧ Safe base capacity s' := by
  have ht := h.tenanted hr
  refine ⟨ht.safe, fun e he => ?_⟩
  obtain ⟨s', hok, ht', heffect⟩ := ht.step hr he
  exact ⟨s', hok, heffect, ht'.safe⟩

/-- Calls that clients may make, as can be read off the live blocks. -/
def Space.allows (s : Space) : Event → Bool
  | .memalign alignment _ => alignment ≤ 2 ^ 63
  | .free mem => s.live.any (·.addr == mem)
  | _ => false

/-- These calls one after another, where each is allowed and returns. -/
def Space.replay (pr : Mparams) (s : Space) (es : List Event) : Option Space :=
  es.foldlM (fun s e => if s.allows e then (s.step pr e).toOption else none) s

theorem Space.permitted_of_allows {e : Event} (h : s.allows e = true) : s.Permitted e := by
  cases e with
  | memalign alignment bytes =>
      have hal : alignment ≤ 2 ^ 63 := of_decide_eq_true h
      exact hal
  | free mem =>
      obtain ⟨b, hb, haddr⟩ := List.any_eq_true.mp h
      exact .inr ⟨b, hb, eq_of_beq haddr⟩
  | write _ _ | allocator _ => cases h

theorem SpaceRun.replay (h : SpaceRun pr base capacity s) {es : List Event}
    (hes : s.replay pr es = some s') : SpaceRun pr base capacity s' := by
  induction es generalizing s with
  | nil =>
      cases hes
      exact h
  | cons e es ih =>
      rw [Space.replay, List.foldlM_cons] at hes
      obtain ⟨s₁, hcall, hrest⟩ := Option.bind_eq_some_iff.mp hes
      obtain ⟨hallows, hcall⟩ := Option.ite_none_right_eq_some.mp hcall
      refine ih (.event h (Space.permitted_of_allows hallows) ?_) hrest
      cases hstep : s.step pr e with
      | error _ =>
          rw [hstep] at hcall
          cases hcall
      | ok s₂ =>
          rw [hstep] at hcall
          cases hcall
          rfl

/-- The mspace over 60 kB from address 4096, as it is opened. -/
def sampleSpace : Option Space := openSpace {} (fun _ => 0) 4096 61440

theorem sampleRegion : Region {} 4096 61440 where
  params := ⟨16, by decide, rfl⟩
  base_aligned := rfl
  capacity_aligned := rfl
  base_pos := by decide
  fits := by decide
  limit_fits := by decide

theorem sampleSpace_replay {es : List Event} {p : Space → Bool}
    (h : (sampleSpace.bind (·.replay {} es)).any p = true) :
    ∃ s, SpaceRun {} 4096 61440 s ∧ p s = true := by
  obtain ⟨s, hs, hp⟩ := (Option.any_eq_true _ _).mp h
  obtain ⟨s₀, hopen, hreplay⟩ := Option.bind_eq_some_iff.mp hs
  exact ⟨s, (SpaceRun.create hopen).replay hreplay, hp⟩

/-- A request for 100 bytes at a multiple of 64 is answered. -/
theorem sampleSpace_run : ∃ s, SpaceRun {} 4096 61440 s ∧ s.live = [⟨5056, 104⟩] := by
  have hreplay : (sampleSpace.bind (·.replay {} [.memalign 64 100])).any
      (fun s => s.live = [⟨5056, 104⟩]) = true := by decide
  obtain ⟨s, hrun, hlive⟩ := sampleSpace_replay hreplay
  exact ⟨s, hrun, of_decide_eq_true hlive⟩

theorem safe_of_run_sample :
    ∃ s, s.live = [⟨5056, 104⟩] ∧ Safe 4096 61440 s
      ∧ ∀ e, s.Permitted e → ∃ s', s.step {} e = .ok s' ∧ Effect s s' e ∧ Safe 4096 61440 s' := by
  obtain ⟨s, hrun, hlive⟩ := sampleSpace_run
  exact ⟨s, hlive, safe_of_run sampleRegion hrun⟩

/-- **Exactly the alignments up to 2^63 return**, in every state and for every
size. A larger one is no power of two, and the loop that looks for one
doubles on without end. -/
theorem memalign_returns_iff (hr : Region pr base capacity) (h : SpaceRun pr base capacity s)
    {alignment : Nat} (hlt : alignment < 2 ^ 64) (bytes : Nat) :
    ((∃ r, mspaceMemalign pr s.m alignment bytes = .ok r) ↔ alignment ≤ 2 ^ 63)
      ∧ (2 ^ 63 < alignment → ∀ rounds,
        doubleUntil rounds (Word64.shl mallocAlignment 1) alignment = .error .hang) := by
  have hstart : Word64.shl mallocAlignment 1 = 2 ^ 5 := by decide
  refine ⟨⟨?_, ?_⟩, fun hlarge rounds => ?_⟩
  · rintro ⟨r, hok⟩
    by_contra hlarge
    rw [mspaceMemalign_hang (by omega) hlt] at hok
    cases hok
  · intro hal
    have ht := h.tenanted hr
    obtain ⟨cs, hinv, _⟩ := ht.books
    rcases mspaceMemalign_spec hr.params ht.capped hinv hal bytes
      with ⟨_, p, m', hok, _⟩ | ⟨_, hok⟩
    · exact ⟨_, hok⟩
    · exact ⟨_, hok⟩
  · rw [hstart]
    exact doubleUntil_hang hlarge rounds (.inr ⟨5, by decide, rfl⟩)

theorem memalign_returns_iff_sample : ∃ s : Space, s.live = [⟨5056, 104⟩]
    ∧ ¬ (∃ r, mspaceMemalign {} s.m (2 ^ 63 + 1) 8 = .ok r)
    ∧ ∀ rounds, doubleUntil rounds (Word64.shl mallocAlignment 1) (2 ^ 63 + 1) = .error .hang := by
  obtain ⟨s, hrun, hlive⟩ := sampleSpace_run
  have hlt : 2 ^ 63 + 1 < 2 ^ 64 := by decide
  obtain ⟨hiff, hhang⟩ := memalign_returns_iff sampleRegion hrun hlt 8
  exact ⟨s, hlive, fun hret => absurd (hiff.mp hret) (by decide), hhang (by decide)⟩

/-! ## What a block holds -/

/-- A run of events, from one state to another. -/
inductive Steps (pr : Mparams) : Space → List Event → Space → Prop
  | nil (s : Space) : Steps pr s [] s
  | cons {s s' s'' : Space} {e : Event} {es : List Event} : s.Permitted e →
      s.step pr e = .ok s' → Steps pr s' es s'' → Steps pr s (e :: es) s''

/-- **One event** keeps a live block, and a word of it, unless it is the one
that frees the block or writes the word. -/
theorem Tenanted.keeps (hr : Region pr base capacity) (h : Tenanted pr base capacity s) {e : Event}
    (he : s.Permitted e) (hstep : s.step pr e = .ok s') {b : Block} (hb : b ∈ s.live)
    (hfree : e ≠ .free b.addr) {a : Nat} (hlo : b.addr ≤ a) (hhi : a + 8 ≤ b.stop)
    (hwrite : ∀ v, e ≠ .write a v) : b ∈ s'.live ∧ s'.m.mem a = s.m.mem a := by
  obtain ⟨cs, hinv, hheld⟩ := h.books
  obtain ⟨hmem, _⟩ := h.chunk_mem hb hheld
  have hheader := h.headers b hb
  have hword : ∀ {w' : Words} {l : List (Nat × Nat)}, Untouched s.m.mem w' l → chunkOf b ∈ l →
      w' a = s.m.mem a := by
    intro w' l hkept hin
    refine hkept _ hin a ?_ ?_
    · show b.addr - 16 + 16 ≤ a
      omega
    · show a ≤ b.addr - 16 + (b.size + 8)
      unfold Block.stop at hhi
      omega
  cases e with
  | memalign alignment bytes =>
      rcases mspaceMemalign_spec hr.params h.capped hinv he bytes
        with ⟨_, p, m', hok, _, _, hserved⟩ | ⟨_, hok⟩
      · rw [Space.step, hok] at hstep
        cases hstep
        obtain ⟨_, _, _, _, _, _, _, hkept⟩ := hserved
        exact ⟨List.mem_cons_of_mem _ hb, hword hkept hmem⟩
      · rw [Space.step, hok] at hstep
        cases hstep
        exact ⟨hb, rfl⟩
  | free mem =>
      have hne : b.addr ≠ mem := fun heq => hfree (by rw [heq])
      rcases he with rfl | ⟨c, hc, rfl⟩
      · cases hstep
        exact ⟨mem_release_of_ne hb hne, rfl⟩
      · obtain ⟨m', cs', hok, hrel, _, hheld', hkept, _⟩ := h.freed hinv hheld hc
        rw [Space.step, hok] at hstep
        cases hstep
        have hlive := mem_release_of_ne hb hne
        have hin : b ∈ s.live.erase c := hrel ▸ hlive
        refine ⟨hlive, hword hkept (hheld'.mem_iff.mpr ?_)⟩
        exact List.mem_cons_of_mem _ (List.mem_map_of_mem hin)
  | write x v =>
      cases hstep
      have hne : a ≠ x := fun heq => hwrite v (by rw [heq])
      exact ⟨hb, Function.update_of_ne hne _ _⟩
  | allocator w =>
      cases hstep
      obtain ⟨cs', hcs, hown⟩ := he
      rw [h.segBase] at hcs
      refine ⟨hb, ?_⟩
      by_contra hne
      exact h.not_owns hcs hb hlo hhi (hown a hne)

/-- **A block holds what it held**: through any run of calls and writes, up
to the event that frees the block or writes the word itself. -/
theorem contents_of_steps (hr : Region pr base capacity) (h : SpaceRun pr base capacity s)
    {es : List Event} (hsteps : Steps pr s es s') {b : Block} (hb : b ∈ s.live)
    (hfree : .free b.addr ∉ es) {a : Nat} (hlo : b.addr ≤ a) (hhi : a + 8 ≤ b.stop)
    (hwrite : ∀ v, .write a v ∉ es) :
    b ∈ s'.live ∧ s'.m.mem a = s.m.mem a ∧ mspaceUsableSize s'.m b.addr = b.size := by
  induction hsteps with
  | nil s => exact ⟨hb, rfl, (h.tenanted hr).safe.usable b hb⟩
  | cons he hstep _ ih =>
      obtain ⟨hlive, hword⟩ := (h.tenanted hr).keeps hr he hstep hb
        (fun heq => hfree (heq ▸ List.mem_cons_self)) hlo hhi
        fun v heq => hwrite v (heq ▸ List.mem_cons_self)
      obtain ⟨hlive', hword', husable⟩ := ih (.event h he hstep) hlive
        (fun hin => hfree (List.mem_cons_of_mem _ hin))
        fun v hin => hwrite v (List.mem_cons_of_mem _ hin)
      exact ⟨hlive', hword'.trans hword, husable⟩

/-- Its first word survives a write to the second and another request. -/
theorem contents_of_steps_sample :
    ∃ s s', Steps {} s [.write 5064 7, .memalign 16 40] s' ∧ s.live = [⟨5056, 104⟩]
      ∧ ⟨5056, 104⟩ ∈ s'.live ∧ s'.m.mem 5056 = s.m.mem 5056
      ∧ mspaceUsableSize s'.m 5056 = 104 := by
  obtain ⟨s, hrun, hlive⟩ := sampleSpace_run
  have hin : (⟨5056, 104⟩ : Block) ∈ s.live := by
    rw [hlive]
    exact List.mem_cons_self
  have hwrite : s.Permitted (.write 5064 7) := ⟨by decide, _, hin, by decide, by decide⟩
  obtain ⟨s₁, hok, ht, _⟩ := (hrun.tenanted sampleRegion).step sampleRegion hwrite
  have hal : s₁.Permitted (.memalign 16 40) := (by decide : 16 ≤ 2 ^ 63)
  obtain ⟨s₂, hok', _⟩ := ht.step sampleRegion hal
  have hsteps : Steps {} s [.write 5064 7, .memalign 16 40] s₂ :=
    .cons hwrite hok (.cons hal hok' (.nil _))
  refine ⟨s, s₂, hsteps, hlive, ?_⟩
  refine contents_of_steps sampleRegion hrun hsteps hin ?_ (by decide) (by decide) ?_
  · simp
  · simp

end SkyEngine.Mspace
