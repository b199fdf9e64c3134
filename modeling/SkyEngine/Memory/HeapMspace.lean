import SkyEngine.Memory.UsedBytes
import SkyEngine.Mspace.Reuse

/-!
# Memory — HeapMspace

The heap on top of the mspace it really uses. What the heap was assumed to
be answered by dlmalloc is now computed by it; only the C runtime is still
taken at its word. What backs the counters is an invariant: the mspace has
handed out exactly the heap's blocks, and each ends in its tag.
-/

namespace SkyEngine.Memory

open Blocks

/-! ## The heap and its mspace -/

/-- A heap with its blocks, the mspace behind `m_mem`, and the tags its
blocks were allocated with, newest first. -/
structure Hosted where
  sys : System := {}
  m : Option Mspace.Mstate := none
  tags : List (Block × Nat) := []

/-- What ends a call: the heap's own checks, or dlmalloc's. -/
inductive Stop where
  | fault (f : Fault)
  | mspace (h : Mspace.Halt)

namespace Hosted

/-- What the mspace answers to `mspace_memalign`, with the usable size. It
only says something where it returns, so not past an alignment of 2^63. -/
def memalign (pr : Mspace.Mparams) (s : Hosted) (align bytes : Nat) : Option Block :=
  match s.m with
  | none => none
  | some m =>
      if align < 2 ^ 64 then
        match Mspace.mspaceMemalign pr m align bytes with
        | .ok (some mem, m) => some ⟨mem, Mspace.mspaceUsableSize m mem⟩
        | _ => none
      else none

/-- The allocators of the heap: dlmalloc, over memory that holds `w` where a
new mspace is set up, and the C runtime. The handle of an mspace is the
address of its state. -/
def allocators (pr : Mspace.Mparams) (w : Mspace.Words) (runtime : Nat → Nat → Option Block)
    (s : Hosted) : Allocators where
  createMspaceWithBase base capacity :=
    (Mspace.createMspaceWithBase pr w base capacity).map fun _ =>
      Mspace.chunk2mem (Mspace.alignAsChunk base)
  mspaceMemalign _ align bytes := s.memalign pr align bytes
  alignedMalloc := runtime

/-- The tag goes into the last word of the block, if there is one. -/
def writeTag (tag : Nat) : Option Nat × Mspace.Mstate → Mspace.Mstate
  | (none, m) => m
  | (some mem, m) =>
      { m with mem := Function.update m.mem (mem + Mspace.mspaceUsableSize m mem - 8) tag }

/-- The mspace after a call on the heap. -/
def effect (pr : Mspace.Mparams) (w : Mspace.Words) (s : Hosted) :
    HeapCall → Except Mspace.Halt (Option Mspace.Mstate)
  | .initializeHeap memory maxSize _ _ _ =>
      .ok ((Mspace.openSpace pr w memory maxSize).map (·.m))
  | .terminate => .ok none
  | .clear => .ok ((Mspace.openSpace pr w s.sys.heap.base s.sys.heap.maxSize).map (·.m))
  | .allocate size tag align =>
      match s.m with
      | none => .ok none
      | some m =>
          if size = 0 ∨ s.sys.heap.maxSize ≤ size then .ok (some m)
          else do
            let r ← Mspace.mspaceMemalign pr m align (addSize size 8)
            .ok (some (writeTag tag r))
  | .free block =>
      match s.m with
      | none => .ok none
      | some m =>
          if block = 0 ∨ block < s.sys.heap.base
              ∨ addSize s.sys.heap.base s.sys.heap.maxSize ≤ block then .ok (some m)
          else do
            let m ← Mspace.mspaceFree m block
            .ok (some m)

/-- The tags after a call. -/
def tagged (env : Allocators) (s : Hosted) : HeapCall → List (Block × Nat)
  | .allocate size tag align =>
      match s.sys.heap.allocate env size tag align with
      | .ok a => (a.mspaceBlock.map (·, tag)).toList ++ s.tags
      | .error _ => s.tags
  | _ => s.tags

def call (pr : Mspace.Mparams) (w : Mspace.Words) (runtime : Nat → Nat → Option Block)
    (s : Hosted) (c : HeapCall) : Except Stop Hosted :=
  match s.effect pr w c with
  | .error h => .error (.mspace h)
  | .ok m =>
      match s.sys.call (s.allocators pr w runtime) c with
      | .error f => .error (.fault f)
      | .ok sys => .ok ⟨sys, m, s.tagged (s.allocators pr w runtime) c⟩

/-- A word of a block that is not its last. -/
def Writable (s : Hosted) (a : Nat) : Prop :=
  a % 8 = 0 ∧ ∃ b ∈ s.sys.mspace, b.addr ≤ a ∧ a + 16 ≤ b.stop

/-- Sizes and alignments that do not run past the end of a word. -/
def InRange (pr : Mspace.Mparams) : HeapCall → Prop
  | .initializeHeap _ maxSize _ _ _ => maxSize + pr.granularity < 2 ^ 64
  | .allocate _ _ align => align ≤ 2 ^ 63
  | _ => True

end Hosted

/-- The C runtime keeps its word: what it hands out is fresh and not in the
region. -/
def RuntimeSound (runtime : Nat → Nat → Option Block) (s : System) : Prop :=
  ∀ size align b, s.heap.mem ≠ none → runtime size align = some b → s.Fresh b ∧ s.OffRegion b

/-- The states the heap reaches from its construction by calls that satisfy
`ok`, by its clients' writes, and by those dlmalloc makes in the words it
owns. -/
inductive HostedRun (pr : Mspace.Mparams) (ok : HeapCall → Prop) : Hosted → Prop
  | start : HostedRun pr ok {}
  | call {s s' : Hosted} {c : HeapCall} (w : Mspace.Words)
      (runtime : Nat → Nat → Option Block) : HostedRun pr ok s → ok c → s.sys.Allowed c →
      s.sys.Vacant c → Hosted.InRange pr c → RuntimeSound runtime s.sys →
      s.call pr w runtime c = .ok s' → HostedRun pr ok s'
  | write {s : Hosted} {m : Mspace.Mstate} {a : Nat} (v : Nat) : HostedRun pr ok s →
      s.m = some m → s.Writable a →
      HostedRun pr ok { s with m := some { m with mem := Function.update m.mem a v } }
  | allocator {s : Hosted} {m : Mspace.Mstate} {w : Mspace.Words} : HostedRun pr ok s →
      s.m = some m → Mspace.Space.Permitted ⟨m, s.sys.mspace⟩ (.allocator w) →
      HostedRun pr ok { s with m := some { m with mem := w } }

/-! ## The invariant -/

/-- The last word of every block of the mspace is the tag it was allocated
with. -/
def Stamped (tags : List (Block × Nat)) (sp : Mspace.Space) : Prop :=
  ∀ b ∈ sp.live, tags.lookup b = some (sp.m.mem (b.stop - 8))

/-- The mspace lies where the heap says, its blocks are those the heap
counts, and the tags are in place. -/
structure Hosted.Kept (pr : Mspace.Mparams) (s : Hosted) (m : Mspace.Mstate) : Prop where
  region : Mspace.Region pr s.sys.heap.base s.sys.heap.maxSize
  tenanted : Mspace.Tenanted pr s.sys.heap.base s.sys.heap.maxSize ⟨m, s.sys.mspace⟩
  stamped : Stamped s.tags ⟨m, s.sys.mspace⟩

/-- There is an mspace exactly while the heap has a handle of one. -/
structure Hosted.Backed (pr : Mspace.Mparams) (s : Hosted) : Prop where
  closed : s.sys.heap.mem = none → s.m = none
  opened : s.sys.heap.mem ≠ none → ∃ m, s.m = some m ∧ s.Kept pr m

/-- What holds of the mspace there is. -/
theorem Hosted.Backed.kept {pr : Mspace.Mparams} {s : Hosted} (hb : s.Backed pr)
    {m : Mspace.Mstate} (hm : s.m = some m) : s.sys.heap.mem ≠ none ∧ s.Kept pr m := by
  have hinit : s.sys.heap.mem ≠ none := fun hnone => by simp [hb.closed hnone] at hm
  obtain ⟨m', hm', hk⟩ := hb.opened hinit
  cases hm'.symm.trans hm
  exact ⟨hinit, hk⟩

section Steps

variable {pr : Mspace.Mparams} {base capacity : Nat} {sp sp' : Mspace.Space}
  {tags : List (Block × Nat)}

/-- The last word of a block of the mspace is in it, and in no other. -/
theorem lastWord (h : Mspace.Tenanted pr base capacity sp) {b : Block} (hb : b ∈ sp.live) :
    sp.Writable (b.stop - 8) ∧ b.addr ≤ b.stop - 8 ∧ b.stop - 8 + 8 ≤ b.stop
      ∧ ∀ c ∈ sp.live, c ≠ b → ∀ a, c.addr ≤ a → a + 8 ≤ c.stop → a ≠ b.stop - 8 := by
  obtain ⟨hapart, hplaced⟩ := h.placed
  obtain ⟨_, haligned, hsize⟩ := hplaced b hb
  obtain ⟨cs, hinv, hheld⟩ := h.books
  have hmem := Mspace.mem_held.mp (h.chunk_mem hb hheld).1
  have hchunk : (b.size + 8) % 16 = 0 := (hinv.arena.chunk_range hmem).2.2.2
  have hlo : b.addr ≤ b.stop - 8 := by
    unfold Block.stop
    omega
  have hhi : b.stop - 8 + 8 ≤ b.stop := by
    unfold Block.stop
    omega
  refine ⟨⟨?_, b, hb, hlo, hhi⟩, hlo, hhi, fun c hc hne a hlo hhi => ?_⟩
  · unfold Block.stop
    omega
  · have hcb := hapart.forall hc hb hne
    unfold Apart Block.stop at hcb
    unfold Block.stop at hhi ⊢
    omega

/-- **An event of the mspace** that frees no block of the new state and
writes no last word leaves the tags in place. -/
theorem Stamped.event (hr : Mspace.Region pr base capacity)
    (h : Mspace.Tenanted pr base capacity sp) (hs : Stamped tags sp) {e : Mspace.Event}
    (he : sp.Permitted e) (hstep : sp.step pr e = .ok sp') {b : Block} (hb : b ∈ sp.live)
    (hfree : e ≠ .free b.addr) (hwrite : ∀ v, e ≠ .write (b.stop - 8) v) :
    tags.lookup b = some (sp'.m.mem (b.stop - 8)) := by
  obtain ⟨_, hlo, hhi, _⟩ := lastWord h hb
  obtain ⟨_, hword⟩ := h.keeps hr he hstep hb hfree hlo hhi hwrite
  rw [hword]
  exact hs b hb

theorem Stamped.memalign (hr : Mspace.Region pr base capacity)
    (h : Mspace.Tenanted pr base capacity sp) (hs : Stamped tags sp) {align bytes : Nat}
    (hal : align ≤ 2 ^ 63) (hok : sp.step pr (.memalign align bytes) = .ok sp') {b : Block}
    (hb : b ∈ sp.live) : tags.lookup b = some (sp'.m.mem (b.stop - 8)) := by
  have he : sp.Permitted (.memalign align bytes) := hal
  exact hs.event hr h he hok hb Mspace.Event.noConfusion fun v => Mspace.Event.noConfusion

/-- What `mspace_memalign` answers is an event of the mspace. -/
theorem memalign_event (hr : Mspace.Region pr base capacity)
    (h : Mspace.Tenanted pr base capacity sp) {align : Nat} (hal : align ≤ 2 ^ 63)
    (bytes : Nat) : ∃ r, Mspace.mspaceMemalign pr sp.m align bytes = .ok r
      ∧ sp.step pr (.memalign align bytes) = .ok (sp.grant r)
      ∧ Mspace.Tenanted pr base capacity (sp.grant r) := by
  obtain ⟨s', hok, ht, _⟩ := h.step hr (e := .memalign align bytes) hal
  obtain ⟨r, hr', hgrant⟩ := bind_ok hok
  cases hgrant
  exact ⟨r, hr', hok, ht⟩

/-- A freed block is none of those that stay. -/
theorem addr_ne_of_mem_erase (h : Mspace.Tenanted pr base capacity sp) {b c : Block}
    (hb : b ∈ sp.live) (hc : c ∈ sp.live.erase b) : c.addr ≠ b.addr := by
  obtain ⟨hapart, hplaced⟩ := h.placed
  have hcons := (List.perm_cons_erase hb).pairwise_iff (R := Apart) fun hor => hor.symm
  have hbc := (List.pairwise_cons.mp (hcons.mp hapart)).1 c hc
  have hb' := (hplaced b hb).2.2
  have hc' := (hplaced c (List.mem_of_mem_erase hc)).2.2
  unfold Apart Block.stop at hbc
  omega

/-- The tag of a block that has just been handed out. -/
theorem Stamped.grant (hr : Mspace.Region pr base capacity)
    (h : Mspace.Tenanted pr base capacity sp) (hs : Stamped tags sp) {align bytes mem : Nat}
    {m' : Mspace.Mstate} (hal : align ≤ 2 ^ 63)
    (hok : sp.step pr (.memalign align bytes) = .ok (sp.grant (some mem, m')))
    (ht : Mspace.Tenanted pr base capacity (sp.grant (some mem, m'))) (tag : Nat) {b : Block}
    (hb : b = ⟨mem, Mspace.mspaceUsableSize m' mem⟩) :
    Mspace.Tenanted pr base capacity ⟨Hosted.writeTag tag (some mem, m'), b :: sp.live⟩
      ∧ Stamped ((b, tag) :: tags) ⟨Hosted.writeTag tag (some mem, m'), b :: sp.live⟩ := by
  obtain ⟨last, hlast⟩ : ∃ last, last = mem + Mspace.mspaceUsableSize m' mem - 8 := ⟨_, rfl⟩
  have hstop : b.stop - 8 = last := by rw [hb, hlast, Block.stop]
  have hwrite : Hosted.writeTag tag (some mem, m')
      = { m' with mem := Function.update m'.mem last tag } := by rw [Hosted.writeTag, hlast]
  rw [hwrite]
  have hgrant : sp.grant (some mem, m') = ⟨m', b :: sp.live⟩ := by rw [hb]; rfl
  rw [hgrant] at ht hok
  obtain ⟨hwritable, hlo, hhi, hother⟩ := lastWord ht List.mem_cons_self
  rw [hstop] at hwritable hother
  refine ⟨ht.write hwritable, fun c hc => ?_⟩
  rcases List.mem_cons.mp hc with rfl | hold
  · rw [List.lookup_cons_self, hstop]
    show some tag = some (Function.update m'.mem last tag last)
    rw [Function.update_self]
  · obtain ⟨hapart, _⟩ := List.pairwise_cons.mp ht.placed.1
    obtain ⟨_, hclo, hchi, _⟩ := lastWord h hold
    have hpos := ht.size_pos b List.mem_cons_self
    have hcb : c ≠ b := by
      rintro rfl
      have hself := hapart c hold
      unfold Apart Block.stop at hself
      omega
    have hne := hother c hc hcb _ hclo hchi
    have hkept := hs.memalign hr h hal hok hold
    rw [List.lookup_cons, beq_false_of_ne hcb]
    show tags.lookup c = some (Function.update m'.mem last tag (c.stop - 8))
    rw [Function.update_of_ne hne]
    exact hkept

end Steps

/-! ## Calls -/

section Calls

variable {pr : Mspace.Mparams} {w : Mspace.Words} {runtime : Nat → Nat → Option Block}
  {s s' : Hosted} {m : Mspace.Mstate}

/-- What a heap whose mspace is `m` gets from it. -/
theorem Hosted.memalign_ok (hm : s.m = some m) {align bytes mem : Nat} {m' : Mspace.Mstate}
    (hok : Mspace.mspaceMemalign pr m align bytes = .ok (some mem, m')) (hal : align ≤ 2 ^ 63) :
    s.memalign pr align bytes = some ⟨mem, Mspace.mspaceUsableSize m' mem⟩ := by
  have hlt : align < 2 ^ 64 := by omega
  simp only [memalign, hm, if_pos hlt, hok]

theorem Hosted.memalign_none (hm : s.m = some m) {align bytes : Nat} {m' : Mspace.Mstate}
    (hok : Mspace.mspaceMemalign pr m align bytes = .ok (none, m')) :
    s.memalign pr align bytes = none := by
  simp only [memalign, hm, hok]
  split
  · rfl
  · rfl

/-- **The mspace keeps its word**: what it hands out is fresh, and in the
region. -/
theorem Hosted.Kept.memalign (hk : s.Kept pr m) (hh : Housed s.sys)
    (hinit : s.sys.heap.mem ≠ none) (hm : s.m = some m) {align bytes : Nat} {b : Block}
    (hb : s.memalign pr align bytes = some b) :
    s.sys.Fresh b ∧ Within s.sys.heap.base (s.sys.heap.base + s.sys.heap.maxSize) b := by
  have hal : align ≤ 2 ^ 63 := by
    by_contra hlarge
    rw [Hosted.memalign, hm] at hb
    dsimp only at hb
    split at hb
    · rename_i hlt
      rw [Mspace.mspaceMemalign_hang (by omega) hlt m bytes] at hb
      cases hb
    · cases hb
  obtain ⟨r, hr, _, ht⟩ := memalign_event hk.region hk.tenanted hal bytes
  obtain ⟨answer, m'⟩ := r
  cases answer with
  | none => exact absurd ((Hosted.memalign_none hm hr).symm.trans hb) (by simp)
  | some mem =>
      cases (Hosted.memalign_ok hm hr hal).symm.trans hb
      obtain ⟨hapart, _⟩ := List.pairwise_cons.mp ht.placed.1
      obtain ⟨hlo, hhi⟩ := ht.safe.within _ List.mem_cons_self
      have hbase := hk.region.base_pos
      have hpos := ht.size_pos _ List.mem_cons_self
      have hregion := hh.region hinit
      refine ⟨⟨hpos, ⟨by omega, by omega⟩, fun c hc => ?_⟩, by omega, by omega⟩
      rcases List.mem_append.mp hc with hc | hc
      · exact hapart c hc
      · have hoff := hh.off_region hinit c hc
        unfold System.OffRegion at hoff
        unfold Apart
        omega

/-- A heap on its mspace has allocators that keep their word. -/
theorem Hosted.Backed.sound (hb : s.Backed pr) (hh : Housed s.sys)
    (hruntime : RuntimeSound runtime s.sys) : (s.allocators pr w runtime).Sound s.sys where
  mspaceMemalign _ align bytes b hmem hans := by
    have hinit : s.sys.heap.mem ≠ none := by simp [hmem]
    obtain ⟨m, hm, hk⟩ := hb.opened hinit
    exact hk.memalign hh hinit hm hans
  alignedMalloc := hruntime

theorem Hosted.call_ok {c : HeapCall} (h : s.call pr w runtime c = .ok s') :
    ∃ m, s.effect pr w c = .ok m
      ∧ s.sys.call (s.allocators pr w runtime) c = .ok s'.sys
      ∧ s' = ⟨s'.sys, m, s.tagged (s.allocators pr w runtime) c⟩ := by
  unfold Hosted.call at h
  split at h
  · cases h
  · rename_i m heffect
    split at h
    · cases h
    · rename_i sys hsys
      cases h
      exact ⟨m, heffect, hsys, rfl⟩

/-- `Initialize` has been given a region an mspace fits in. -/
theorem Heap.initializeHeap_opens {env : Allocators} {h h' : Heap} {memory maxSize : Nat}
    {name : String} {isClearMemory isClearAllowed : Bool}
    (hok : h.initializeHeap env memory maxSize name isClearMemory isClearAllowed = .ok h') :
    memory % 16 = 0 ∧ 0 < memory ∧ ∃ m, env.createMspaceWithBase memory maxSize = some m := by
  unfold Heap.initializeHeap at hok
  split at hok
  · cases hok
  · split at hok
    · cases hok
    · rename_i haligned
      split at hok
      · cases hok
      · split at hok
        · cases hok
        · rename_i hnull
          split at hok
          · cases hok
          · rename_i m hm
            exact ⟨by omega, by omega, m, hm⟩

theorem Heap.clear_opens {env : Allocators} {h h' : Heap} (hok : h.clear env = .ok h') :
    h.base ≠ 0 ∧ ∃ m, env.createMspaceWithBase h.base h.maxSize = some m := by
  unfold Heap.clear at hok
  split at hok
  · cases hok
  · split at hok
    · cases hok
    · rename_i hnull
      split at hok
      · cases hok
      · rename_i m hm
        exact ⟨hnull, m, hm⟩

/-- **A new mspace** has no blocks. -/
theorem Hosted.backed_open {sys : System} {base capacity : Nat} {tags : List (Block × Nat)}
    (hr : Mspace.Region pr base capacity)
    (hopen : ∃ m, (s.allocators pr w runtime).createMspaceWithBase base capacity = some m)
    (hbase : sys.heap.base = base) (hmax : sys.heap.maxSize = capacity)
    (hlive : sys.mspace = []) (hmem : sys.heap.mem ≠ none) :
    Backed pr ⟨sys, (Mspace.openSpace pr w base capacity).map (·.m), tags⟩ := by
  obtain ⟨_, hopen⟩ := hopen
  obtain ⟨m, hm, _⟩ := Option.map_eq_some_iff.mp hopen
  have hsp : Mspace.openSpace pr w base capacity
      = some ⟨(Mspace.mspaceSetFootprintLimit pr m capacity).2, []⟩ := by
    rw [Mspace.openSpace, hm]
    rfl
  refine ⟨fun hnone => absurd hnone hmem, fun _ => ⟨_, by rw [hsp]; rfl, ?_⟩⟩
  constructor
  case region =>
    rw [hbase, hmax]
    exact hr
  case tenanted =>
    rw [hbase, hmax, hlive]
    exact Mspace.tenanted_openSpace hr hsp
  case stamped =>
    rw [hlive]
    exact fun b hb => absurd hb List.not_mem_nil

theorem Hosted.Backed.initializeHeap (hv : pr.Valid) {memory maxSize : Nat} {name : String}
    {isClearMemory isClearAllowed : Bool}
    (hvacant : s.sys.Vacant (.initializeHeap memory maxSize name isClearMemory isClearAllowed))
    (hin : InRange pr (.initializeHeap memory maxSize name isClearMemory isClearAllowed))
    (hcall : s.call pr w runtime
      (.initializeHeap memory maxSize name isClearMemory isClearAllowed) = .ok s') :
    s'.Backed pr := by
  obtain ⟨_, heffect, hsys, hs'⟩ := call_ok hcall
  cases heffect
  obtain ⟨h', hinit, hret⟩ := bind_ok hsys
  obtain ⟨_, _, _, hbase, hmax, hmax16, m, hm⟩ := Heap.initializeHeap_ok hinit
  obtain ⟨halign, hpos, hopen⟩ := Heap.initializeHeap_opens hinit
  obtain ⟨hfits, _⟩ := hvacant
  rw [hs', ← Except.ok.inj hret]
  refine backed_open ⟨hv, halign, hmax16, hpos, by omega, hin⟩ hopen hbase hmax rfl ?_
  simp [hm]

theorem Hosted.Backed.terminate (hcall : s.call pr w runtime .terminate = .ok s') :
    s'.Backed pr := by
  obtain ⟨_, heffect, hsys, hs'⟩ := call_ok hcall
  cases heffect
  obtain ⟨h', hterm, hret⟩ := bind_ok hsys
  rw [hs', ← Except.ok.inj hret, Heap.terminate_ok hterm]
  exact ⟨fun _ => rfl, fun hmem => absurd rfl hmem⟩

theorem Hosted.Backed.clear (hb : s.Backed pr) (hh : Housed s.sys)
    (hcall : s.call pr w runtime .clear = .ok s') : s'.Backed pr := by
  obtain ⟨_, heffect, hsys, hs'⟩ := call_ok hcall
  cases heffect
  obtain ⟨h', hclear, hret⟩ := bind_ok hsys
  obtain ⟨hnull, hopen⟩ := Heap.clear_opens hclear
  have hinit : s.sys.heap.mem ≠ none := fun hnone => hnull (hh.no_mspace hnone).2
  obtain ⟨_, _, hk⟩ := hb.opened hinit
  obtain ⟨m, rfl⟩ := Heap.clear_ok hclear
  rw [hs', ← Except.ok.inj hret]
  exact backed_open hk.region hopen rfl rfl rfl (by simp)

/-- The mspace under a heap that has not changed its region. -/
theorem Hosted.Kept.backed {sys : System} {tags : List (Block × Nat)} (hk : s.Kept pr m)
    {m' : Mspace.Mstate} (hmem : sys.heap.mem ≠ none) (hbase : sys.heap.base = s.sys.heap.base)
    (hmax : sys.heap.maxSize = s.sys.heap.maxSize)
    (ht : Mspace.Tenanted pr s.sys.heap.base s.sys.heap.maxSize ⟨m', sys.mspace⟩)
    (hstamped : Stamped tags ⟨m', sys.mspace⟩) : Backed pr ⟨sys, some m', tags⟩ := by
  refine ⟨fun hnone => absurd hnone hmem, fun _ => ⟨m', rfl, ?_⟩⟩
  constructor
  case region =>
    rw [hbase, hmax]
    exact hk.region
  case tenanted =>
    rw [hbase, hmax]
    exact ht
  case stamped => exact hstamped

/-- What `Allocate` does to the mspace. -/
theorem Hosted.effect_allocate (hm : s.m = some m) {size tag align : Nat}
    (hsize : ¬ (size = 0 ∨ s.sys.heap.maxSize ≤ size)) {r : Option Nat × Mspace.Mstate}
    (hok : Mspace.mspaceMemalign pr m align (addSize size 8) = .ok r) :
    s.effect pr w (.allocate size tag align) = .ok (some (writeTag tag r)) := by
  simp only [effect, hm]
  rw [if_neg hsize, hok]
  rfl

theorem Hosted.Backed.allocate (hb : s.Backed pr) {size tag align : Nat}
    (hal : align ≤ 2 ^ 63)
    (hcall : s.call pr w runtime (.allocate size tag align) = .ok s') : s'.Backed pr := by
  obtain ⟨mo, heffect, hsys, hs'⟩ := call_ok hcall
  obtain ⟨a, halloc, hret⟩ := bind_ok hsys
  rw [hs', ← Except.ok.inj hret]
  have htags : s.tagged (s.allocators pr w runtime) (.allocate size tag align)
      = (a.mspaceBlock.map (·, tag)).toList ++ s.tags := by simp only [tagged, halloc]
  rw [htags]
  by_cases hinit : s.sys.heap.mem = none
  · -- without an mspace, only a request for no bytes returns
    have hnone := hb.closed hinit
    simp only [effect, hnone] at heffect
    cases heffect
    rcases Heap.allocate_ok halloc with ⟨_, rfl⟩ | ⟨h, _, _, hmem, _⟩ | ⟨h, _, _, _, hmem, _⟩
    · exact ⟨fun _ => rfl, fun hmem => absurd hinit hmem⟩
    · exact absurd (hmem.symm.trans hinit) (by simp)
    · exact absurd (hmem.symm.trans hinit) (by simp)
  obtain ⟨m, hm, hk⟩ := hb.opened hinit
  by_cases hzero : size = 0
  · simp only [effect, hm, if_pos (Or.inl hzero : size = 0 ∨ s.sys.heap.maxSize ≤ size)] at heffect
    rw [Heap.allocate, if_pos hzero] at halloc
    cases halloc
    cases heffect
    exact hk.backed hinit rfl rfl hk.tenanted hk.stamped
  have hlt : size < s.sys.heap.maxSize := by
    rcases Heap.allocate_ok halloc with ⟨h, _⟩ | ⟨_, _, _, _, h, _⟩ | ⟨_, _, _, _, _, h, _⟩
    · exact absurd h hzero
    · exact h
    · exact h
  obtain ⟨⟨answer, m'⟩, hok, hstep, ht⟩ :=
    memalign_event hk.region hk.tenanted hal (addSize size 8)
  rw [effect_allocate hm (by omega) hok] at heffect
  cases heffect
  rcases Heap.allocate_ok halloc with ⟨h, _⟩ | ⟨h, b, n, _, _, hans, _, rfl⟩
    | ⟨h, b, k, n, _, _, hans, _, _, _, rfl⟩
  · exact absurd h hzero
  · cases answer with
    | none => exact absurd ((memalign_none hm hok).symm.trans hans) (by simp)
    | some mem =>
        cases (memalign_ok hm hok hal).symm.trans hans
        obtain ⟨ht', hstamped⟩ := hk.stamped.grant hk.region hk.tenanted hal hstep ht tag rfl
        exact hk.backed hinit rfl rfl ht' hstamped
  · cases answer with
    | some mem => exact absurd ((memalign_ok hm hok hal).symm.trans hans) (by simp)
    | none =>
        exact hk.backed hinit rfl rfl ht fun c hc =>
          hk.stamped.memalign hk.region hk.tenanted hal hstep hc

/-- **A served request** is a block of the mspace, and changes nothing else. -/
theorem Hosted.served (hm : s.m = some m) {handle : Nat}
    (hmem : s.sys.heap.mem = some handle) {size tag align : Nat} (hzero : size ≠ 0)
    (hlt : size < s.sys.heap.maxSize) (hal : align ≤ 2 ^ 63) {p : Nat} {m' : Mspace.Mstate}
    (hok : Mspace.mspaceMemalign pr m align (addSize size 8) = .ok (some (Mspace.chunk2mem p), m'))
    {b : Block} (hans : Mspace.Answered align (size + 8) ⟨m, s.sys.mspace⟩ ⟨m', b :: s.sys.mspace⟩)
    (hb : b = ⟨Mspace.chunk2mem p, Mspace.mspaceUsableSize m' (Mspace.chunk2mem p)⟩)
    (w : Mspace.Words) (runtime : Nat → Nat → Option Block) :
    ∃ s' k, s.call pr w runtime (.allocate size tag align) = .ok s'
      ∧ s'.sys.mspace = b :: s.sys.mspace ∧ s'.sys.stl = s.sys.stl
      ∧ s'.sys.heap.isMemExhausted = s.sys.heap.isMemExhausted
      ∧ size + 8 ≤ b.size ∧ align ≤ 2 ^ k ∧ b.addr % 2 ^ k = 0 := by
  have hblock : (s.allocators pr w runtime).mspaceMemalign handle align (addSize size 8)
      = some b := by
    rw [hb]
    exact Hosted.memalign_ok hm hok hal
  obtain ⟨n, halloc⟩ : ∃ n, s.sys.heap.allocate (s.allocators pr w runtime) size tag align
      = .ok { heap := { s.sys.heap with mspaceUsedSize := n }, mspaceBlock := some b,
              tagWord := some (b.addr + b.size - 8, tag) } := by
    refine ⟨addSize s.sys.heap.mspaceUsedSize b.size, ?_⟩
    simp only [Heap.allocate, if_neg hzero, if_neg (Nat.not_le_of_lt hlt), hmem, hblock]
  obtain ⟨tags, hcall⟩ : ∃ tags, s.call pr w runtime (.allocate size tag align)
      = .ok ⟨⟨{ s.sys.heap with mspaceUsedSize := n }, b :: s.sys.mspace, s.sys.stl⟩,
        some (Hosted.writeTag tag (some (Mspace.chunk2mem p), m')), tags⟩ := by
    refine ⟨s.tagged (s.allocators pr w runtime) (.allocate size tag align), ?_⟩
    rw [Hosted.call, Hosted.effect_allocate hm (by omega) hok, System.call, halloc]
    rfl
  rcases hans with hsame | ⟨c, k, hlive, hlo, _, hle, haligned⟩
  · have hlen := congrArg (fun sp : Mspace.Space => sp.live.length) hsame
    simp at hlen
  · obtain ⟨rfl, _⟩ := List.cons_eq_cons.mp hlive
    exact ⟨_, k, hcall, rfl, rfl, rfl, hlo, hle, haligned⟩

/-- What `Allocate` asks of the C runtime: the alignment is at least 16. -/
theorem stlAllocate_eq {env : Allocators} {size : Nat} (hzero : size ≠ 0) (align : Nat) :
    stlAllocate env size align 1 = env.alignedMalloc size (max align 16) := by
  have hleast : (if (if align ≠ 0 then align else 1) < 0x10 then 0x10
      else if align ≠ 0 then align else 1) = max align 16 := by
    split <;> split <;> omega
  rw [stlAllocate, if_neg hzero]
  exact congrArg (env.alignedMalloc size) hleast

/-- **A refused request** goes to `StlAllocator`, and leaves the mspace as it
is. -/
theorem Hosted.refused (hm : s.m = some m) {handle : Nat}
    (hmem : s.sys.heap.mem = some handle) {size align : Nat} (hzero : size ≠ 0)
    (hlt : size < s.sys.heap.maxSize)
    (hok : Mspace.mspaceMemalign pr m align (addSize size 8) = .ok (none, m)) (tag : Nat)
    (w : Mspace.Words) (runtime : Nat → Nat → Option Block) :
    (∀ b, runtime size (max align 16) = some b → s.sys.Fresh b →
        ∃ s', s.call pr w runtime (.allocate size tag align) = .ok s'
          ∧ s'.m = s.m ∧ s'.sys.mspace = s.sys.mspace ∧ s'.sys.stl = b :: s.sys.stl
          ∧ s'.sys.heap.isMemExhausted = true)
      ∧ (runtime size (max align 16) = none →
        s.call pr w runtime (.allocate size tag align) = .error (.fault .assertion)) := by
  have hblock : (s.allocators pr w runtime).mspaceMemalign handle align (addSize size 8) = none :=
    Hosted.memalign_none hm hok
  have hfall : s.sys.heap.allocate (s.allocators pr w runtime) size tag align
      = s.sys.heap.tryStlAllocate (s.allocators pr w runtime) size align := by
    simp only [Heap.allocate, if_neg hzero, if_neg (Nat.not_le_of_lt hlt), hmem, hblock]
  have hstl : stlAllocate (s.allocators pr w runtime) size align 1
      = runtime size (max align 16) := stlAllocate_eq hzero align
  have hmspace : s.effect pr w (.allocate size tag align) = .ok (some m) :=
    Hosted.effect_allocate hm (by omega) hok
  constructor
  · intro b hb hfresh
    have hpos : b.size ≠ 0 := Nat.ne_of_gt hfresh.size_pos
    have hnull : b.addr ≠ 0 := by
      obtain ⟨hlo, _⟩ := hfresh.address_space
      omega
    obtain ⟨n, halloc⟩ : ∃ n, s.sys.heap.allocate (s.allocators pr w runtime) size tag align
        = .ok { heap := { s.sys.heap with isMemExhausted := true, stlUsedSize := n },
                stlBlock := some b } := by
      refine ⟨addSize s.sys.heap.stlUsedSize b.size, ?_⟩
      rw [hfall, Heap.tryStlAllocate, hstl, hb]
      dsimp only
      rw [stlGetSize, if_neg hnull, if_neg hpos]
      rfl
    obtain ⟨tags, hcall⟩ : ∃ tags, s.call pr w runtime (.allocate size tag align)
        = .ok ⟨⟨{ s.sys.heap with isMemExhausted := true, stlUsedSize := n }, s.sys.mspace,
          b :: s.sys.stl⟩, some m, tags⟩ := by
      refine ⟨s.tagged (s.allocators pr w runtime) (.allocate size tag align), ?_⟩
      rw [Hosted.call, hmspace, System.call, halloc]
      rfl
    exact ⟨_, hcall, hm.symm, rfl, rfl, rfl⟩
  · intro hnone
    have halloc : s.sys.heap.allocate (s.allocators pr w runtime) size tag align
        = .error .assertion := by
      rw [hfall, Heap.tryStlAllocate, hstl, hnone]
    rw [Hosted.call, hmspace, System.call, halloc]
    rfl

/-- What `Free` does to the mspace: nothing, unless the address is in the
region. -/
theorem Hosted.effect_free_outside (hm : s.m = some m) {block : Nat}
    (hout : block = 0 ∨ block < s.sys.heap.base
      ∨ addSize s.sys.heap.base s.sys.heap.maxSize ≤ block) :
    s.effect pr w (.free block) = .ok (some m) := by
  simp only [effect, hm]
  rw [if_pos hout]

theorem Hosted.effect_free_inside (hm : s.m = some m) {block : Nat}
    (hin : ¬ (block = 0 ∨ block < s.sys.heap.base
      ∨ addSize s.sys.heap.base s.sys.heap.maxSize ≤ block)) {m' : Mspace.Mstate}
    (hok : Mspace.mspaceFree m block = .ok m') :
    s.effect pr w (.free block) = .ok (some m') := by
  simp only [effect, hm]
  rw [if_neg hin, hok]
  rfl

/-- The address test of `Free` tells the blocks of the mspace from the
others. -/
theorem Housed.inside_region {sys : System} (hh : Housed sys) (hinit : sys.heap.mem ≠ none)
    {b : Block} (hb : b ∈ sys.mspace) : ¬ (b.addr = 0 ∨ b.addr < sys.heap.base
      ∨ addSize sys.heap.base sys.heap.maxSize ≤ b.addr) := by
  rw [addSize_of_lt (hh.region hinit)]
  obtain ⟨hlo, hhi⟩ := hh.inside b hb
  have hspace := (hh.address_space b (List.mem_append_left _ hb)).1
  have hpos := hh.size_pos b (List.mem_append_left _ hb)
  unfold Block.stop at hhi
  omega

theorem Housed.outside_region {sys : System} (hh : Housed sys) (hinit : sys.heap.mem ≠ none)
    {b : Block} (hb : b ∈ sys.stl) : b.addr = 0 ∨ b.addr < sys.heap.base
      ∨ addSize sys.heap.base sys.heap.maxSize ≤ b.addr := by
  rw [addSize_of_lt (hh.region hinit)]
  have hoff := hh.off_region hinit b hb
  have hpos := hh.size_pos b (List.mem_append_right _ hb)
  unfold System.OffRegion Block.stop at hoff
  omega

theorem Hosted.Backed.free (hb : s.Backed pr) (hh : Housed s.sys) {block : Nat}
    (hallowed : s.sys.Allowed (.free block))
    (hcall : s.call pr w runtime (.free block) = .ok s') : s'.Backed pr := by
  obtain ⟨mo, heffect, hsys, hs'⟩ := call_ok hcall
  have htags : s.tagged (s.allocators pr w runtime) (.free block) = s.tags := rfl
  rw [hs', htags]
  by_cases hinit : s.sys.heap.mem = none
  · have hnone := hb.closed hinit
    simp only [effect, hnone] at heffect
    cases heffect
    obtain ⟨⟨h', freed⟩, hfree, hret⟩ := bind_ok hsys
    have hmem : s'.sys.heap.mem = none := by
      rcases Heap.free_ok hfree with ⟨rfl, rfl⟩ | ⟨n, rfl, rfl⟩ | ⟨k, n, rfl, rfl⟩
      all_goals
        rw [← Except.ok.inj hret]
        exact hinit
    exact ⟨fun _ => rfl, fun hne => absurd hmem hne⟩
  obtain ⟨m, hm, hk⟩ := hb.opened hinit
  have hp := hh.placed hinit
  rcases hallowed with rfl | ⟨b, hlive, rfl⟩
  · rw [effect_free_outside hm (.inl rfl)] at heffect
    cases heffect
    have hsame : s'.sys = s.sys := (Except.ok.inj hsys).symm
    rw [hsame]
    exact hk.backed hinit rfl rfl hk.tenanted hk.stamped
  · rcases List.mem_append.mp hlive with hlive | hlive
    · obtain ⟨h, hmem⟩ := Option.ne_none_iff_exists'.mp hinit
      obtain ⟨n, _, hfree, hrel⟩ := hp.free_mspace hmem hlive
      rw [System.call, hfree] at hsys
      obtain ⟨cs, hinv, hheld⟩ := hk.tenanted.books
      obtain ⟨m', _, hok, _, _, _, _, ht⟩ := hk.tenanted.freed hinv hheld hlive
      rw [effect_free_inside hm (hh.inside_region hinit hlive) hok] at heffect
      cases heffect
      rw [← Except.ok.inj hsys]
      dsimp only
      rw [hrel]
      refine hk.backed hinit rfl rfl ht fun c hc => ?_
      have hne := addr_ne_of_mem_erase hk.tenanted hlive hc
      have he : Mspace.Space.Permitted ⟨m, s.sys.mspace⟩ (.free b.addr) :=
        .inr ⟨b, hlive, rfl⟩
      have hstep : Mspace.Space.step pr ⟨m, s.sys.mspace⟩ (.free b.addr)
          = .ok ⟨m', release s.sys.mspace b.addr⟩ := by
        rw [Mspace.Space.step, hok]
        rfl
      exact hk.stamped.event hk.region hk.tenanted he hstep (List.mem_of_mem_erase hc)
        (fun heq => hne (Mspace.Event.free.inj heq).symm) fun v => Mspace.Event.noConfusion
    · obtain ⟨n, _, hfree, hrel⟩ := hp.free_stl hlive
      rw [System.call, hfree] at hsys
      rw [effect_free_outside hm (hh.outside_region hinit hlive)] at heffect
      cases heffect
      rw [← Except.ok.inj hsys]
      exact hk.backed hinit rfl rfl hk.tenanted hk.stamped

/-- **One call** keeps the mspace and the heap's view of it in step. -/
theorem Hosted.Backed.call (hv : pr.Valid) (hb : s.Backed pr) (hh : Housed s.sys)
    {c : HeapCall} (hallowed : s.sys.Allowed c) (hvacant : s.sys.Vacant c) (hin : InRange pr c)
    (hcall : s.call pr w runtime c = .ok s') : s'.Backed pr := by
  cases c with
  | initializeHeap memory maxSize name isClearMemory isClearAllowed =>
      exact .initializeHeap hv hvacant hin hcall
  | terminate => exact .terminate hcall
  | clear => exact hb.clear hh hcall
  | allocate size tag align => exact hb.allocate hin hcall
  | free block => exact hb.free hh hallowed hcall

/-- No call ends in the mspace. -/
theorem Hosted.Backed.effect_ok (hb : s.Backed pr) (hh : Housed s.sys) {c : HeapCall}
    (hallowed : s.sys.Allowed c) (hin : InRange pr c) : ∃ m, s.effect pr w c = .ok m := by
  cases c with
  | initializeHeap memory maxSize name isClearMemory isClearAllowed => exact ⟨_, rfl⟩
  | terminate => exact ⟨_, rfl⟩
  | clear => exact ⟨_, rfl⟩
  | allocate size tag align =>
      by_cases hinit : s.sys.heap.mem = none
      · exact ⟨none, by simp only [effect, hb.closed hinit]⟩
      obtain ⟨m, hm, hk⟩ := hb.opened hinit
      by_cases hsize : size = 0 ∨ s.sys.heap.maxSize ≤ size
      · exact ⟨some m, by simp only [effect, hm, if_pos hsize]⟩
      obtain ⟨r, hok, _⟩ := memalign_event hk.region hk.tenanted hin (addSize size 8)
      exact ⟨_, effect_allocate hm hsize hok⟩
  | free block =>
      by_cases hinit : s.sys.heap.mem = none
      · exact ⟨none, by simp only [effect, hb.closed hinit]⟩
      obtain ⟨m, hm, hk⟩ := hb.opened hinit
      rcases hallowed with rfl | ⟨b, hlive, rfl⟩
      · exact ⟨some m, effect_free_outside hm (.inl rfl)⟩
      · rcases List.mem_append.mp hlive with hlive | hlive
        · obtain ⟨cs, hinv, hheld⟩ := hk.tenanted.books
          obtain ⟨m', _, hok, _⟩ := hk.tenanted.freed hinv hheld hlive
          exact ⟨some m', effect_free_inside hm (hh.inside_region hinit hlive) hok⟩
        · exact ⟨some m, effect_free_outside hm (hh.outside_region hinit hlive)⟩

/-- **A client's write** keeps the tags and the mspace as they are. -/
theorem Hosted.Backed.write (hb : s.Backed pr) (hm : s.m = some m) {a : Nat}
    (ha : s.Writable a) (v : Nat) :
    Backed pr { s with m := some { m with mem := Function.update m.mem a v } } := by
  obtain ⟨hinit, hk⟩ := hb.kept hm
  obtain ⟨halign, b, hlive, hlo, hhi⟩ := ha
  have hle : a + 8 ≤ b.stop := by omega
  have he : Mspace.Space.Permitted ⟨m, s.sys.mspace⟩ (.write a v) :=
    ⟨halign, b, hlive, hlo, hle⟩
  refine hk.backed hinit rfl rfl (hk.tenanted.write he) fun c hc => ?_
  refine hk.stamped.event hk.region hk.tenanted he rfl hc Mspace.Event.noConfusion fun v' heq => ?_
  obtain ⟨rfl, _⟩ := Mspace.Event.write.inj heq
  by_cases hcb : b = c
  · subst hcb
    omega
  · exact (lastWord hk.tenanted hc).2.2.2 b hlive hcb _ hlo hle rfl

/-- **The allocator's own writes** do, too. -/
theorem Hosted.Backed.allocator (hb : s.Backed pr) (hm : s.m = some m)
    (hw : Mspace.Space.Permitted ⟨m, s.sys.mspace⟩ (.allocator w)) :
    Backed pr { s with m := some { m with mem := w } } := by
  obtain ⟨hinit, hk⟩ := hb.kept hm
  refine hk.backed hinit rfl rfl (hk.tenanted.allocator hw) fun c hc => ?_
  exact hk.stamped.event hk.region hk.tenanted hw rfl hc Mspace.Event.noConfusion
    fun v => Mspace.Event.noConfusion

end Calls

end SkyEngine.Memory
