import SkyEngine.Lib.ByteMemory
import SkyEngine.Memory.Accounting

/-!
# Memory — Tags

`Allocate` keeps the tag of an mspace block in the block's own last word,
past the bytes the client asked for. The heap among the bytes of its
blocks: the client writes where it may, the allocators write where no
block is live, and every tag stays where it was put.
-/

namespace SkyEngine.Memory

open Blocks ByteMemory

/-! ## The heap and its clients -/

/-- A block `Allocate` has returned and `Free` has not taken back, with what
was asked for. -/
structure Lease where
  block : Block
  size : Nat
  tag : Nat
  align : Nat
  ofMspace : Bool
  deriving DecidableEq

/-- Where the tag of an mspace block is. -/
def Lease.tagAddr (l : Lease) : Nat := l.block.addr + l.block.size - 8

/-- The bytes asked for, and those of the tag. -/
def Lease.requested (l : Lease) : Block := ⟨l.block.addr, l.size⟩

def Lease.tagWord (l : Lease) : Block := ⟨l.tagAddr, 8⟩

/-- The two blocks share no byte. -/
def Lease.ApartFrom (l l' : Lease) : Prop := Apart l.block l'.block

instance : Std.Symm Lease.ApartFrom := ⟨fun _ _ => Or.symm⟩

/-- The heap, the bytes of the process and the live blocks. -/
structure Arena where
  heap : Heap
  memory : ByteMemory.Memory
  leases : List Lease := []

/-- The live blocks of one of the two allocators. -/
def Arena.blocks (a : Arena) (ofMspace : Bool) : List Block :=
  (a.leases.filter (·.ofMspace = ofMspace)).map (·.block)

/-- What happens to an arena: `Allocate`, `Free`, a write by the client, a
change the allocators make to bytes they own. -/
inductive ArenaEvent where
  | allocate (size tag align : Nat)
  | free (block : Nat)
  | write (addr : Nat) (bytes : List UInt8)
  | allocator (memory : ByteMemory.Memory)

/-- The lease of a block `Allocate` returned. -/
def Heap.Allocation.leases (r : Heap.Allocation) (size tag align : Nat) : List Lease :=
  r.mspaceBlock.toList.map (⟨·, size, tag, align, true⟩)
    ++ r.stlBlock.toList.map (⟨·, size, tag, align, false⟩)

/-- Memory after `Allocate` has written its tag. -/
def Heap.Allocation.tagged (r : Heap.Allocation) (m : ByteMemory.Memory) : ByteMemory.Memory :=
  match r.tagWord with
  | none => m
  | some (addr, tag) => storeWord m addr tag

/-- The effect of one event. -/
def Arena.step (env : Allocators) (a : Arena) : ArenaEvent → Except Fault Arena
  | .allocate size tag align => do
      let r ← a.heap.allocate env size tag align
      .ok {
        heap := r.heap
        memory := r.tagged a.memory
        leases := r.leases size tag align ++ a.leases }
  | .free block => do
      let (h, freed) ← a.heap.free (sizeAt (a.blocks true)) (sizeAt (a.blocks false)) block
      match freed with
      | .none => .ok { a with heap := h }
      | .stl p | .mspace _ p =>
          .ok { a with heap := h, leases := a.leases.eraseP (·.block.addr = p) }
  | .write addr bytes => .ok { a with memory := write a.memory addr bytes }
  | .allocator memory => .ok { a with memory := memory }

/-- Who may do what: alignments are powers of two, tags are pointers, `Free`
gets null or a live block, the client writes within the bytes it asked for,
the allocators outside every live block. -/
def Arena.Permitted (a : Arena) : ArenaEvent → Prop
  | .allocate _ tag align => tag < 2 ^ 64 ∧ ∃ k, align = 2 ^ k
  | .free block => block = 0 ∨ ∃ l ∈ a.leases, l.block.addr = block
  | .write addr bytes => ∃ l ∈ a.leases, l.block.addr ≤ addr
      ∧ addr + bytes.length ≤ l.block.addr + l.size
  | .allocator memory => ∀ l ∈ a.leases, Agree memory a.memory l.block.addr l.block.size

/-- The allocators keep their word: a block is apart from every live one,
aligned as asked and at least as large. -/
structure Allocators.Serves (env : Allocators) (a : Arena) : Prop where
  mspaceMemalign : ∀ m k bytes b, env.mspaceMemalign m (2 ^ k) bytes = some b →
    2 ^ k ∣ b.addr ∧ bytes ≤ b.size ∧ ∀ l ∈ a.leases, Apart b l.block
  alignedMalloc : ∀ size k b, env.alignedMalloc size (2 ^ k) = some b →
    2 ^ k ∣ b.addr ∧ size ≤ b.size ∧ ∀ l ∈ a.leases, Apart b l.block

/-- The arenas reached from one `Initialize`, whatever the memory held. -/
inductive ArenaRun : Arena → Prop
  | initializeHeap {env : Allocators} {h : Heap} {memory maxSize : Nat} {name : String}
      {isClearMemory isClearAllowed : Bool} (bytes : ByteMemory.Memory) : maxSize < 2 ^ 64 →
      ({} : Heap).initializeHeap env memory maxSize name isClearMemory isClearAllowed = .ok h →
      ArenaRun { heap := h, memory := bytes }
  | event {a a' : Arena} {e : ArenaEvent} (env : Allocators) : ArenaRun a → a.Permitted e →
      env.Serves a → a.step env e = .ok a' → ArenaRun a'

/-! ## The invariant -/

/-- What every block was good for when it was handed out, and the tags. -/
structure Tagged (a : Arena) : Prop where
  max_size : a.heap.maxSize % 16 = 0 ∧ a.heap.maxSize < 2 ^ 64
  apart : a.leases.Pairwise Lease.ApartFrom
  fits : ∀ l ∈ a.leases, l.size ≤ l.block.size
  aligned : ∀ l ∈ a.leases, l.align ∣ l.block.addr
  room : ∀ l ∈ a.leases, l.ofMspace → l.size + 8 ≤ l.block.size
  word : ∀ l ∈ a.leases, l.ofMspace → loadWord a.memory l.tagAddr = l.tag

/-- A size the `m_maxSize` check lets through leaves room for the tag. -/
theorem Tagged.addSize_eq {a : Arena} (h : Tagged a) {size : Nat}
    (hsize : size < a.heap.maxSize) : addSize size 8 = size + 8 := by
  obtain ⟨halign, hlt⟩ := h.max_size
  exact addSize_of_lt (by omega)

/-- The tag is the last word of the block. -/
theorem Lease.tagAddr_eq {l : Lease} (h : l.size + 8 ≤ l.block.size) :
    l.block.addr + l.size ≤ l.tagAddr ∧ l.tagAddr + 8 = l.block.stop := by
  unfold Lease.tagAddr Block.stop
  omega

theorem tagged_initializeHeap {env : Allocators} {h : Heap} {memory maxSize : Nat}
    {name : String} {isClearMemory isClearAllowed : Bool} (bytes : ByteMemory.Memory)
    (hmax : maxSize < 2 ^ 64)
    (hinit : ({} : Heap).initializeHeap env memory maxSize name isClearMemory isClearAllowed
      = .ok h) : Tagged { heap := h, memory := bytes } := by
  obtain ⟨_, _, _, _, hsize, halign, _⟩ := Heap.initializeHeap_ok hinit
  constructor
  case max_size =>
    show h.maxSize % 16 = 0 ∧ h.maxSize < 2 ^ 64
    rw [hsize]
    exact ⟨halign, hmax⟩
  case apart => exact List.Pairwise.nil
  all_goals simp

section Steps

variable {env : Allocators} {a a' : Arena}

/-- Memory may change wherever no block keeps its tag. -/
theorem Tagged.remember (h : Tagged a) {memory : ByteMemory.Memory}
    (hkept : ∀ l ∈ a.leases, l.ofMspace → Agree memory a.memory l.tagAddr 8) :
    Tagged { a with memory := memory } where
  max_size := h.max_size
  apart := h.apart
  fits := h.fits
  aligned := h.aligned
  room := h.room
  word := by
    intro l hl hms
    show loadWord memory l.tagAddr = l.tag
    rw [(hkept l hl hms).loadWord]
    exact h.word l hl hms

/-- A block that may be handed out next. -/
structure Arena.Joins (a : Arena) (l : Lease) : Prop where
  apart : ∀ l' ∈ a.leases, l.ApartFrom l'
  fits : l.size ≤ l.block.size
  aligned : l.align ∣ l.block.addr

theorem Tagged.cons (h : Tagged a) {l : Lease} (hl : a.Joins l) {heap : Heap}
    (hmax : heap.maxSize = a.heap.maxSize) (hroom : l.ofMspace → l.size + 8 ≤ l.block.size)
    (hword : l.ofMspace → loadWord a.memory l.tagAddr = l.tag) :
    Tagged { heap := heap, memory := a.memory, leases := l :: a.leases } where
  max_size := by
    show heap.maxSize % 16 = 0 ∧ heap.maxSize < 2 ^ 64
    rw [hmax]
    exact h.max_size
  apart := List.pairwise_cons.mpr ⟨hl.apart, h.apart⟩
  fits := List.forall_mem_cons.mpr ⟨hl.fits, h.fits⟩
  aligned := List.forall_mem_cons.mpr ⟨hl.aligned, h.aligned⟩
  room := List.forall_mem_cons.mpr ⟨hroom, h.room⟩
  word := List.forall_mem_cons.mpr ⟨hword, h.word⟩

/-- `StlAllocator` rounds an alignment below 16 up. -/
theorem stlAllocate_serves (hserves : env.Serves a) {size k : Nat} {b : Block}
    (hb : stlAllocate env size (2 ^ k) 1 = some b) :
    2 ^ k ∣ b.addr ∧ size ≤ b.size ∧ ∀ l ∈ a.leases, Apart b l.block := by
  unfold stlAllocate at hb
  split at hb
  · cases hb
  · rw [if_pos (Nat.pos_iff_ne_zero.mp (Nat.two_pow_pos k))] at hb
    simp only at hb
    by_cases hk : 2 ^ k < 0x10
    · rw [if_pos hk] at hb
      obtain ⟨halign, hrest⟩ := hserves.alignedMalloc size 4 b hb
      have hdvd : 2 ^ k ∣ 2 ^ 4 := by
        apply Nat.pow_dvd_pow
        have hlt : 2 ^ k < 2 ^ 4 := hk
        exact (Nat.pow_lt_pow_iff_right (by decide)).mp hlt |>.le
      exact ⟨hdvd.trans halign, hrest⟩
    · rw [if_neg hk] at hb
      exact hserves.alignedMalloc size k b hb

theorem Tagged.allocate (h : Tagged a) (hserves : env.Serves a) {size tag align : Nat}
    (hpermitted : a.Permitted (.allocate size tag align))
    (hstep : a.step env (.allocate size tag align) = .ok a') : Tagged a' := by
  obtain ⟨htag, k, rfl⟩ := hpermitted
  obtain ⟨r, halloc, ha'⟩ := bind_ok hstep
  cases ha'
  rcases Heap.allocate_ok halloc with ⟨_, rfl⟩ | ⟨m, b, n, _, hsize, hb, _, rfl⟩
    | ⟨m, b, j, n, _, _, _, hb, _, _, rfl⟩
  · exact ⟨h.max_size, h.apart, h.fits, h.aligned, h.room, h.word⟩
  · rw [h.addSize_eq hsize] at hb
    obtain ⟨halign, hfit, hapart⟩ := hserves.mspaceMemalign m k _ b hb
    -- the new tag is in the new block, the other tags are in theirs
    have hkept : ∀ l ∈ a.leases, l.ofMspace →
        Agree (storeWord a.memory (b.addr + b.size - 8) tag) a.memory l.tagAddr 8 := by
      intro l hl hms
      have hlast := Lease.tagAddr_eq (h.room l hl hms)
      have hl' := hapart l hl
      unfold Apart Block.stop at hl'
      unfold Block.stop at hlast
      exact agree_storeWord_apart (by omega)
    have hjoins : Arena.Joins { a with memory := storeWord a.memory (b.addr + b.size - 8) tag }
        ⟨b, size, tag, 2 ^ k, true⟩ := ⟨hapart, Nat.le_of_add_right_le hfit, halign⟩
    exact (h.remember hkept).cons hjoins rfl (fun _ => hfit)
      (fun _ => loadWord_storeWord htag)
  · obtain ⟨halign, hfit, hapart⟩ := stlAllocate_serves hserves hb
    have hjoins : a.Joins ⟨b, size, tag, 2 ^ k, false⟩ := ⟨hapart, hfit, halign⟩
    exact h.cons hjoins rfl (by simp) (by simp)

theorem Tagged.free (h : Tagged a) {block : Nat} (hstep : a.step env (.free block) = .ok a') :
    Tagged a' := by
  obtain ⟨⟨h', freed⟩, hfree, hret⟩ := bind_ok hstep
  have hless : ∀ p, (a.leases.eraseP (·.block.addr = p)).Sublist a.leases :=
    fun _ => List.eraseP_sublist
  have hsub : ∃ leases, leases.Sublist a.leases ∧ h'.maxSize = a.heap.maxSize
      ∧ a' = { a with heap := h', leases := leases } := by
    rcases Heap.free_ok hfree with ⟨rfl, rfl⟩ | ⟨n, rfl, rfl⟩ | ⟨m, n, rfl, rfl⟩
    · cases hret
      exact ⟨a.leases, List.Sublist.refl _, rfl, rfl⟩
    · cases hret
      exact ⟨_, hless block, rfl, rfl⟩
    · cases hret
      exact ⟨_, hless block, rfl, rfl⟩
  obtain ⟨leases, hleases, hmax, rfl⟩ := hsub
  constructor
  case max_size =>
    show h'.maxSize % 16 = 0 ∧ h'.maxSize < 2 ^ 64
    rw [hmax]
    exact h.max_size
  case apart => exact h.apart.sublist hleases
  case fits => exact fun l hl => h.fits l (hleases.mem hl)
  case aligned => exact fun l hl => h.aligned l (hleases.mem hl)
  case room => exact fun l hl => h.room l (hleases.mem hl)
  case word => exact fun l hl => h.word l (hleases.mem hl)

/-- The bytes asked for hold no tag, of this block or another. -/
theorem Tagged.apart_requested (h : Tagged a) {l l' : Lease} (hl : l ∈ a.leases)
    (hms : l.ofMspace) (hl' : l' ∈ a.leases) : Apart l.tagWord l'.requested := by
  have hlast := Lease.tagAddr_eq (h.room l hl hms)
  have hfit := h.fits l' hl'
  unfold Apart Lease.tagWord Lease.requested Block.stop
  unfold Block.stop at hlast
  by_cases heq : l = l'
  · subst heq
    exact .inr hlast.1
  · have hapart := h.apart.forall hl hl' heq
    unfold Lease.ApartFrom Apart Block.stop at hapart
    show l.tagAddr + 8 ≤ l'.block.addr ∨ l'.block.addr + l'.size ≤ l.tagAddr
    omega

theorem Tagged.write (h : Tagged a) {addr : Nat} {bytes : List UInt8}
    (hpermitted : a.Permitted (.write addr bytes)) :
    Tagged { a with memory := write a.memory addr bytes } := by
  obtain ⟨l', hl', hlo, hhi⟩ := hpermitted
  refine h.remember ?_
  intro l hl hms
  have hapart := h.apart_requested hl hms hl'
  unfold Apart Lease.tagWord Lease.requested Block.stop at hapart
  simp only at hapart
  exact agree_write_apart (by omega)

theorem Tagged.allocator (h : Tagged a) {memory : ByteMemory.Memory}
    (hpermitted : a.Permitted (.allocator memory)) : Tagged { a with memory := memory } := by
  refine h.remember ?_
  intro l hl hms p hlo hhi
  have hlast := Lease.tagAddr_eq (h.room l hl hms)
  unfold Block.stop at hlast
  exact hpermitted l hl p (by omega) (by omega)

/-- **One event** keeps every tag in its place. -/
theorem Tagged.step (h : Tagged a) (hserves : env.Serves a) {e : ArenaEvent}
    (hpermitted : a.Permitted e) (hstep : a.step env e = .ok a') : Tagged a' := by
  cases e with
  | allocate size tag align => exact h.allocate hserves hpermitted hstep
  | free block => exact h.free hstep
  | write addr bytes =>
      cases hstep
      exact h.write hpermitted
  | allocator memory =>
      cases hstep
      exact h.allocator hpermitted

end Steps

/-! ## Runs -/

theorem ArenaRun.tagged {a : Arena} (h : ArenaRun a) : Tagged a := by
  induction h with
  | initializeHeap bytes hmax hinit => exact tagged_initializeHeap bytes hmax hinit
  | event env _ hpermitted hserves hstep ih => exact ih.step hserves hpermitted hstep

/-- What clients and the heap rely on: blocks as large and as aligned as
asked for, nobody's bytes in anybody else's block, tags outside all bytes
asked for and still what they were. -/
structure TagsIntact (a : Arena) : Prop where
  fits : ∀ l ∈ a.leases, l.size ≤ l.block.size
  aligned : ∀ l ∈ a.leases, l.align ∣ l.block.addr
  apart : a.leases.Pairwise fun l l' => Apart l.block l'.requested ∧ Apart l'.block l.requested
  tag_outside : ∀ l ∈ a.leases, l.ofMspace → ∀ l' ∈ a.leases, Apart l.tagWord l'.requested
  tag_kept : ∀ l ∈ a.leases, l.ofMspace → loadWord a.memory l.tagAddr = l.tag
  no_wrap : ∀ size, size < a.heap.maxSize → addSize size 8 = size + 8

/-- **Tags survive** any interleaving of allocations, frees and writes. -/
theorem tagsIntact_of_run {a : Arena} (h : ArenaRun a) : TagsIntact a := by
  have htagged := h.tagged
  constructor
  case fits => exact htagged.fits
  case aligned => exact htagged.aligned
  case apart =>
    refine htagged.apart.imp_of_mem ?_
    intro l l' hl hl' hapart
    have hfit := htagged.fits l hl
    have hfit' := htagged.fits l' hl'
    unfold Lease.ApartFrom Apart Block.stop at hapart
    unfold Apart Lease.requested Block.stop
    simp only
    omega
  case tag_outside => exact fun l hl hms l' hl' => htagged.apart_requested hl hms hl'
  case tag_kept => exact htagged.word
  case no_wrap => exact fun size hsize => htagged.addSize_eq hsize

/-! ## At the sample -/

/-- Allocators that serve one request, for a block of the mspace or not. -/
def onlyFor (ofMspace : Bool) (align bytes : Nat) (b : Block) : Allocators where
  createMspaceWithBase := sampleMspace
  mspaceMemalign _ a n := if ofMspace = true ∧ a = align ∧ n = bytes then some b else none
  alignedMalloc n a := if ofMspace = false ∧ a = align ∧ n = bytes then some b else none

theorem onlyFor_serves {a : Arena} {ofMspace : Bool} {align bytes : Nat} {b : Block}
    (halign : align ∣ b.addr) (hfit : bytes ≤ b.size)
    (hapart : ∀ l ∈ a.leases, Apart b l.block) : (onlyFor ofMspace align bytes b).Serves a := by
  constructor
  case mspaceMemalign =>
    intro m k n c hc
    obtain ⟨⟨_, rfl, rfl⟩, hsome⟩ := Option.ite_none_right_eq_some.mp hc
    cases hsome
    exact ⟨halign, hfit, hapart⟩
  case alignedMalloc =>
    intro n k c hc
    obtain ⟨⟨_, rfl, rfl⟩, hsome⟩ := Option.ite_none_right_eq_some.mp hc
    cases hsome
    exact ⟨halign, hfit, hapart⟩

/-- The sample heap over 1104 bytes, enough for one small block. -/
def smallHeap (isMemExhausted : Bool) (mspaceUsed stlUsed : Nat) : Heap :=
  { sampleHeap isMemExhausted stlUsed with maxSize := 1104, mspaceUsedSize := mspaceUsed }

/-- The block of the mspace, every requested byte of it written, and a
fallback block. -/
def sampleArena : Arena where
  heap := smallHeap true 56 112
  memory := write (storeWord (fun _ => 0) 5104 77) 5056 (List.replicate 40 255)
  leases := [⟨⟨65536, 112⟩, 112, 5, 4, false⟩, ⟨⟨5056, 56⟩, 40, 77, 16, true⟩]

theorem sampleArena_run : ArenaRun sampleArena := by
  have hinit : ArenaRun { heap := smallHeap false 0 0, memory := fun _ => 0 } :=
    @ArenaRun.initializeHeap fullMspace _ 4096 1104 "Sample" true true (fun _ => 0)
      (by decide) rfl
  have hmspace : ArenaRun {
      heap := smallHeap false 56 0
      memory := storeWord (fun _ => 0) 5104 77
      leases := [⟨⟨5056, 56⟩, 40, 77, 16, true⟩] } :=
    .event (e := .allocate 40 77 16) (onlyFor true 16 48 ⟨5056, 56⟩) hinit
      ⟨by decide, 4, rfl⟩ (onlyFor_serves (by decide) (by decide) (by simp)) rfl
  have hfallback : ArenaRun {
      heap := smallHeap true 56 112
      memory := storeWord (fun _ => 0) 5104 77
      leases := [⟨⟨65536, 112⟩, 112, 5, 4, false⟩, ⟨⟨5056, 56⟩, 40, 77, 16, true⟩] } :=
    .event (e := .allocate 112 5 4) (onlyFor false 16 112 ⟨65536, 112⟩) hmspace
      ⟨by decide, 2, rfl⟩ (onlyFor_serves (by decide) (by decide) (by decide)) rfl
  exact .event (e := .write 5056 (List.replicate 40 255))
    (onlyFor false 16 48 ⟨131072, 48⟩) hfallback
    ⟨⟨⟨5056, 56⟩, 40, 77, 16, true⟩, by simp, by decide, by decide⟩
    (onlyFor_serves (by decide) (by decide) (by decide)) rfl

theorem tagsIntact_of_run_sample : TagsIntact sampleArena :=
  tagsIntact_of_run sampleArena_run

end SkyEngine.Memory
