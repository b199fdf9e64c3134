import SkyEngine.Basic
import SkyEngine.Lib.Blocks

/-!
# Memory — Heap

`Heap` (`Memory/Heap.cpp`) and `StlAllocator` (`Utils/StlAllocator.cpp`) on
top of two allocators they do not implement: dlmalloc's mspaces and the C
runtime's aligned malloc. What those answer is an argument of each
operation (`Allocators`); which of their blocks are live is part of the
`System` the heap runs in.
-/

namespace SkyEngine.Memory

open Blocks

/-! ## `size_t` -/

/-- `a + b` in 64 bits. -/
def addSize (a b : Nat) : Nat := (a + b) % 2 ^ 64

/-- `a - b` in 64 bits. -/
def subSize (a b : Nat) : Nat := (a + 2 ^ 64 - b) % 2 ^ 64

theorem addSize_of_lt {a b : Nat} (h : a + b < 2 ^ 64) : addSize a b = a + b :=
  Nat.mod_eq_of_lt h

theorem subSize_of_le {a b : Nat} (hb : b ≤ a) (ha : a < 2 ^ 64) : subSize a b = a - b := by
  unfold subSize
  omega

/-! ## The allocators underneath -/

/-- What the allocators answer at one moment: `create_mspace_with_base`
(base, capacity), `mspace_memalign` (mspace, alignment, bytes) and
`_aligned_malloc` (size, alignment). A returned block comes with the usable
size it will report. -/
structure Allocators where
  createMspaceWithBase : Nat → Nat → Option Nat
  mspaceMemalign : Nat → Nat → Nat → Option Block
  alignedMalloc : Nat → Nat → Option Block

/-- `StlAllocator::Allocate`. -/
def stlAllocate (env : Allocators) (size align minAlign : Nat) : Option Block :=
  if size = 0 then none
  else
    let minAlign := if align ≠ 0 then align else minAlign
    let minAlign := if minAlign < 0x10 then 0x10 else minAlign
    env.alignedMalloc size minAlign

/-- `StlAllocator::GetSize`, given what `_aligned_msize` reports. -/
def stlGetSize (block size : Nat) : Except Fault Nat :=
  if block = 0 then .ok 0
  else if size = 0 then .error .assertion
  else .ok size

/-! ## `Heap` -/

/-- The fields of a `Heap`; the lock is left out. `mem` is the mspace
handle. -/
structure Heap where
  base : Nat := 0
  maxSize : Nat := 0
  usedBytes : Nat := 0
  mspaceUsedSize : Nat := 0
  stlUsedSize : Nat := 0
  name : String := ""
  clearMemory : Bool := true
  isMemExhausted : Bool := false
  isStatic : Bool := false
  isClearAllowed : Bool := false
  mem : Option Nat := none
  deriving DecidableEq

namespace Heap

/-- `GetUsedBytes`; `uordblks` is what `mspace_mallinfo` reports. -/
def getUsedBytes (h : Heap) (refresh : Bool) (uordblks : Nat) : Except Fault (Nat × Heap) :=
  if refresh then
    match h.mem with
    | none => .error .nullDeref
    | some _ =>
        .ok (uordblks,
          if h.usedBytes ≤ uordblks then { h with usedBytes := uordblks } else h)
  else
    .ok (addSize h.stlUsedSize h.mspaceUsedSize,
      if h.usedBytes ≤ h.mspaceUsedSize then { h with usedBytes := h.mspaceUsedSize } else h)

/-- `Initialize`. A null region is written to by `create_mspace_with_base`
at the latest. -/
def initializeHeap (env : Allocators) (h : Heap) (memory maxSize : Nat) (name : String)
    (isClearMemory isClearAllowed : Bool) : Except Fault Heap :=
  if h.mem.isSome then .error .assertion
  else if memory % 16 ≠ 0 then .error .assertion
  else if maxSize % 16 ≠ 0 then .error .assertion
  else if memory = 0 then .error .nullDeref
  else
    match env.createMspaceWithBase memory maxSize with
    | none => .error .assertion
    | some m => .ok { h with
        clearMemory := isClearMemory
        isClearAllowed := isClearAllowed
        base := memory
        maxSize := maxSize
        usedBytes := 0
        name := String.ofList (name.toList.take 30)
        mem := some m
        isStatic := name == "Static" }

/-- `Terminate`; `destroy_mspace` reads its argument. -/
def terminate (h : Heap) : Except Fault Heap :=
  match h.mem with
  | none => .error .nullDeref
  | some _ => .ok { h with mem := none, base := 0 }

/-- `Clear`; without a region, or when no mspace fits it, the calls after
`create_mspace_with_base` crash. -/
def clear (env : Allocators) (h : Heap) : Except Fault Heap :=
  if h.isClearAllowed = false then .error .assertion
  else if h.base = 0 then .error .nullDeref
  else
    match env.createMspaceWithBase h.base h.maxSize with
    | none => .error .nullDeref
    | some m => .ok { h with mem := some m, mspaceUsedSize := 0, stlUsedSize := 0 }

/-- What `Allocate` did: the block it returns, by the allocator it comes
from, and the tag word it wrote. -/
structure Allocation where
  heap : Heap
  mspaceBlock : Option Block := none
  stlBlock : Option Block := none
  tagWord : Option (Nat × Nat) := none
  deriving DecidableEq

/-- `m_TryStlAllocate`, called with no block so far. -/
def tryStlAllocate (env : Allocators) (h : Heap) (size align : Nat) :
    Except Fault Allocation :=
  match stlAllocate env size align 1 with
  | none => .error .assertion
  | some b => do
      let size ← stlGetSize b.addr b.size
      .ok {
        heap := { h with
          isMemExhausted := true, stlUsedSize := addSize h.stlUsedSize size }
        stlBlock := some b }

/-- `Allocate`. The tag is written into the last word of the block. -/
def allocate (env : Allocators) (h : Heap) (size tag align : Nat) : Except Fault Allocation :=
  if size = 0 then .ok { heap := h }
  else if h.maxSize ≤ size then .error .assertion
  else
    match h.mem with
    | none => .error .nullDeref
    | some m =>
        match env.mspaceMemalign m align (addSize size 8) with
        | some b => .ok {
            heap := { h with mspaceUsedSize := addSize h.mspaceUsedSize b.size }
            mspaceBlock := some b
            tagWord := some (b.addr + b.size - 8, tag) }
        | none => tryStlAllocate env h size align

/-- Where `Free` gives a block back. -/
inductive FreeCall where
  | none
  | stl (block : Nat)
  | mspace (mem block : Nat)
  deriving DecidableEq

/-- `Free`, given what `mspace_usable_size` and `_aligned_msize` report. -/
def free (h : Heap) (usableSize alignedMsize : Nat → Nat) (block : Nat) :
    Except Fault (Heap × FreeCall) :=
  if block = 0 then .ok (h, .none)
  else if block < h.base ∨ addSize h.base h.maxSize ≤ block then do
    let size ← stlGetSize block (alignedMsize block)
    .ok ({ h with stlUsedSize := subSize h.stlUsedSize size }, .stl block)
  else
    match h.mem with
    | none => .error .nullDeref
    | some m =>
        .ok ({ h with mspaceUsedSize := subSize h.mspaceUsedSize (usableSize block) },
          .mspace m block)

/-! ### What a call can do

The new counter values are named by an equation of their own: 64-bit terms
inside a record invite the kernel to compute with them. -/

theorem initializeHeap_ok {env : Allocators} {h h' : Heap} {memory maxSize : Nat}
    {name : String} {isClearMemory isClearAllowed : Bool}
    (hok : h.initializeHeap env memory maxSize name isClearMemory isClearAllowed = .ok h') :
    h.mem = none ∧ h'.mspaceUsedSize = h.mspaceUsedSize ∧ h'.stlUsedSize = h.stlUsedSize
      ∧ h'.base = memory ∧ h'.maxSize = maxSize ∧ maxSize % 16 = 0 ∧ ∃ m, h'.mem = some m := by
  unfold initializeHeap at hok
  split at hok
  · cases hok
  · rename_i hmem
    split at hok
    · cases hok
    · split at hok
      · cases hok
      · rename_i halign
        split at hok
        · cases hok
        · split at hok
          · cases hok
          · rename_i m _
            cases hok
            exact ⟨by simpa using hmem, rfl, rfl, rfl, rfl, by omega, m, rfl⟩

theorem terminate_ok {h h' : Heap} (hok : h.terminate = .ok h') :
    h' = { h with mem := none, base := 0 } := by
  unfold terminate at hok
  split at hok
  · cases hok
  · cases hok
    rfl

theorem clear_ok {env : Allocators} {h h' : Heap} (hok : h.clear env = .ok h') :
    ∃ m, h' = { h with mem := some m, mspaceUsedSize := 0, stlUsedSize := 0 } := by
  unfold clear at hok
  split at hok
  · cases hok
  · split at hok
    · cases hok
    · split at hok
      · cases hok
      · rename_i m _
        cases hok
        exact ⟨m, rfl⟩

/-- **Every way `Allocate` returns**: no block for no bytes, a block of the
mspace, or a fallback block. -/
theorem allocate_ok {env : Allocators} {h : Heap} {size tag align : Nat} {a : Allocation}
    (hok : h.allocate env size tag align = .ok a) :
    (size = 0 ∧ a = { heap := h })
      ∨ (∃ m b n, h.mem = some m ∧ size < h.maxSize
        ∧ env.mspaceMemalign m align (addSize size 8) = some b
        ∧ n = addSize h.mspaceUsedSize b.size
        ∧ a = { heap := { h with mspaceUsedSize := n }, mspaceBlock := some b,
                tagWord := some (b.addr + b.size - 8, tag) })
      ∨ ∃ m b k n, h.mem = some m ∧ size < h.maxSize
        ∧ env.mspaceMemalign m align (addSize size 8) = none
        ∧ stlAllocate env size align 1 = some b ∧ stlGetSize b.addr b.size = .ok k
        ∧ n = addSize h.stlUsedSize k
        ∧ a = { heap := { h with isMemExhausted := true, stlUsedSize := n },
                stlBlock := some b } := by
  unfold allocate at hok
  split at hok
  · rename_i hsize
    cases hok
    exact .inl ⟨hsize, rfl⟩
  · split at hok
    · cases hok
    · rename_i hmax
      split at hok
      · cases hok
      · rename_i m hm
        split at hok
        · rename_i b hb
          cases hok
          exact .inr (.inl ⟨m, b, _, hm, by omega, hb, rfl, rfl⟩)
        · rename_i hb
          unfold tryStlAllocate at hok
          split at hok
          · cases hok
          · rename_i b hstl
            obtain ⟨k, hk, hret⟩ := bind_ok hok
            cases hret
            exact .inr (.inr ⟨m, b, k, _, hm, by omega, hb, hstl, hk, rfl, rfl⟩)

/-- **Every way `Free` returns**: only the counter of the allocator it
gives the block to has changed. -/
theorem free_ok {h h' : Heap} {usableSize alignedMsize : Nat → Nat} {block : Nat}
    {freed : FreeCall}
    (hok : h.free usableSize alignedMsize block = .ok (h', freed)) :
    (freed = .none ∧ h' = h)
      ∨ (∃ n, freed = .stl block ∧ h' = { h with stlUsedSize := n })
      ∨ ∃ m n, freed = .mspace m block ∧ h' = { h with mspaceUsedSize := n } := by
  unfold free at hok
  split at hok
  · cases hok
    exact .inl ⟨rfl, rfl⟩
  · split at hok
    · obtain ⟨k, _, hret⟩ := bind_ok hok
      cases hret
      exact .inr (.inl ⟨_, rfl, rfl⟩)
    · split at hok
      · cases hok
      · rename_i m _
        cases hok
        exact .inr (.inr ⟨m, _, rfl, rfl⟩)

/-- A block outside the region goes back to `StlAllocator`. -/
theorem free_outside {h : Heap} {usableSize alignedMsize : Nat → Nat} {block : Nat}
    (hnull : block ≠ 0) (hregion : h.base + h.maxSize < 2 ^ 64)
    (hout : block < h.base ∨ h.base + h.maxSize ≤ block) (hsize : alignedMsize block ≠ 0) :
    ∃ n, n = subSize h.stlUsedSize (alignedMsize block)
      ∧ h.free usableSize alignedMsize block = .ok ({ h with stlUsedSize := n }, .stl block) := by
  refine ⟨_, rfl, ?_⟩
  rw [← addSize_of_lt hregion] at hout
  rw [free, if_neg hnull, if_pos hout, stlGetSize, if_neg hnull, if_neg hsize]
  rfl

/-- A block inside the region goes back to the current mspace. -/
theorem free_inside {h : Heap} {usableSize alignedMsize : Nat → Nat} {block m : Nat}
    (hnull : block ≠ 0) (hregion : h.base + h.maxSize < 2 ^ 64) (hlo : h.base ≤ block)
    (hhi : block < h.base + h.maxSize) (hm : h.mem = some m) :
    ∃ n, n = subSize h.mspaceUsedSize (usableSize block)
      ∧ h.free usableSize alignedMsize block
        = .ok ({ h with mspaceUsedSize := n }, .mspace m block) := by
  refine ⟨_, rfl, ?_⟩
  have hin : ¬ (block < h.base ∨ addSize h.base h.maxSize ≤ block) := by
    rw [addSize_of_lt hregion]
    omega
  rw [free, if_neg hnull, if_neg hin, hm]

end Heap

/-! ## The heap among its blocks -/

/-- A heap with the live blocks of its current mspace and the live blocks
it got from `StlAllocator`. -/
structure System where
  heap : Heap := {}
  mspace : List Block := []
  stl : List Block := []
  deriving DecidableEq

/-- A call on the heap. -/
inductive HeapCall where
  | initializeHeap (memory maxSize : Nat) (name : String) (isClearMemory isClearAllowed : Bool)
  | terminate
  | clear
  | allocate (size tag align : Nat)
  | free (block : Nat)
  deriving DecidableEq

/-- The size an allocator reports for an address. -/
def sizeAt (l : List Block) (p : Nat) : Nat := ((find l p).map (·.size)).getD 0

/-- The effect of one call. Destroying an mspace takes its blocks with it;
a new one starts empty. -/
def System.call (env : Allocators) (s : System) : HeapCall → Except Fault System
  | .initializeHeap memory maxSize name isClearMemory isClearAllowed => do
      let h ← s.heap.initializeHeap env memory maxSize name isClearMemory isClearAllowed
      .ok { s with heap := h, mspace := [] }
  | .terminate => do
      let h ← s.heap.terminate
      .ok { s with heap := h, mspace := [] }
  | .clear => do
      let h ← s.heap.clear env
      .ok { s with heap := h, mspace := [] }
  | .allocate size tag align => do
      let a ← s.heap.allocate env size tag align
      .ok { heap := a.heap
            mspace := a.mspaceBlock.toList ++ s.mspace
            stl := a.stlBlock.toList ++ s.stl }
  | .free block => do
      let (h, freed) ← s.heap.free (sizeAt s.mspace) (sizeAt s.stl) block
      match freed with
      | .none => .ok { s with heap := h }
      | .stl p => .ok { s with heap := h, stl := release s.stl p }
      | .mspace _ p => .ok { s with heap := h, mspace := release s.mspace p }

/-- `Free` is called with null or with a live block of this heap. -/
def System.Allowed (s : System) : HeapCall → Prop
  | .free block => block = 0 ∨ ∃ b ∈ s.mspace ++ s.stl, b.addr = block
  | _ => True

/-- What the allocators guarantee about the blocks of a state: they are
apart, non-null and in the address space, mspace blocks inside the region
`[m_base, m_base + m_maxSize)`, fallback blocks outside it. -/
structure System.Placed (s : System) : Prop where
  region : s.heap.base + s.heap.maxSize < 2 ^ 64
  apart : (s.mspace ++ s.stl).Pairwise Apart
  size_pos : ∀ b ∈ s.mspace ++ s.stl, 0 < b.size
  address_space : ∀ b ∈ s.mspace ++ s.stl, Within 1 (2 ^ 64) b
  inside : ∀ b ∈ s.mspace, Within s.heap.base (s.heap.base + s.heap.maxSize) b
  outside : ∀ b ∈ s.stl, b.stop ≤ s.heap.base ∨ s.heap.base + s.heap.maxSize ≤ b.addr

/-- The states a heap reaches from its construction by calls that satisfy
`ok`, the allocators keeping their word throughout. -/
inductive Reaches (ok : System → HeapCall → Prop) : System → Prop
  | start : Reaches ok {}
  | call {s s' : System} {c : HeapCall} (env : Allocators) : Reaches ok s → s.Allowed c →
      ok s c → s.call env c = .ok s' → s'.Placed → Reaches ok s'

theorem Reaches.placed {ok : System → HeapCall → Prop} {s : System} (h : Reaches ok s) :
    s.Placed := by
  cases h with
  | start =>
      constructor
      case region => decide
      case apart => exact List.Pairwise.nil
      all_goals simp
  | call _ _ _ _ _ hplaced => exact hplaced

end SkyEngine.Memory
