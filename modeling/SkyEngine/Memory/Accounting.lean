import SkyEngine.Memory.Heap

/-!
# Memory — Accounting

`m_mspaceUsedSize` and `m_stlUsedSize` against the blocks they count. The
counters are exact in 64 bits because live blocks are apart. Two calls
break them: `Terminate` keeps the mspace counter although the blocks go
with the mspace, and `Clear` zeroes the fallback counter although fallback
blocks survive it.
-/

namespace SkyEngine.Memory

open Blocks

/-- The counters are the true totals, and so is `GetUsedBytes(false)`. -/
structure Accounted (s : System) : Prop where
  mspace : s.heap.mspaceUsedSize = total s.mspace
  stl : s.heap.stlUsedSize = total s.stl
  used : ∀ uordblks, ∃ h, s.heap.getUsedBytes false uordblks
    = .ok (total s.mspace + total s.stl, h)

/-- The call leaves no counter behind: `Terminate` finds no live mspace
block, `Clear` no live fallback block. -/
def CountersSettled (s : System) : HeapCall → Prop
  | .terminate => s.mspace = []
  | .clear => s.stl = []
  | _ => True

/-- The invariant of a run: the counters, and no block without an mspace. -/
structure Ledger (s : System) : Prop where
  mspace : s.heap.mspaceUsedSize = total s.mspace
  stl : s.heap.stlUsedSize = total s.stl
  no_mspace : s.heap.mem = none → s.mspace = []

/-- All live blocks together fit into 64 bits. -/
theorem System.Placed.total_lt {s : System} (h : s.Placed) :
    total s.mspace + total s.stl < 2 ^ 64 := by
  have hle := total_le_of_within h.address_space h.apart
  rw [total_append] at hle
  omega

theorem Ledger.accounted {s : System} (h : Ledger s) (hp : s.Placed) : Accounted s where
  mspace := h.mspace
  stl := h.stl
  used := by
    intro uordblks
    have hlt := hp.total_lt
    have hsum : addSize s.heap.stlUsedSize s.heap.mspaceUsedSize
        = total s.mspace + total s.stl := by
      rw [h.mspace, h.stl, addSize_of_lt (by omega)]
      omega
    exact ⟨_, by rw [Heap.getUsedBytes, hsum]; rfl⟩

/-! ## One call -/

section Steps

variable {env : Allocators} {s s' : System}

theorem Ledger.initializeHeap (h : Ledger s) {memory maxSize : Nat} {name : String}
    {isClearMemory isClearAllowed : Bool}
    (hcall : s.call env (.initializeHeap memory maxSize name isClearMemory isClearAllowed)
      = .ok s') : Ledger s' := by
  obtain ⟨h', hinit, hs'⟩ := bind_ok hcall
  cases hs'
  obtain ⟨hnone, hms, hstl, _⟩ := Heap.initializeHeap_ok hinit
  constructor
  case mspace =>
    -- the heap was not initialised, so nothing of an mspace was live
    show h'.mspaceUsedSize = 0
    rw [hms, h.mspace, h.no_mspace hnone]
    rfl
  case stl => exact hstl.trans h.stl
  case no_mspace => exact fun _ => rfl

theorem Ledger.terminate (h : Ledger s) (hsettled : s.mspace = [])
    (hcall : s.call env .terminate = .ok s') : Ledger s' := by
  obtain ⟨h', hterm, hs'⟩ := bind_ok hcall
  cases hs'
  rw [Heap.terminate_ok hterm]
  constructor
  case mspace =>
    show s.heap.mspaceUsedSize = 0
    rw [h.mspace, hsettled]
    rfl
  case stl => exact h.stl
  case no_mspace => exact fun _ => rfl

theorem Ledger.clear (hsettled : s.stl = []) (hcall : s.call env .clear = .ok s') :
    Ledger s' := by
  obtain ⟨h', hclear, hs'⟩ := bind_ok hcall
  cases hs'
  obtain ⟨m, rfl⟩ := Heap.clear_ok hclear
  constructor
  case mspace => rfl
  case stl =>
    show 0 = total s.stl
    rw [hsettled]
    rfl
  case no_mspace => exact fun _ => rfl

theorem Ledger.allocate (h : Ledger s) (hp' : s'.Placed) {size tag align : Nat}
    (hcall : s.call env (.allocate size tag align) = .ok s') : Ledger s' := by
  obtain ⟨a, halloc, hs'⟩ := bind_ok hcall
  have hlt := hp'.total_lt
  have hspace := hp'.address_space
  cases hs'
  rcases Heap.allocate_ok halloc with ⟨_, rfl⟩ | ⟨m, b, n, hm, _, _, hn, rfl⟩
    | ⟨m, b, k, n, hm, _, _, _, hk, hn, rfl⟩
  · exact ⟨h.mspace, h.stl, h.no_mspace⟩
  · have hlt' : total (b :: s.mspace) + total s.stl < 2 ^ 64 := hlt
    rw [total_cons] at hlt'
    constructor
    case mspace =>
      show n = total (b :: s.mspace)
      rw [hn, h.mspace, addSize_of_lt (by omega), total_cons]
      omega
    case stl => exact h.stl
    case no_mspace => exact fun hnone => absurd (hm.symm.trans hnone) (by simp)
  · have hlt' : total s.mspace + total (b :: s.stl) < 2 ^ 64 := hlt
    rw [total_cons] at hlt'
    -- nothing lives at address 0, so the size read is the block's
    have hnull : b.addr ≠ 0 := by
      have hb := (hspace b (by simp)).1
      omega
    rw [stlGetSize, if_neg hnull] at hk
    split at hk
    · cases hk
    · cases hk
      constructor
      case mspace => exact h.mspace
      case stl =>
        show n = total (b :: s.stl)
        rw [hn, h.stl, addSize_of_lt (by omega), total_cons]
        omega
      case no_mspace => exact fun hnone => absurd (hm.symm.trans hnone) (by simp)

/-- The size reported for a live block, and the ledger without it. -/
theorem sizeAt_of_mem {l : List Block} (hapart : l.Pairwise Apart)
    (hpos : ∀ b ∈ l, 0 < b.size) {b : Block} (hb : b ∈ l) :
    sizeAt l b.addr = b.size ∧ release l b.addr = l.erase b := by
  refine ⟨?_, release_of_mem hapart hpos hb⟩
  rw [sizeAt, find_of_mem hapart hpos hb]
  rfl

/-- `Free` of a live mspace block goes to the current mspace. -/
theorem System.Placed.free_mspace (hp : s.Placed) {m : Nat} (hm : s.heap.mem = some m)
    {b : Block} (hb : b ∈ s.mspace) :
    ∃ n, n = subSize s.heap.mspaceUsedSize b.size
      ∧ s.heap.free (sizeAt s.mspace) (sizeAt s.stl) b.addr
        = .ok ({ s.heap with mspaceUsedSize := n }, .mspace m b.addr)
      ∧ release s.mspace b.addr = s.mspace.erase b := by
  have hspace := (hp.address_space b (List.mem_append_left _ hb)).1
  have hpos := hp.size_pos b (List.mem_append_left _ hb)
  have hnull : b.addr ≠ 0 := by omega
  obtain ⟨hlo, hhi⟩ := hp.inside b hb
  have hstop : b.addr < s.heap.base + s.heap.maxSize := by
    unfold Block.stop at hhi
    omega
  obtain ⟨hsize, hrel⟩ := sizeAt_of_mem (List.pairwise_append.mp hp.apart).1
    (fun c hc => hp.size_pos c (List.mem_append_left _ hc)) hb
  have hinside := @Heap.free_inside s.heap (sizeAt s.mspace) (sizeAt s.stl) b.addr m
  obtain ⟨n, hn, hfree⟩ := hinside hnull hp.region hlo hstop hm
  rw [hsize] at hn
  exact ⟨n, hn, hfree, hrel⟩

/-- `Free` of a live fallback block goes to `StlAllocator`. -/
theorem System.Placed.free_stl (hp : s.Placed) {b : Block} (hb : b ∈ s.stl) :
    ∃ n, n = subSize s.heap.stlUsedSize b.size
      ∧ s.heap.free (sizeAt s.mspace) (sizeAt s.stl) b.addr
        = .ok ({ s.heap with stlUsedSize := n }, .stl b.addr)
      ∧ release s.stl b.addr = s.stl.erase b := by
  have hspace := (hp.address_space b (List.mem_append_right _ hb)).1
  have hpos := hp.size_pos b (List.mem_append_right _ hb)
  have hnull : b.addr ≠ 0 := by omega
  have hout : b.addr < s.heap.base ∨ s.heap.base + s.heap.maxSize ≤ b.addr := by
    have hstop := hp.outside b hb
    unfold Block.stop at hstop
    omega
  obtain ⟨hsize, hrel⟩ := sizeAt_of_mem (List.pairwise_append.mp hp.apart).2.1
    (fun c hc => hp.size_pos c (List.mem_append_right _ hc)) hb
  have hreported : sizeAt s.stl b.addr ≠ 0 := by omega
  have houtside := @Heap.free_outside s.heap (sizeAt s.mspace) (sizeAt s.stl) b.addr
  obtain ⟨n, hn, hfree⟩ := houtside hnull hp.region hout hreported
  rw [hsize] at hn
  exact ⟨n, hn, hfree, hrel⟩

/-- Giving a live mspace block back. -/
theorem Ledger.free_mspace (h : Ledger s) (hp : s.Placed) {b : Block} (hb : b ∈ s.mspace)
    (hcall : s.call env (.free b.addr) = .ok s') : Ledger s' := by
  have hlt := hp.total_lt
  have hle := total_erase hb
  cases hm : s.heap.mem with
  | none =>
      rw [h.no_mspace hm] at hb
      cases hb
  | some m =>
      obtain ⟨n, hn, hfree, hrel⟩ := hp.free_mspace hm hb
      rw [System.call, hfree] at hcall
      cases hcall
      constructor
      case mspace =>
        show n = total (release s.mspace b.addr)
        rw [hn, h.mspace, hrel, subSize_of_le (by omega) (by omega)]
        omega
      case stl => exact h.stl
      case no_mspace => exact fun hnone => absurd (hm.symm.trans hnone) (by simp)

/-- Giving a live fallback block back. -/
theorem Ledger.free_stl (h : Ledger s) (hp : s.Placed) {b : Block} (hb : b ∈ s.stl)
    (hcall : s.call env (.free b.addr) = .ok s') : Ledger s' := by
  have hlt := hp.total_lt
  have hle := total_erase hb
  obtain ⟨n, hn, hfree, hrel⟩ := hp.free_stl hb
  rw [System.call, hfree] at hcall
  cases hcall
  constructor
  case mspace => exact h.mspace
  case stl =>
    show n = total (release s.stl b.addr)
    rw [hn, h.stl, hrel, subSize_of_le (by omega) (by omega)]
    omega
  case no_mspace => exact h.no_mspace

theorem Ledger.free (h : Ledger s) (hp : s.Placed) {block : Nat}
    (hallowed : s.Allowed (.free block)) (hcall : s.call env (.free block) = .ok s') :
    Ledger s' := by
  rcases hallowed with rfl | ⟨b, hb, rfl⟩
  · cases hcall
    exact ⟨h.mspace, h.stl, h.no_mspace⟩
  · rcases List.mem_append.mp hb with hb | hb
    · exact h.free_mspace hp hb hcall
    · exact h.free_stl hp hb hcall

/-- **One call** that settles its counters keeps the ledger. -/
theorem Ledger.call (h : Ledger s) (hp : s.Placed) (hp' : s'.Placed) {c : HeapCall}
    (hallowed : s.Allowed c) (hsettled : CountersSettled s c)
    (hcall : s.call env c = .ok s') : Ledger s' := by
  cases c with
  | initializeHeap memory maxSize name isClearMemory isClearAllowed =>
      exact h.initializeHeap hcall
  | terminate => exact h.terminate hsettled hcall
  | clear => exact Ledger.clear hsettled hcall
  | allocate size tag align => exact h.allocate hp' hcall
  | free block => exact h.free hp hallowed hcall

end Steps

/-! ## Runs -/

theorem Reaches.ledger {s : System} (h : Reaches CountersSettled s) : Ledger s := by
  induction h with
  | start => exact ⟨rfl, rfl, fun _ => rfl⟩
  | call env hreach hallowed hsettled hcall hp' ih =>
      exact ih.call hreach.placed hp' hallowed hsettled hcall

/-- **Heap accounting**: in every run in which `Terminate` is only called
without live mspace blocks and `Clear` only without live fallback blocks,
the counters are exact in every state. -/
theorem accounted_of_reaches {s : System} (h : Reaches CountersSettled s) : Accounted s :=
  h.ledger.accounted h.placed

theorem total_pos {l : List Block} (hpos : ∀ b ∈ l, 0 < b.size) (hl : l ≠ []) :
    0 < total l := by
  cases l with
  | nil => exact absurd rfl hl
  | cons b rest =>
      have hb := hpos b (by simp)
      rw [total_cons]
      omega

/-- The condition is sharp: the first call that leaves a counter behind
makes it wrong at once. -/
theorem not_accounted_of_unsettled {env : Allocators} {s s' : System} {c : HeapCall}
    (h : Reaches CountersSettled s) (hc : ¬ CountersSettled s c)
    (hcall : s.call env c = .ok s') : ¬ Accounted s' := by
  intro hacc
  have hledger := h.ledger
  have hpos := h.placed.size_pos
  cases c with
  | terminate =>
      obtain ⟨h', hterm, hs'⟩ := bind_ok hcall
      cases hs'
      rw [Heap.terminate_ok hterm] at hacc
      have hkept : s.heap.mspaceUsedSize = 0 := hacc.mspace
      have hlive := total_pos (fun b hb => hpos b (List.mem_append_left _ hb)) hc
      rw [hledger.mspace] at hkept
      omega
  | clear =>
      obtain ⟨h', hclear, hs'⟩ := bind_ok hcall
      cases hs'
      obtain ⟨m, rfl⟩ := Heap.clear_ok hclear
      have hzero : 0 = total s.stl := hacc.stl
      have hlive := total_pos (fun b hb => hpos b (List.mem_append_right _ hb)) hc
      omega
  | initializeHeap memory maxSize name isClearMemory isClearAllowed => exact hc trivial
  | allocate size tag align => exact hc trivial
  | free block => exact hc trivial

/-! ## At the sample -/

/-- What `create_mspace_with_base` answers: its state takes 1024 bytes with
what is kept at the end, and the handle is past the header of its chunk. -/
def sampleMspace (base capacity : Nat) : Option Nat :=
  if 1024 < capacity then some (base + 16) else none

/-- The allocators of a heap over 1040 bytes: the top of the mspace is 16
bytes, less than any chunk. -/
def fullMspace : Allocators where
  createMspaceWithBase := sampleMspace
  mspaceMemalign _ _ _ := none
  alignedMalloc size _ := some ⟨65536, size⟩

/-- A heap over `[4096, 5136)` that has fallen back, or not yet. -/
def sampleHeap (isMemExhausted : Bool) (used : Nat) : Heap where
  base := 4096
  maxSize := 1040
  stlUsedSize := used
  name := "Sample"
  isMemExhausted := isMemExhausted
  isClearAllowed := true
  mem := some 4112

theorem sampleHeap_placed (isMemExhausted : Bool) (used : Nat) :
    System.Placed { heap := sampleHeap isMemExhausted used } := by
  constructor
  case region => simp [sampleHeap]
  case apart => exact List.Pairwise.nil
  all_goals simp

theorem sampleHeap_placed_fallback (used : Nat) :
    System.Placed { heap := sampleHeap true used, stl := [⟨65536, 112⟩] } := by
  constructor
  case region => simp [sampleHeap]
  case apart => exact List.pairwise_singleton _ _
  case inside => simp
  case size_pos => simp
  case address_space => simp [Within, Block.stop]
  case outside => simp [Block.stop, sampleHeap]

/-- The sample heap with one fallback block of 112 bytes. -/
theorem reaches_fallback {ok : System → HeapCall → Prop}
    (hinit : ok {} (.initializeHeap 4096 1040 "Sample" true true))
    (halloc : ok { heap := sampleHeap false 0 } (.allocate 112 0 16)) :
    Reaches ok { heap := sampleHeap true 112, stl := [⟨65536, 112⟩] } := by
  have hstart : Reaches ok { heap := sampleHeap false 0 } :=
    .call (c := .initializeHeap 4096 1040 "Sample" true true) fullMspace .start trivial
      hinit rfl (sampleHeap_placed false 0)
  exact .call (c := .allocate 112 0 16) fullMspace hstart trivial halloc rfl
    (sampleHeap_placed_fallback 112)

theorem accounted_of_reaches_sample :
    Accounted { heap := sampleHeap true 112, stl := [⟨65536, 112⟩] } :=
  accounted_of_reaches (reaches_fallback trivial trivial)

/-- A fallback block survives `Clear`, its bytes do not: freeing it wraps
the counter. -/
theorem fallback_block_survives_clear :
    ∃ s, Reaches (fun _ _ => True) s ∧ s.heap.stlUsedSize = 2 ^ 64 - 112 ∧ ¬ Accounted s := by
  have hcleared : Reaches (fun _ _ => True)
      { heap := sampleHeap true 0, stl := [⟨65536, 112⟩] } :=
    .call (c := .clear) fullMspace (reaches_fallback trivial trivial) trivial trivial rfl
      (sampleHeap_placed_fallback 0)
  have hfreed : Reaches (fun _ _ => True) { heap := sampleHeap true (2 ^ 64 - 112) } :=
    .call (c := .free 65536) fullMspace hcleared (.inr ⟨⟨65536, 112⟩, by simp, rfl⟩) trivial
      rfl (sampleHeap_placed true _)
  refine ⟨_, hfreed, rfl, ?_⟩
  intro hacc
  have hstl : 2 ^ 64 - 112 = 0 := hacc.stl
  omega

end SkyEngine.Memory
