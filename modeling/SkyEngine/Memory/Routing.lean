import SkyEngine.Memory.Accounting

/-!
# Memory — Routing

`Free` decides from the address alone which allocator gets a block back.
Whole runs, `Terminate` and a second region included: what the allocators
promise is assumed of each answer they give, and that the address test is
right in every initialised state is an invariant.
-/

namespace SkyEngine.Memory

open Blocks

/-! ## What is assumed of each call -/

/-- A block no live block shares a byte with. -/
structure System.Fresh (s : System) (b : Block) : Prop where
  size_pos : 0 < b.size
  address_space : Within 1 (2 ^ 64) b
  apart : ∀ c ∈ s.mspace ++ s.stl, Apart b c

/-- The block has no byte in `[m_base, m_base + m_maxSize)`. -/
def System.OffRegion (s : System) (b : Block) : Prop :=
  b.stop ≤ s.heap.base ∨ s.heap.base + s.heap.maxSize ≤ b.addr

instance (s : System) (b : Block) : Decidable (s.OffRegion b) :=
  inferInstanceAs (Decidable (_ ∨ _))

/-- The allocators keep their word: what they hand out is fresh, inside the
region if it is a block of the mspace and off it if it is not. -/
structure Allocators.Sound (env : Allocators) (s : System) : Prop where
  mspaceMemalign : ∀ m align bytes b, s.heap.mem = some m →
    env.mspaceMemalign m align bytes = some b →
    s.Fresh b ∧ Within s.heap.base (s.heap.base + s.heap.maxSize) b
  alignedMalloc : ∀ size align b, s.heap.mem ≠ none →
    env.alignedMalloc size align = some b → s.Fresh b ∧ s.OffRegion b

/-- A region handed to `Initialize` is in the address space and holds no
byte of a live fallback block. -/
def System.Vacant (s : System) : HeapCall → Prop
  | .initializeHeap memory maxSize _ _ _ =>
      memory + maxSize < 2 ^ 64 ∧ ∀ b ∈ s.stl, b.stop ≤ memory ∨ memory + maxSize ≤ b.addr
  | _ => True

/-- The states a heap reaches from its construction by calls that satisfy
`ok`; the allocators may answer differently at every call. -/
inductive Run (ok : HeapCall → Prop) : System → Prop
  | start : Run ok {}
  | call {s s' : System} {c : HeapCall} (env : Allocators) : Run ok s → ok c → s.Allowed c →
      s.Vacant c → env.Sound s → s.call env c = .ok s' → Run ok s'

/-! ## The invariant -/

/-- Where the live blocks are: apart, those of the mspace inside the
region, the others off it for as long as there is one. -/
structure Housed (s : System) : Prop where
  apart : (s.mspace ++ s.stl).Pairwise Apart
  size_pos : ∀ b ∈ s.mspace ++ s.stl, 0 < b.size
  address_space : ∀ b ∈ s.mspace ++ s.stl, Within 1 (2 ^ 64) b
  no_mspace : s.heap.mem = none → s.mspace = [] ∧ s.heap.base = 0
  region : s.heap.mem ≠ none → s.heap.base + s.heap.maxSize < 2 ^ 64
  inside : ∀ b ∈ s.mspace, Within s.heap.base (s.heap.base + s.heap.maxSize) b
  off_region : s.heap.mem ≠ none → ∀ b ∈ s.stl, s.OffRegion b

theorem housed_start : Housed {} where
  apart := List.Pairwise.nil
  size_pos := by simp
  address_space := by simp
  no_mspace := fun _ => ⟨rfl, rfl⟩
  region := fun h => absurd rfl h
  inside := by simp
  off_region := by simp

/-- An initialised state satisfies what the accounting assumes of one. -/
theorem Housed.placed {s : System} (h : Housed s) (hm : s.heap.mem ≠ none) : s.Placed where
  region := h.region hm
  apart := h.apart
  size_pos := h.size_pos
  address_space := h.address_space
  inside := h.inside
  outside := h.off_region hm

section Steps

variable {env : Allocators} {s s' : System}

/-- A heap with an empty mspace keeps the fallback blocks it had. -/
theorem Housed.emptied (h : Housed s) {heap : Heap} (hbase : heap.mem = none → heap.base = 0)
    (hregion : heap.mem ≠ none → heap.base + heap.maxSize < 2 ^ 64)
    (hoff : heap.mem ≠ none → ∀ b ∈ s.stl,
      b.stop ≤ heap.base ∨ heap.base + heap.maxSize ≤ b.addr) :
    Housed { s with heap := heap, mspace := [] } where
  apart := (List.pairwise_append.mp h.apart).2.1
  size_pos := fun b hb => h.size_pos b (List.mem_append_right _ hb)
  address_space := fun b hb => h.address_space b (List.mem_append_right _ hb)
  no_mspace := fun hnone => ⟨rfl, hbase hnone⟩
  region := hregion
  inside := by simp
  off_region := hoff

theorem Housed.initializeHeap (h : Housed s) {memory maxSize : Nat} {name : String}
    {isClearMemory isClearAllowed : Bool}
    (hvacant : s.Vacant (.initializeHeap memory maxSize name isClearMemory isClearAllowed))
    (hcall : s.call env (.initializeHeap memory maxSize name isClearMemory isClearAllowed)
      = .ok s') : Housed s' := by
  obtain ⟨h', hinit, hs'⟩ := bind_ok hcall
  cases hs'
  obtain ⟨_, _, _, hbase, hmax, _, m, hm⟩ := Heap.initializeHeap_ok hinit
  apply h.emptied
  case hbase => exact fun hnone => absurd (hm.symm.trans hnone) (by simp)
  case hregion =>
    intro _
    rw [hbase, hmax]
    exact hvacant.1
  case hoff =>
    intro _ b hb
    rw [hbase, hmax]
    exact hvacant.2 b hb

theorem Housed.terminate (h : Housed s) (hcall : s.call env .terminate = .ok s') :
    Housed s' := by
  obtain ⟨h', hterm, hs'⟩ := bind_ok hcall
  cases hs'
  rw [Heap.terminate_ok hterm]
  apply h.emptied
  case hbase => exact fun _ => rfl
  case hregion => exact fun hm => absurd rfl hm
  case hoff => exact fun hm => absurd rfl hm

/-- Only an initialised heap has a base to clear. -/
theorem Housed.clear (h : Housed s) (hcall : s.call env .clear = .ok s') : Housed s' := by
  obtain ⟨h', hclear, hs'⟩ := bind_ok hcall
  have hmem : s.heap.mem ≠ none := by
    intro hnone
    have hbase := (h.no_mspace hnone).2
    unfold Heap.clear at hclear
    split at hclear
    · cases hclear
    · cases hclear
  cases hs'
  obtain ⟨m, rfl⟩ := Heap.clear_ok hclear
  apply h.emptied
  case hbase => exact fun hnone => absurd hnone (by simp)
  case hregion => exact fun _ => h.region hmem
  case hoff => exact fun _ => h.off_region hmem

/-- A fresh block joins the live ones. -/
theorem System.Fresh.pairwise_mspace {b : Block} (hb : s.Fresh b)
    (h : (s.mspace ++ s.stl).Pairwise Apart) : (b :: s.mspace ++ s.stl).Pairwise Apart :=
  List.pairwise_cons.mpr ⟨hb.apart, h⟩

theorem System.Fresh.pairwise_stl {b : Block} (hb : s.Fresh b)
    (h : (s.mspace ++ s.stl).Pairwise Apart) : (s.mspace ++ b :: s.stl).Pairwise Apart := by
  obtain ⟨hmspace, hstl, hcross⟩ := List.pairwise_append.mp h
  refine List.pairwise_append.mpr ⟨hmspace, ?_, ?_⟩
  · exact List.pairwise_cons.mpr ⟨fun c hc => hb.apart c (List.mem_append_right _ hc), hstl⟩
  · intro c hc d hd
    rcases List.mem_cons.mp hd with rfl | hd
    · exact (hb.apart c (List.mem_append_left _ hc)).symm
    · exact hcross c hc d hd

theorem Housed.allocate (h : Housed s) (hsound : env.Sound s) {size tag align : Nat}
    (hcall : s.call env (.allocate size tag align) = .ok s') : Housed s' := by
  obtain ⟨a, halloc, hs'⟩ := bind_ok hcall
  cases hs'
  rcases Heap.allocate_ok halloc with ⟨_, rfl⟩ | ⟨m, b, n, hm, _, hb, _, rfl⟩
    | ⟨m, b, k, n, hm, _, _, hb, _, _, rfl⟩
  · exact ⟨h.apart, h.size_pos, h.address_space, h.no_mspace, h.region, h.inside,
      h.off_region⟩
  · obtain ⟨hfresh, hin⟩ := hsound.mspaceMemalign m align _ b hm hb
    constructor
    case apart => exact hfresh.pairwise_mspace h.apart
    case size_pos => exact List.forall_mem_cons.mpr ⟨hfresh.size_pos, h.size_pos⟩
    case address_space =>
      exact List.forall_mem_cons.mpr ⟨hfresh.address_space, h.address_space⟩
    case no_mspace => exact fun hnone => absurd (hm.symm.trans hnone) (by simp)
    case region => exact h.region
    case inside => exact List.forall_mem_cons.mpr ⟨hin, h.inside⟩
    case off_region => exact h.off_region
  · have hmem : s.heap.mem ≠ none := by simp [hm]
    unfold stlAllocate at hb
    split at hb
    · cases hb
    · obtain ⟨hfresh, hoff⟩ := hsound.alignedMalloc size _ b hmem hb
      constructor
      case apart => exact hfresh.pairwise_stl h.apart
      case size_pos =>
        intro c hc
        rcases List.mem_append.mp hc with hc | hc
        · exact h.size_pos c (List.mem_append_left _ hc)
        · rcases List.mem_cons.mp hc with rfl | hc
          · exact hfresh.size_pos
          · exact h.size_pos c (List.mem_append_right _ hc)
      case address_space =>
        intro c hc
        rcases List.mem_append.mp hc with hc | hc
        · exact h.address_space c (List.mem_append_left _ hc)
        · rcases List.mem_cons.mp hc with rfl | hc
          · exact hfresh.address_space
          · exact h.address_space c (List.mem_append_right _ hc)
      case no_mspace => exact fun hnone => absurd (hm.symm.trans hnone) (by simp)
      case region => exact h.region
      case inside => exact h.inside
      case off_region => exact fun _ => List.forall_mem_cons.mpr ⟨hoff, h.off_region hmem⟩

/-- Fewer blocks under the same region. -/
theorem Housed.sublist (h : Housed s) (hmspace : s'.mspace.Sublist s.mspace)
    (hstl : s'.stl.Sublist s.stl) (hmem : s'.heap.mem = s.heap.mem)
    (hbase : s'.heap.base = s.heap.base) (hmax : s'.heap.maxSize = s.heap.maxSize) :
    Housed s' := by
  have hlive := hmspace.append hstl
  constructor
  case apart => exact h.apart.sublist hlive
  case size_pos => exact fun b hb => h.size_pos b (hlive.mem hb)
  case address_space => exact fun b hb => h.address_space b (hlive.mem hb)
  case no_mspace =>
    intro hnone
    obtain ⟨hnil, hzero⟩ := h.no_mspace (hmem ▸ hnone)
    rw [hnil] at hmspace
    exact ⟨List.sublist_nil.mp hmspace, hbase.trans hzero⟩
  case region =>
    rw [hmem, hbase, hmax]
    exact h.region
  case inside =>
    rw [hbase, hmax]
    exact fun b hb => h.inside b (hmspace.mem hb)
  case off_region =>
    unfold System.OffRegion
    rw [hmem, hbase, hmax]
    exact fun hm b hb => h.off_region hm b (hstl.mem hb)

theorem Housed.free (h : Housed s) {block : Nat}
    (hcall : s.call env (.free block) = .ok s') : Housed s' := by
  obtain ⟨⟨h', freed⟩, hfree, hret⟩ := bind_ok hcall
  rcases Heap.free_ok hfree with ⟨rfl, rfl⟩ | ⟨n, rfl, rfl⟩ | ⟨m, n, rfl, rfl⟩
  · cases hret
    exact h
  · cases hret
    exact h.sublist (List.Sublist.refl _) (release_sublist _ _) rfl rfl rfl
  · cases hret
    exact h.sublist (release_sublist _ _) (List.Sublist.refl _) rfl rfl rfl

/-- **One call** keeps every live block on its side of the region. -/
theorem Housed.call (h : Housed s) {c : HeapCall} (hvacant : s.Vacant c)
    (hsound : env.Sound s) (hcall : s.call env c = .ok s') : Housed s' := by
  cases c with
  | initializeHeap memory maxSize name isClearMemory isClearAllowed =>
      exact h.initializeHeap hvacant hcall
  | terminate => exact h.terminate hcall
  | clear => exact h.clear hcall
  | allocate size tag align => exact h.allocate hsound hcall
  | free block => exact h.free hcall

end Steps

/-! ## Runs -/

theorem Run.housed {ok : HeapCall → Prop} {s : System} (h : Run ok s) : Housed s := by
  induction h with
  | start => exact housed_start
  | call env _ _ _ hvacant hsound hcall ih => exact ih.call hvacant hsound hcall

/-- `Free` in a state with mspace `m`: a block goes back to the allocator it
came from, that allocator's counter is the only field to change, and the
block is the only one to leave the live ones. Null does nothing. -/
structure Routed (s : System) (m : Nat) : Prop where
  mspace : ∀ b ∈ s.mspace, ∃ n, n = subSize s.heap.mspaceUsedSize b.size
    ∧ s.heap.free (sizeAt s.mspace) (sizeAt s.stl) b.addr
      = .ok ({ s.heap with mspaceUsedSize := n }, .mspace m b.addr)
    ∧ ∀ env, s.call env (.free b.addr) = .ok { s with
        heap := { s.heap with mspaceUsedSize := n }, mspace := s.mspace.erase b }
  stl : ∀ b ∈ s.stl, ∃ n, n = subSize s.heap.stlUsedSize b.size
    ∧ s.heap.free (sizeAt s.mspace) (sizeAt s.stl) b.addr
      = .ok ({ s.heap with stlUsedSize := n }, .stl b.addr)
    ∧ ∀ env, s.call env (.free b.addr) = .ok { s with
        heap := { s.heap with stlUsedSize := n }, stl := s.stl.erase b }
  null : s.heap.free (sizeAt s.mspace) (sizeAt s.stl) 0 = .ok (s.heap, .none)
    ∧ ∀ env, s.call env (.free 0) = .ok s

/-- **Free routing**: in every run, across `Clear`, `Terminate` and a new
region, `Free` in an initialised state finds the right allocator. -/
theorem routed_of_run {s : System} {m : Nat} (h : Run (fun _ => True) s)
    (hm : s.heap.mem = some m) : Routed s m := by
  have hp := h.housed.placed (by simp [hm])
  constructor
  case mspace =>
    intro b hb
    obtain ⟨n, hn, hfree, hrel⟩ := hp.free_mspace hm hb
    refine ⟨n, hn, hfree, fun env => ?_⟩
    rw [← hrel, System.call, hfree]
    rfl
  case stl =>
    intro b hb
    obtain ⟨n, hn, hfree, hrel⟩ := hp.free_stl hb
    refine ⟨n, hn, hfree, fun env => ?_⟩
    rw [← hrel, System.call, hfree]
    rfl
  case null => exact ⟨rfl, fun env => rfl⟩

/-! ## At the sample -/

/-- Allocators that answer every request the same way. -/
def answering (mspaceBlock stlBlock : Option Block) : Allocators where
  createMspaceWithBase := sampleMspace
  mspaceMemalign _ _ _ := mspaceBlock
  alignedMalloc _ _ := stlBlock

theorem answering_sound {s : System} {mspaceBlock stlBlock : Option Block}
    (hmspace : ∀ b, mspaceBlock = some b →
      s.Fresh b ∧ Within s.heap.base (s.heap.base + s.heap.maxSize) b)
    (hstl : ∀ b, stlBlock = some b → s.Fresh b ∧ s.OffRegion b) :
    (answering mspaceBlock stlBlock).Sound s where
  mspaceMemalign _ _ _ b _ hb := hmspace b hb
  alignedMalloc _ _ b _ hb := hstl b hb

theorem answering_none_sound (s : System) : (answering none none).Sound s :=
  answering_sound (by simp) (by simp)

/-- The sample heap with its fallback block, allocators speaking up. -/
theorem run_fallback {ok : HeapCall → Prop}
    (hinit : ok (.initializeHeap 4096 1040 "Sample" true true))
    (halloc : ok (.allocate 112 0 16)) :
    Run ok { heap := sampleHeap true 112, stl := [⟨65536, 112⟩] } := by
  have hstart : Run ok { heap := sampleHeap false 0 } :=
    .call (c := .initializeHeap 4096 1040 "Sample" true true) (answering none none) .start
      hinit trivial ⟨by decide, by simp⟩ (answering_none_sound _) rfl
  have hsound : (answering none (some ⟨65536, 112⟩)).Sound { heap := sampleHeap false 0 } := by
    refine answering_sound (by simp) ?_
    rintro b hb
    cases hb
    exact ⟨⟨by decide, by decide, by simp⟩, by decide⟩
  exact .call (c := .allocate 112 0 16) (answering none (some ⟨65536, 112⟩)) hstart halloc
    trivial trivial hsound rfl

/-- The sample heap terminated and initialised again over `[8192, 10240)`,
with the first block of the new mspace and the fallback block of the old. -/
def movedHeap (used : Nat) : Heap where
  base := 8192
  maxSize := 2048
  mspaceUsedSize := used
  stlUsedSize := 112
  name := "Moved"
  clearMemory := false
  isMemExhausted := true
  mem := some 8208

theorem run_moved : Run (fun _ => True)
    { heap := movedHeap 56, mspace := [⟨9152, 56⟩], stl := [⟨65536, 112⟩] } := by
  have hterm : Run (fun _ => True)
      { heap := { sampleHeap true 112 with mem := none, base := 0 }, stl := [⟨65536, 112⟩] } :=
    .call (c := .terminate) (answering none none) (run_fallback trivial trivial) trivial
      trivial trivial (answering_none_sound _) rfl
  have hmoved : Run (fun _ => True) { heap := movedHeap 0, stl := [⟨65536, 112⟩] } :=
    .call (c := .initializeHeap 8192 2048 "Moved" false false) (answering none none) hterm
      trivial trivial ⟨by decide, by decide⟩ (answering_none_sound _) rfl
  have hsound : (answering (some ⟨9152, 56⟩) none).Sound
      { heap := movedHeap 0, stl := [⟨65536, 112⟩] } := by
    refine answering_sound ?_ (by simp)
    rintro b hb
    cases hb
    exact ⟨⟨by decide, by decide, by decide⟩, by decide⟩
  exact .call (c := .allocate 40 0 16) (answering (some ⟨9152, 56⟩) none) hmoved trivial
    trivial trivial hsound rfl

theorem routed_of_run_moved :
    Routed { heap := movedHeap 56, mspace := [⟨9152, 56⟩], stl := [⟨65536, 112⟩] } 8208 :=
  routed_of_run run_moved rfl

end SkyEngine.Memory
