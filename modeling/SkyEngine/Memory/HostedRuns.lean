import SkyEngine.Memory.HeapMspace

/-!
# Memory — HostedRuns

Whole runs of the heap on its mspace. They are runs of the heap with assumed
allocators, so whatever holds of those holds of these; and what those had to
assume is known here: which requests the mspace serves, that tags stay, and
what `mspace_mallinfo` reports.
-/

namespace SkyEngine.Memory

open Blocks

/-! ## Runs -/

section Runs

variable {pr : Mspace.Mparams} {ok : HeapCall → Prop} {s : Hosted}

/-- **Runs on the real mspace** are runs of the heap with allocators that
keep their word. -/
theorem HostedRun.run (hv : pr.Valid) (h : HostedRun pr ok s) : Run ok s.sys ∧ s.Backed pr := by
  induction h with
  | start => exact ⟨.start, fun _ => rfl, fun hmem => absurd rfl hmem⟩
  | call w runtime _ hc hallowed hvacant hin hruntime hcall ih =>
      obtain ⟨hrun, hb⟩ := ih
      obtain ⟨_, _, hsys, _⟩ := Hosted.call_ok hcall
      refine ⟨.call _ hrun hc hallowed hvacant (hb.sound hrun.housed hruntime) hsys, ?_⟩
      exact hb.call hv hrun.housed hallowed hvacant hin hcall
  | write v _ hm ha ih => exact ⟨ih.1, ih.2.write hm ha v⟩
  | allocator _ hm hw ih => exact ⟨ih.1, ih.2.allocator hm hw⟩

/-- **The heap on its mspace**: every state it reaches is one it reaches with
allocators that keep their word; no check of dlmalloc's stops a call, which
does what it does with those allocators; the sizes the heap counted its
blocks with are those dlmalloc reports. -/
theorem refines_of_hosted_run (hv : pr.Valid) (h : HostedRun pr ok s) : Run ok s.sys
    ∧ (∀ c w runtime, s.sys.Allowed c → Hosted.InRange pr c → RuntimeSound runtime s.sys →
      (s.allocators pr w runtime).Sound s.sys
        ∧ (s.call pr w runtime c).map (·.sys)
          = (s.sys.call (s.allocators pr w runtime) c).mapError Stop.fault)
    ∧ ∀ m, s.m = some m → ∀ b ∈ s.sys.mspace, Mspace.mspaceUsableSize m b.addr = b.size := by
  obtain ⟨hrun, hb⟩ := h.run hv
  refine ⟨hrun, fun c w runtime hallowed hin hruntime => ⟨hb.sound hrun.housed hruntime, ?_⟩, ?_⟩
  · obtain ⟨m, hm⟩ := hb.effect_ok (w := w) hrun.housed hallowed hin
    rw [Hosted.call, hm]
    cases s.sys.call (s.allocators pr w runtime) c with
    | error f => rfl
    | ok sys => rfl
  · intro m hm b hlive
    obtain ⟨_, hk⟩ := hb.kept hm
    exact hk.tenanted.safe.usable b hlive

/-- **Tags stay** where `Allocate` wrote them, in dlmalloc's memory: whatever
is allocated, freed and written, up to its last word, around a block. -/
theorem tags_of_hosted_run (hv : pr.Valid) (h : HostedRun pr ok s) {m : Mspace.Mstate}
    (hm : s.m = some m) :
    ∀ b ∈ s.sys.mspace, s.tags.lookup b = some (m.mem (b.stop - 8)) := by
  obtain ⟨_, hk⟩ := (h.run hv).2.kept hm
  exact hk.stamped

/-- **The fallback is for exhausted mspaces**: `Allocate` returns a block of
the mspace that is as large and as aligned as asked, with room for the tag,
and says nothing of exhausted memory, exactly as long as a free chunk, or the
top, has room for the request wherever it may have to start. -/
theorem allocate_of_hosted_run (hv : pr.Valid) (h : HostedRun pr ok s) {m : Mspace.Mstate}
    (hm : s.m = some m) {cs : List Mspace.Chunk} (hcs : m.Chunks s.sys.heap.base cs)
    {size align : Nat} (hzero : size ≠ 0) (hlt : size < s.sys.heap.maxSize)
    (hal : align ≤ 2 ^ 63) (tag : Nat) (w : Mspace.Words)
    (runtime : Nat → Nat → Option Block) :
    (¬ Mspace.NoRoom m cs align (size + 8) →
        ∃ s' b k, s.call pr w runtime (.allocate size tag align) = .ok s'
          ∧ s'.sys.mspace = b :: s.sys.mspace ∧ s'.sys.stl = s.sys.stl
          ∧ s'.sys.heap.isMemExhausted = s.sys.heap.isMemExhausted
          ∧ size + 8 ≤ b.size ∧ align ≤ 2 ^ k ∧ b.addr % 2 ^ k = 0)
      ∧ (Mspace.NoRoom m cs align (size + 8) →
        (∀ b, runtime size (max align 16) = some b → s.sys.Fresh b →
          ∃ s', s.call pr w runtime (.allocate size tag align) = .ok s'
            ∧ s'.m = s.m ∧ s'.sys.mspace = s.sys.mspace ∧ s'.sys.stl = b :: s.sys.stl
            ∧ s'.sys.heap.isMemExhausted = true)
        ∧ (runtime size (max align 16) = none →
          s.call pr w runtime (.allocate size tag align) = .error (.fault .assertion))) := by
  obtain ⟨hinit, hk⟩ := (h.run hv).2.kept hm
  obtain ⟨handle, hmem⟩ := Option.ne_none_iff_exists'.mp hinit
  have hmax := hk.region.capacity_aligned
  have hbase := hk.region.base_pos
  have hfits := hk.region.fits
  have hadd : addSize size 8 = size + 8 := addSize_of_lt (by omega)
  obtain ⟨hinv, hheld⟩ := hk.tenanted.books_of_chunks hcs
  rcases Mspace.mspaceMemalign_spec hv hk.tenanted.capped hinv hal (size + 8)
    with ⟨hroom, p, m', hok, hreq, ⟨k, _, hle, haligned⟩, hserved⟩ | ⟨hfull, hok⟩
  · refine ⟨fun _ => ?_, fun hfull => absurd hfull hroom⟩
    obtain ⟨_, hans⟩ := hk.tenanted.answer hheld hreq hserved ⟨k, hle, haligned⟩
    obtain ⟨b, hb⟩ : ∃ b : Block,
        b = ⟨Mspace.chunk2mem p, Mspace.mspaceUsableSize m' (Mspace.chunk2mem p)⟩ := ⟨_, rfl⟩
    have hgrant : Mspace.Space.grant ⟨m, s.sys.mspace⟩ (some (Mspace.chunk2mem p), m')
        = ⟨m', b :: s.sys.mspace⟩ := by
      rw [hb]
      rfl
    rw [hgrant] at hans
    rw [← hadd] at hok
    obtain ⟨s', k, hserve⟩ := Hosted.served hm hmem hzero hlt hal hok hans hb w runtime
    exact ⟨s', b, k, hserve⟩
  · rw [← hadd] at hok
    exact ⟨fun hroom => absurd hfull hroom,
      fun _ => Hosted.refused hm hmem hzero hlt hok tag w runtime⟩

/-- What the mspace reports as allocated: its blocks, eight bytes more for
each, and the 944 of its own state. -/
theorem Hosted.Backed.mallinfo (hb : s.Backed pr) {m : Mspace.Mstate} (hm : s.m = some m) :
    ∃ i, Mspace.mspaceMallinfo m = .ok i
      ∧ i.uordblks = total s.sys.mspace + 8 * s.sys.mspace.length + 944 := by
  obtain ⟨_, hk⟩ := hb.kept hm
  obtain ⟨i, hok, _, _, hused, _⟩ := hk.tenanted.mallinfo hk.region
  have hused : i.uordblks = 944 + total s.sys.mspace + 8 * s.sys.mspace.length := hused
  exact ⟨i, hok, by omega⟩

/-- **`GetUsedBytes(true)`** over dlmalloc: it reports what the counter says,
eight bytes more for each block, and the 944 of the mspace's own state. It
covers `GetUsedBytes(false)` as long as the fallback blocks are not larger
than that. -/
theorem refresh_of_hosted_run (hv : pr.Valid) (h : HostedRun pr NoReset s) {m : Mspace.Mstate}
    (hm : s.m = some m) : ∃ i, Mspace.mspaceMallinfo m = .ok i
      ∧ i.uordblks = s.sys.heap.mspaceUsedSize + 8 * s.sys.mspace.length + 944
      ∧ (s.sys.RefreshCovers i.uordblks ↔ total s.sys.stl ≤ 8 * s.sys.mspace.length + 944) := by
  obtain ⟨hrun, hb⟩ := h.run hv
  obtain ⟨hinit, _⟩ := hb.kept hm
  obtain ⟨handle, hmem⟩ := Option.ne_none_iff_exists'.mp hinit
  obtain ⟨i, hok, hused⟩ := hb.mallinfo hm
  refine ⟨i, hok, ?_, ?_⟩
  · rw [hrun.ledger.2.mspace, hused]
  · rw [refreshCovers_iff hrun hmem, hused]
    omega

/-- **The refreshed figure covers the cached one** exactly while the live
fallback blocks fit into what the mspace reports beside its blocks. -/
theorem refreshCovers_iff_of_hosted_run (hv : pr.Valid) (h : HostedRun pr NoReset s)
    {m : Mspace.Mstate} (hm : s.m = some m) :
    (∃ i, Mspace.mspaceMallinfo m = .ok i ∧ s.sys.RefreshCovers i.uordblks)
      ↔ total s.sys.stl ≤ 8 * s.sys.mspace.length + 944 := by
  obtain ⟨hrun, hb⟩ := h.run hv
  obtain ⟨hinit, _⟩ := hb.kept hm
  obtain ⟨handle, hmem⟩ := Option.ne_none_iff_exists'.mp hinit
  obtain ⟨i, hok, hused⟩ := hb.mallinfo hm
  have hcovers := refreshCovers_iff hrun hmem i.uordblks
  constructor
  · rintro ⟨i', hok', hc⟩
    cases hok.symm.trans hok'
    have hle := hcovers.mp hc
    omega
  · intro hle
    exact ⟨i, hok, hcovers.mpr (by omega)⟩

end Runs

/-! ## At the sample -/

/-- A C runtime that has no memory. -/
def noRuntime (_ _ : Nat) : Option Block := none

theorem noRuntime_sound (s : System) : RuntimeSound noRuntime s :=
  fun _ _ _ _ hans => absurd hans (by simp [noRuntime])

/-- A C runtime with one block, of `n` bytes at 65536. -/
def oneBlock (n size _align : Nat) : Option Block := if size = n then some ⟨65536, n⟩ else none

/-- A call of the sample. -/
def sampleCall (runtime : Nat → Nat → Option Block) (s : Hosted) (c : HeapCall) :
    Option Hosted :=
  (s.call {} (fun _ => 0) runtime c).toOption

theorem sampleCall_run {ok : HeapCall → Prop} {runtime : Nat → Nat → Option Block}
    {s s' : Hosted} {c : HeapCall} (h : HostedRun {} ok s) (hc : ok c)
    (hallowed : s.sys.Allowed c) (hvacant : s.sys.Vacant c) (hin : Hosted.InRange {} c)
    (hruntime : RuntimeSound runtime s.sys) (hcall : sampleCall runtime s c = some s') :
    HostedRun {} ok s' := by
  have hok : s.call {} (fun _ => 0) runtime c = .ok s' := by
    unfold sampleCall at hcall
    cases hres : s.call {} (fun _ => 0) runtime c with
    | error e =>
        rw [hres] at hcall
        cases hcall
    | ok s'' =>
        rw [hres] at hcall
        cases hcall
        rfl
  exact .call _ _ h hc hallowed hvacant hin hruntime hok

/-- A heap over 60 kB from address 4096, with a block for 100 bytes. -/
def sampleHosted : System where
  heap := { sampleHeap false 0 with maxSize := 61440, mspaceUsedSize := 120, mem := some 4112 }
  mspace := [⟨5056, 120⟩]

theorem sampleHosted_run {ok : HeapCall → Prop}
    (hinit : ok (.initializeHeap 4096 61440 "Sample" true true))
    (halloc : ok (.allocate 100 7 64)) :
    ∃ s m, HostedRun {} ok s ∧ s.m = some m ∧ s.sys = sampleHosted ∧ m.topsize = 60288 := by
  have hsys : (((sampleCall noRuntime {} (.initializeHeap 4096 61440 "Sample" true true)).bind
      fun s => sampleCall noRuntime s (.allocate 100 7 64)).map
        fun s => (s.sys, s.m.map (·.topsize))) = some (sampleHosted, some 60288) := by
    decide
  obtain ⟨s₂, hboth, hs⟩ := Option.map_eq_some_iff.mp hsys
  obtain ⟨hs₂, htop⟩ := Prod.mk.inj hs
  obtain ⟨s₁, h₁, h₂⟩ := Option.bind_eq_some_iff.mp hboth
  have hrun₁ : HostedRun {} ok s₁ :=
    sampleCall_run .start hinit trivial ⟨by decide, by simp⟩
      (by decide : 61440 + 65536 < 2 ^ 64) (noRuntime_sound _) h₁
  have hrun₂ : HostedRun {} ok s₂ :=
    sampleCall_run hrun₁ halloc trivial trivial (by decide : 64 ≤ 2 ^ 63) (noRuntime_sound _) h₂
  have hinit₂ : s₂.sys.heap.mem ≠ none := by
    rw [hs₂]
    decide
  obtain ⟨m, hm, _⟩ := (hrun₂.run Mspace.sampleRegion.params).2.opened hinit₂
  rw [hm] at htop
  exact ⟨s₂, m, hrun₂, hm, hs₂, Option.some.inj htop⟩

theorem refines_of_hosted_run_sample : ∃ s : Hosted, s.sys = sampleHosted
    ∧ Run (fun _ => True) s.sys
    ∧ (s.call {} (fun _ => 0) noRuntime (.free 5056)).map (·.sys)
      = (s.sys.call (s.allocators {} (fun _ => 0) noRuntime) (.free 5056)).mapError Stop.fault := by
  obtain ⟨s, m, h, _, hs, _⟩ := @sampleHosted_run (fun _ => True) trivial trivial
  obtain ⟨hrun, hcalls, _⟩ := refines_of_hosted_run Mspace.sampleRegion.params h
  have hallowed : s.sys.Allowed (.free 5056) := by
    rw [hs]
    exact .inr ⟨⟨5056, 120⟩, by decide, rfl⟩
  exact ⟨s, hs, hrun, (hcalls _ (fun _ => 0) noRuntime hallowed trivial (noRuntime_sound _)).2⟩

theorem tags_of_hosted_run_sample : ∃ s m, HostedRun {} (fun _ => True) s ∧ s.m = some m
    ∧ s.sys.mspace = [⟨5056, 120⟩] ∧ s.tags.lookup ⟨5056, 120⟩ = some (m.mem 5168) := by
  obtain ⟨s, m, h, hm, hs, _⟩ := @sampleHosted_run (fun _ => True) trivial trivial
  have hlive : s.sys.mspace = [⟨5056, 120⟩] := by rw [hs]; rfl
  refine ⟨s, m, h, hm, hlive, ?_⟩
  refine tags_of_hosted_run Mspace.sampleRegion.params h hm ⟨5056, 120⟩ ?_
  rw [hlive]
  exact List.mem_cons_self

/-- What is left of the sample's mspace serves 40 bytes at a multiple of 256,
and not 61000 bytes. -/
theorem allocate_of_hosted_run_sample : ∃ s : Hosted, s.sys = sampleHosted
    ∧ (∃ s' b, s.call {} (fun _ => 0) noRuntime (.allocate 40 9 256) = .ok s'
      ∧ s'.sys.mspace = [b, ⟨5056, 120⟩] ∧ 48 ≤ b.size)
    ∧ s.call {} (fun _ => 0) noRuntime (.allocate 61000 9 16) = .error (.fault .assertion) := by
  obtain ⟨s, m, h, hm, hs, htop⟩ := @sampleHosted_run (fun _ => True) trivial trivial
  obtain ⟨_, hk⟩ := (h.run Mspace.sampleRegion.params).2.kept hm
  obtain ⟨cs, hinv, _⟩ := hk.tenanted.books
  have hmaxreq : Mspace.maxRequest = 2 ^ 64 - 128 := by decide
  have hbase : s.sys.heap.base = 4096 := by rw [hs]; rfl
  have hmax : s.sys.heap.maxSize = 61440 := by rw [hs]; rfl
  have hroom : ¬ Mspace.NoRoom m cs 256 (40 + 8) := by
    have habove : Mspace.powerAbove 256 = 256 :=
      @Mspace.powerAbove_eq 256 8 (by decide) (by decide) (by decide)
    have hreq : Mspace.request2size (40 + 8) = 64 := by decide
    have hall : Mspace.request2size (64 + 256 + 24) = 352 := by decide
    rw [Mspace.NoRoom, if_neg (by decide), habove, hreq, Mspace.Full, hall]
    omega
  have hfull : Mspace.NoRoom m cs 16 (61000 + 8) := by
    have hreq : Mspace.request2size (61000 + 8) = 61024 := by decide
    rw [Mspace.NoRoom, if_pos (by decide), Mspace.Full, hreq]
    refine .inr ⟨fun e he => ?_, by omega⟩
    obtain ⟨_, hbefore, _⟩ := hinv.arena.chunk_range (Mspace.mem_loose.mp he)
    have hend : m.top + m.topsize = s.sys.heap.base + s.sys.heap.maxSize - 80 := hinv.arena.topEnd
    have hbefore : e.2 + e.1 ≤ m.top := hbefore
    omega
  obtain ⟨hserve, _⟩ := allocate_of_hosted_run Mspace.sampleRegion.params h hm hinv.arena.walk
    (by decide : 40 ≠ 0) (by omega) (by decide : 256 ≤ 2 ^ 63) 9 (fun _ => 0) noRuntime
  obtain ⟨_, hrefuse⟩ := allocate_of_hosted_run Mspace.sampleRegion.params h hm hinv.arena.walk
    (by decide : 61000 ≠ 0) (by omega) (by decide : 16 ≤ 2 ^ 63) 9 (fun _ => 0) noRuntime
  obtain ⟨s', b, _, hcall, hlive, _, _, hsize, _⟩ := hserve hroom
  refine ⟨s, hs, ⟨s', b, hcall, ?_, hsize⟩, (hrefuse hfull).2 rfl⟩
  rw [hlive, hs]
  rfl

/-- A heap over 1040 bytes, whose mspace serves nothing, with one fallback
block of `n` bytes. -/
theorem fallbackHosted_run {ok : HeapCall → Prop} {n : Nat} (hpos : 0 < n) (hn : n ≤ 4096)
    (hinit : ok (.initializeHeap 4096 1040 "Sample" true true)) (halloc : ok (.allocate n 0 16))
    (hsys : (((sampleCall noRuntime {} (.initializeHeap 4096 1040 "Sample" true true)).bind
      fun s => (sampleCall (oneBlock n) s (.allocate n 0 16)).map fun s' => (s.sys, s'.sys)))
        = some ({ heap := sampleHeap false 0 },
          { heap := sampleHeap true n, stl := [⟨65536, n⟩] })) :
    ∃ s m, HostedRun {} ok s ∧ s.m = some m
      ∧ s.sys = { heap := sampleHeap true n, stl := [⟨65536, n⟩] } := by
  obtain ⟨s₁, h₁, hboth⟩ := Option.bind_eq_some_iff.mp hsys
  obtain ⟨s₂, h₂, hs⟩ := Option.map_eq_some_iff.mp hboth
  obtain ⟨hs₁, hs₂⟩ := Prod.mk.inj hs
  have hrun₁ : HostedRun {} ok s₁ :=
    sampleCall_run .start hinit trivial ⟨by decide, by simp⟩
      (by decide : 1040 + 65536 < 2 ^ 64) (noRuntime_sound _) h₁
  have hruntime : RuntimeSound (oneBlock n) s₁.sys := by
    intro size align b _ hb
    obtain ⟨_, hsome⟩ := Option.ite_none_right_eq_some.mp hb
    cases hsome
    rw [hs₁]
    refine ⟨⟨hpos, ⟨by simp, ?_⟩, by simp⟩, .inr ?_⟩
    · show 65536 + n ≤ 2 ^ 64
      omega
    · show 4096 + 1040 ≤ 65536
      decide
  have hrun₂ : HostedRun {} ok s₂ :=
    sampleCall_run hrun₁ halloc trivial trivial (by decide : 16 ≤ 2 ^ 63) hruntime h₂
  have hinit₂ : s₂.sys.heap.mem ≠ none := by
    rw [hs₂]
    exact Option.some_ne_none _
  obtain ⟨m, hm, _⟩ := (hrun₂.run Mspace.sampleRegion.params).2.opened hinit₂
  exact ⟨s₂, m, hrun₂, hm, hs₂⟩

/-- A fallback block of 112 bytes is no more than the 944 reported for the
state. -/
theorem refresh_of_hosted_run_sample : ∃ (s : Hosted) (m : Mspace.Mstate) (i : Mspace.Mallinfo),
    s.m = some m ∧ s.sys.stl = [⟨65536, 112⟩] ∧ Mspace.mspaceMallinfo m = .ok i
      ∧ i.uordblks = 944 ∧ s.sys.RefreshCovers i.uordblks := by
  obtain ⟨s, m, h, hm, hs⟩ :=
    @fallbackHosted_run NoReset 112 (by decide) (by decide) trivial trivial (by decide)
  obtain ⟨i, hok, hused, hcovers⟩ := refresh_of_hosted_run Mspace.sampleRegion.params h hm
  refine ⟨s, m, i, hm, by rw [hs], hok, ?_, hcovers.mpr ?_⟩
  · rw [hused, hs]
    rfl
  · rw [hs]
    decide

/-- A fallback block of 1000 bytes is more. -/
theorem fallback_block_not_refreshed : ∃ (s : Hosted) (m : Mspace.Mstate) (i : Mspace.Mallinfo),
    HostedRun {} NoReset s ∧ s.m = some m ∧ s.sys.stl = [⟨65536, 1000⟩]
      ∧ Mspace.mspaceMallinfo m = .ok i ∧ i.uordblks = 944
      ∧ s.sys.heap.stlUsedSize + s.sys.heap.mspaceUsedSize = 1000
      ∧ ¬ s.sys.RefreshCovers i.uordblks := by
  obtain ⟨s, m, h, hm, hs⟩ :=
    @fallbackHosted_run NoReset 1000 (by decide) (by decide) trivial trivial (by decide)
  obtain ⟨hrun, hb⟩ := h.run Mspace.sampleRegion.params
  obtain ⟨i, hok, hused⟩ := hb.mallinfo hm
  have hinfo : i.uordblks = 944 := by
    rw [hused, hs]
    rfl
  refine ⟨s, m, i, h, hm, by rw [hs], hok, hinfo, by rw [hs]; rfl, fun hcovers => ?_⟩
  have hmem : s.sys.heap.mem = some 4112 := by rw [hs]; rfl
  have hle := (refreshCovers_iff hrun hmem i.uordblks).mp hcovers
  rw [hinfo, hs] at hle
  exact absurd hle (by decide)

theorem refreshCovers_iff_of_hosted_run_sample :
    ∃ (s : Hosted) (m : Mspace.Mstate), s.m = some m ∧ s.sys.stl = [⟨65536, 112⟩]
      ∧ ((∃ i, Mspace.mspaceMallinfo m = .ok i ∧ s.sys.RefreshCovers i.uordblks)
        ↔ total s.sys.stl ≤ 8 * s.sys.mspace.length + 944) := by
  obtain ⟨s, m, h, hm, hs⟩ :=
    @fallbackHosted_run NoReset 112 (by decide) (by decide) trivial trivial (by decide)
  exact ⟨s, m, hm, by rw [hs], refreshCovers_iff_of_hosted_run Mspace.sampleRegion.params h hm⟩

end SkyEngine.Memory
