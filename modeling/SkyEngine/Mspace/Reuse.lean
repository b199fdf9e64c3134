import SkyEngine.Mspace.Runs

/-!
# Mspace — Reuse

How an mspace makes use of its region over whole runs: which free chunk a
request is served from, what comes back once every block is freed, and what
`mspace_mallinfo` reports of it.
-/

namespace SkyEngine.Mspace

open Blocks

variable {pr : Mparams} {base capacity : Nat} {s : Space}

/-! ## Which chunk a request gets -/

/-- What `mspace_malloc` does among the chunks `cs`: it takes the free chunk
that fits best, or for a small request without an exact fit the designated
victim; the top if no free chunk fits; and returns null only if neither
does. -/
def Policy (pr : Mparams) (m : Mstate) (cs : List Chunk) (bytes : Nat) : Prop :=
  (∃ p m', mspaceMalloc pr m bytes = .ok (some (chunk2mem p), m')
      ∧ ((∃ size, BestFit cs (request2size bytes) size p) ∨ Victim m cs (request2size bytes) p
        ∨ (NoFit cs (request2size bytes) ∧ p = m.top ∧ request2size bytes < m.topsize)))
    ∨ (mspaceMalloc pr m bytes = .ok (none, m)
      ∧ (maxRequest ≤ bytes ∨ NoFit cs (request2size bytes)
        ∧ m.topsize ≤ request2size bytes))

/-- **The policy holds** in every state an mspace reaches. -/
theorem policy_of_run (hr : Region pr base capacity) (h : SpaceRun pr base capacity s)
    (bytes : Nat) {cs : List Chunk} (hcs : s.m.Chunks base cs) : Policy pr s.m cs bytes := by
  have ht := h.tenanted hr
  obtain ⟨hinv, _⟩ := ht.books_of_chunks hcs
  rcases mspaceMalloc_spec hr.params ht.capped hinv bytes
    with ⟨p, m', hok, _, _, hfit⟩ | ⟨hok, hwhy⟩
  · exact .inl ⟨p, m', hok, hfit⟩
  · exact .inr ⟨hok, hwhy⟩

/-- Two blocks are freed between others: the first chunk goes to a small bin,
the second to a tree. -/
def sampleCalls : List Event :=
  [.memalign 16 40, .memalign 16 24, .memalign 16 1000, .memalign 16 24, .free 5056, .free 5136]

/-- The small bin serves a request for 40 bytes, the tree one for 500, the top
one for 5000, and nothing one for 100000. -/
theorem policy_of_run_sample : ∃ (s : Space) (cs : List Chunk), s.m.Chunks 4096 cs
    ∧ ⟨5040, 48, false⟩ ∈ cs ∧ ⟨5120, 1008, false⟩ ∈ cs
    ∧ (∀ bytes, Policy {} s.m cs bytes)
    ∧ [40, 500, 5000, 100000].map (fun n => (mspaceMalloc {} s.m n).toOption.map (·.1))
      = [some (some 5056), some (some 5136), some (some 6176), some none] := by
  have hreplay : (sampleSpace.bind (·.replay {} sampleCalls)).any (fun s =>
      s.m.bins.smallbins 6 = [5040] ∧ (s.m.bins.treebins 3).entries = [(1008, 5120)]
        ∧ [40, 500, 5000, 100000].map (fun n => (mspaceMalloc {} s.m n).toOption.map (·.1))
          = [some (some 5056), some (some 5136), some (some 6176), some none]) = true := by
    decide +kernel
  obtain ⟨s, hrun, hfacts⟩ := sampleSpace_replay hreplay
  obtain ⟨hsmall, htree, hanswers⟩ := of_decide_eq_true hfacts
  obtain ⟨cs, hinv, _⟩ := (hrun.tenanted sampleRegion).books
  obtain ⟨l, hperm, hb⟩ := hinv.binned
  have hfree : ∀ e ∈ l, ⟨e.2, e.1, false⟩ ∈ cs := by
    intro e he
    exact mem_loose.mp (hperm.mem_iff.mpr (List.mem_append_right _ he))
  refine ⟨s, cs, hinv.arena.walk, ?_, ?_, ?_, hanswers⟩
  · exact hfree (8 * 6, 5040) (hb.mem_small (by rw [hsmall]; exact List.mem_singleton_self _))
  · exact hfree (1008, 5120) (hb.mem_tree (by rw [htree]; exact List.mem_singleton_self _)).1
  · exact fun bytes => policy_of_run sampleRegion hrun bytes hinv.arena.walk

/-! ## Everything comes back -/

/-- Free chunks have neighbours in use, so where all is free there is
nothing but the top. -/
theorem Walk.eq_nil_of_free {w : Words} {hi lo : Nat} {prev : Bool} {cs : List Chunk}
    (h : Walk w hi true prev lo cs) (hfree : held cs = []) : cs = [] := by
  cases cs with
  | nil => rfl
  | cons c cs =>
      obtain ⟨a, s, u⟩ := c
      cases u with
      | true => cases hfree
      | false =>
          obtain ⟨_, _, _, _, _, hrest⟩ := h
          obtain ⟨n, rest, rfl, hn, _⟩ := hrest.first_in_use
          obtain ⟨na, ns, nu⟩ := n
          cases hn
          cases hfree

theorem Holds.eq_empty {b : Bins} (h : Holds b []) :
    b.smallmap = 0 ∧ b.treemap = 0 ∧ ∀ i, b.smallbins i = [] ∧ b.treebins i = .nil := by
  have hsmall : ∀ i, b.smallbins i = [] := fun i => (h.small i).eq_nil
  have htree : ∀ i, b.treebins i = .nil := by
    intro i
    by_contra hne
    obtain ⟨e, he⟩ := BitTrie.exists_entry hne
    cases (h.tree i).mem_iff.mp he
  refine ⟨BitMap.eq_zero_iff.mpr fun i => ?_, BitMap.eq_zero_iff.mpr fun i => ?_,
    fun i => ⟨hsmall i, htree i⟩⟩
  · by_contra hset
    have hset := Bool.not_eq_false _ ▸ hset
    exact (h.smallmap i (BitVec.lt_of_getLsbD hset)).mp hset (hsmall i)
  · by_contra hset
    have hset := Bool.not_eq_false _ ▸ hset
    exact (h.treemap i (BitVec.lt_of_getLsbD hset)).mp hset (htree i)

/-- An mspace as it was opened: all of the region but the state is the top. -/
structure Pristine (m : Mstate) (base capacity : Nat) : Prop where
  top : m.top = base + 944
  topsize : m.topsize = capacity - 1024
  dv : m.dv = 0 ∧ m.dvsize = 0
  maps : m.bins.smallmap = 0 ∧ m.bins.treemap = 0
  bins : ∀ i, m.bins.smallbins i = [] ∧ m.bins.treebins i = .nil

/-- The chunk of the state is the only one if nothing else is in use. -/
theorem Walk.eq_state {w : Words} {hi base : Nat} {cs : List Chunk}
    (h : Walk w hi true true base cs) (hheld : held cs = [(944, base)]) :
    cs = [⟨base, 944, true⟩] := by
  cases cs with
  | nil => cases hheld
  | cons c cs =>
      obtain ⟨a, s, u⟩ := c
      obtain ⟨haddr, hmin, _, _, _, hrest⟩ := h
      cases u with
      | true =>
          rw [held_inUse] at hheld
          obtain ⟨hfirst, htail⟩ := List.cons_eq_cons.mp hheld
          cases hfirst
          rw [hrest.eq_nil_of_free htail]
      | false =>
          rw [held_free] at hheld
          have hmem : (944, base) ∈ held cs := by
            rw [hheld]
            exact List.mem_cons_self
          have hlo : base + s ≤ base := (hrest.chunk_range (mem_held.mp hmem)).1
          have hmin : 32 ≤ s := hmin
          omega

/-- **Freeing everything gives everything back**: in whatever order blocks
were allocated and freed, an mspace without live blocks is as it was opened,
and serves any request its region has room for from where the first block
was. -/
theorem pristine_of_run (hr : Region pr base capacity) (h : SpaceRun pr base capacity s)
    (hlive : s.live = []) : Pristine s.m base capacity
      ∧ ∀ bytes, bytes < maxRequest → request2size bytes < capacity - 1024 →
        ∃ m', mspaceMalloc pr s.m bytes = .ok (some (base + 960), m') := by
  have ht := h.tenanted hr
  obtain ⟨cs, hinv, hheld⟩ := ht.books
  rw [hlive] at hheld
  cases hinv.arena.walk.eq_state (List.perm_singleton.mp hheld)
  have hend := hinv.arena.topEnd
  have htop : base + 944 = s.m.top := hinv.arena.walk.2.2.2.2.2.1
  obtain ⟨l, hperm, hb⟩ := hinv.binned
  have hnone : dvEntries s.m ++ l = [] := hperm.symm.eq_nil
  obtain ⟨hdv, rfl⟩ := List.append_eq_nil_iff.mp hnone
  have hdvsize : s.m.dvsize = 0 := by
    by_contra hne
    rw [dvEntries, if_neg hne] at hdv
    cases hdv
  obtain ⟨hsmall, htree, hbins⟩ := hb.eq_empty
  have hsize : s.m.topsize = capacity - 1024 := by omega
  refine ⟨⟨htop.symm, hsize, ⟨hinv.dv_null hdvsize, hdvsize⟩, ⟨hsmall, htree⟩, hbins⟩, ?_⟩
  intro bytes hlt hroom
  have hmaxreq : maxRequest = 2 ^ 64 - 128 := by decide
  have hmin := (request2size_spec bytes (by omega)).2.2.1
  rcases mspaceMalloc_spec hr.params ht.capped hinv bytes with ⟨p, m', hok, _, _, hfit⟩ | ⟨_, hwhy⟩
  · rcases hfit with ⟨size, hbest⟩ | hvictim | ⟨_, rfl, _⟩
    · cases hbest.mem
    · have hfits := hvictim.fits
      omega
    · refine ⟨m', ?_⟩
      rw [hok, ← htop]
      rfl
  · rcases hwhy with hmax | ⟨_, hno⟩
    · omega
    · omega

/-- The sample block is freed again. -/
theorem pristine_of_run_sample : ∃ (s s' : Space) (m' : Mstate), s.live = [⟨5056, 104⟩]
    ∧ s.step {} (.free 5056) = .ok s' ∧ Pristine s'.m 4096 61440
    ∧ mspaceMalloc {} s'.m 60000 = .ok (some 5056, m') := by
  obtain ⟨s, hrun, hlive⟩ := sampleSpace_run
  have hin : (⟨5056, 104⟩ : Block) ∈ s.live := by
    rw [hlive]
    exact List.mem_cons_self
  have hfree : s.Permitted (.free 5056) := .inr ⟨_, hin, rfl⟩
  obtain ⟨s', hok, _, heffect⟩ := (hrun.tenanted sampleRegion).step sampleRegion hfree
  have hempty : s'.live = [] := by
    have heffect : s'.live = release s.live 5056 := heffect
    rw [heffect, hlive]
    decide
  obtain ⟨hpristine, hserves⟩ := pristine_of_run sampleRegion (.event hrun hfree hok) hempty
  obtain ⟨m', hm'⟩ := hserves 60000 (by decide) (by decide)
  exact ⟨s, s', m', hlive, hok, hpristine, hm'⟩

/-! ## What is in use -/

theorem sizes_chunkOf (l : List Block) : sizes (l.map chunkOf) = total l + 8 * l.length := by
  induction l with
  | nil => rfl
  | cons b l ih =>
      rw [List.map_cons, chunkOf, sizes_cons, ih, total_cons, List.length_cons]
      omega

theorem Tenanted.mallinfo (hr : Region pr base capacity) (h : Tenanted pr base capacity s) :
    ∃ i, mspaceMallinfo s.m = .ok i ∧ i.arena = capacity ∧ i.hblkhd = 0
      ∧ i.uordblks = 944 + total s.live + 8 * s.live.length
      ∧ i.uordblks + i.fordblks = capacity := by
  obtain ⟨cs, hinv, hheld⟩ := h.books
  obtain ⟨hok, htotal⟩ := mspaceMallinfo_spec hinv h.segBase h.segSize h.footprint hr.fits
  have hused : sizes (held cs) = 944 + total s.live + 8 * s.live.length := by
    rw [sizes_perm hheld, sizes_cons, sizes_chunkOf]
    omega
  exact ⟨_, hok, rfl, rfl, hused, htotal⟩

/-- **The figures of `mspace_mallinfo`** in every state: the bytes in use
are those of the live blocks, eight more for each of them, and the state's;
the rest of the region is free. -/
theorem mallinfo_of_run (hr : Region pr base capacity) (h : SpaceRun pr base capacity s) :
    ∃ i, mspaceMallinfo s.m = .ok i ∧ i.arena = capacity ∧ i.hblkhd = 0
      ∧ i.uordblks = 944 + total s.live + 8 * s.live.length
      ∧ i.uordblks + i.fordblks = capacity :=
  (h.tenanted hr).mallinfo hr

theorem mallinfo_of_run_sample : ∃ (s : Space) (i : Mallinfo), s.live = [⟨5056, 104⟩]
    ∧ mspaceMallinfo s.m = .ok i ∧ i.uordblks = 1056 := by
  obtain ⟨s, hrun, hlive⟩ := sampleSpace_run
  obtain ⟨i, hok, _, _, hused, _⟩ := mallinfo_of_run sampleRegion hrun
  refine ⟨s, i, hlive, hok, ?_⟩
  rw [hused, hlive]
  rfl

end SkyEngine.Mspace
