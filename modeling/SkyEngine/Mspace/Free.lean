import SkyEngine.Mspace.Invariant

/-!
# Mspace — Free

`mspace_free` and `dispose_chunk`: a chunk in use joins the free chunks on
both sides of it, or the top, and what comes of it is the designated victim
or goes into a bin.
-/

namespace SkyEngine.Mspace

open Word64

/-! ## The code -/

/-- What consolidating forward made of a chunk. -/
inductive Joined where
  /-- It is part of the top now, of this size. -/
  | top (tsize : Nat)
  /-- It is the designated victim. -/
  | dv
  /-- A free chunk of this size, still to be binned. -/
  | chunk (psize : Nat)

/-- Consolidate backward: `p` of `psize` bytes joins the free chunk before
it. Tells address and size of the two, and whether that was all there is to
do. -/
def consolidateBackward (m : Mstate) (p psize next : Nat) :
    Except Halt (Nat × Nat × Bool × Mstate) := do
  let prevsize := prevFoot m.mem p
  let prev := sub p prevsize
  let psize := add psize prevsize
  if m.leastAddr ≤ prev then
    if prev ≠ m.dv then
      let bins ← m.bins.unlinkChunk prev prevsize
      .ok (prev, psize, false, { m with bins := bins })
    else if head m.mem next &&& inuseBits = inuseBits then
      .ok (prev, psize, true, { m with
        dvsize := psize
        mem := setFreeWithPinuse m.mem prev psize next })
    else .ok (prev, psize, false, m)
  else .error .abort

/-- Consolidate forward: `p` of `psize` bytes joins what is free behind it. -/
def consolidateForward (m : Mstate) (p psize next : Nat) : Except Halt (Joined × Mstate) := do
  if cinuse m.mem next = false then
    if next = m.top then
      let tsize := add m.topsize psize
      let m := { m with
        topsize := tsize
        top := p
        mem := setHead m.mem p (tsize ||| pinuseBit) }
      .ok (.top tsize, if p = m.dv then { m with dv := 0, dvsize := 0 } else m)
    else if next = m.dv then
      let dsize := add m.dvsize psize
      .ok (.dv, { m with
        dvsize := dsize
        dv := p
        mem := setSizeAndPinuseOfFreeChunk m.mem p dsize })
    else
      let nsize := chunksize m.mem next
      let psize := add psize nsize
      let bins ← m.bins.unlinkChunk next nsize
      let m := { m with bins := bins, mem := setSizeAndPinuseOfFreeChunk m.mem p psize }
      if p = m.dv then .ok (.dv, { m with dvsize := psize }) else .ok (.chunk psize, m)
  else .ok (.chunk psize, { m with mem := setFreeWithPinuse m.mem p psize next })

/-- Consolidate a chunk both ways, and `finish` with what it became. `check`
is what is asked of it and the chunk after it in between. -/
def consolidate (check : Mstate → Nat → Nat → Bool)
    (finish : Mstate → Nat → Joined → Except Halt Mstate) (m : Mstate) (p psize : Nat) :
    Except Halt Mstate := do
  let next := add p psize
  let forward := fun (p psize : Nat) (m : Mstate) =>
    if check m p next then do
      let (joined, m) ← consolidateForward m p psize next
      finish m p joined
    else .error .abort
  if pinuse m.mem p = false then
    if isMmapped m.mem p then .error .system
    else
      let (p, psize, done, m) ← consolidateBackward m p psize next
      if done then .ok m else forward p psize m
  else forward p psize m

/-- Consolidate and bin a chunk that need not be marked as inuse. -/
def disposeChunk : Mstate → Nat → Nat → Except Halt Mstate :=
  consolidate (fun m _ next => m.leastAddr ≤ next) fun m p joined =>
    match joined with
    | .top _ => .ok m
    | .dv => .ok m
    | .chunk psize => .ok { m with bins := m.bins.insertChunk p psize }

/-- The freed chunk: part of the top, which may be trimmed, or binned; every
so many large chunks a segment to release is looked for. -/
def finishFree (m : Mstate) (p : Nat) : Joined → Except Halt Mstate
  | .top tsize => if tsize > m.trimCheck then sysTrim m 0 else .ok m
  | .dv => .ok m
  | .chunk psize =>
      if isSmall psize then .ok { m with bins := m.bins.insertSmallChunk p psize }
      else
        let checks := sub m.releaseChecks 1
        let m := { m with bins := m.bins.insertLargeChunk p psize, releaseChecks := checks }
        .ok (if checks = 0 then releaseUnusedSegments m else m)

def mspaceFree (m : Mstate) (mem : Nat) : Except Halt Mstate :=
  if mem = 0 then .ok m
  else
    let p := mem2chunk mem
    if m.leastAddr ≤ p ∧ isInuse m.mem p = true then
      consolidate (fun m p next => p < next && pinuse m.mem next) finishFree m p (chunksize m.mem p)
    else .error .abort

/-! ## A gap in the books -/

/-- A stretch about to become free: memory still counts it as in use, and
the bins hold all free chunks but it. It may have started out as the
designated victim, if what follows it is free as well. -/
structure Opened (lo limit : Nat) (m : Mstate) (pre : List Chunk) (p psize : Nat)
    (post : List Chunk) : Prop where
  gap : Gap m.mem lo limit m.top m.topsize pre p psize post
  binned : ∃ l, Holds m.bins l
    ∧ ((p ≠ m.dv ∧ (loose (pre ++ post)).Perm (dvEntries m ++ l))
      ∨ (p = m.dv ∧ (loose (pre ++ post)).Perm l ∧ cinuse m.mem (p + psize) = false))
  dv_null : m.dvsize = 0 → m.dv = 0
  least : m.leastAddr ≤ lo
  lo_pos : 0 < lo
  external : m.sflags = externBit

variable {lo limit : Nat} {m : Mstate} {cs : List Chunk} {s a : Nat}

/-- Only one free chunk starts at an address. -/
theorem loose_size_unique {w : Words} {top topsize : Nat} (h : Arena w lo limit top topsize cs)
    {s t : Nat} (hs : (s, a) ∈ loose cs) (ht : (t, a) ∈ loose cs) : s = t := by
  have hinj := List.inj_on_of_nodup_map h.loose_nodup hs ht rfl
  exact congrArg Prod.fst hinj

/-- A chunk in use is not the victim. -/
theorem Inv.held_ne_dv (h : Inv lo limit m cs) (hmem : (s, a) ∈ held cs) : a ≠ m.dv := by
  rintro rfl
  rw [mem_held] at hmem
  have hlo := (h.arena.chunk_range hmem).1
  have hpos := h.lo_pos
  have hdv : m.dvsize ≠ 0 := by
    intro h0
    rw [h.dv_null h0] at hlo
    omega
  have hfree := mem_loose.mp (h.dv_mem hdv)
  have heq := List.inj_on_of_nodup_map h.arena.addr_nodup hmem hfree rfl
  cases heq

/-- **Consolidating backward** a chunk in use whose predecessor is free: the
two are one gap, or all of it is the new victim. -/
theorem consolidateBackward_spec (h : Inv lo limit m cs) (hmem : (s, a) ∈ held cs)
    (hpinuse : pinuse m.mem a = false) :
    ∃ p psize done m' pre post, consolidateBackward m a s (a + s) = .ok (p, psize, done, m')
      ∧ Same m m' ∧ p + psize = a + s ∧ lo ≤ p ∧ 32 ≤ psize
      ∧ (held cs).Perm ((s, a) :: held (pre ++ post))
      ∧ Untouched m.mem m'.mem (held (pre ++ post))
      ∧ ((done = false ∧ m'.mem = m.mem ∧ Opened lo limit m' pre p psize post)
        ∨ (done = true ∧ ∃ cs', Inv lo limit m' cs' ∧ held cs' = held (pre ++ post))) := by
  have hlim := h.arena.limit_lt
  have hend := h.arena.topEnd
  obtain ⟨hlo, hmin, htop, _, _, _, _, pre₀, post, hcs, hgap⟩ := Gap.of_held h.arena hmem
  rcases hgap with ⟨hpi, _⟩ | ⟨_, pre, d, rfl, hd, hfoot, hdend, hdlo, hgap⟩
  · rw [hpinuse] at hpi
    cases hpi
  obtain ⟨da, ds, du⟩ := d
  cases hd
  have hdend : da + ds = a := hdend
  have hgap : Gap m.mem lo limit m.top m.topsize pre da (ds + s) post := hgap
  have hdfree : (ds, da) ∈ loose cs := by
    rw [mem_loose, hcs]
    simp
  have hdsized := h.arena.loose_sized hdfree
  have hdlo : lo ≤ da := hdlo
  have hloose : (loose cs).Perm ((ds, da) :: loose (pre ++ post)) := by
    rw [hcs]
    simp
  have hheld : (held cs).Perm ((s, a) :: held (pre ++ post)) := by
    rw [hcs]
    simp
  have hprev : sub a ds = da := by
    rw [sub_of_le (by omega) (by omega)]
    omega
  have hsize : add s ds = ds + s := by
    rw [add_of_lt (by omega)]
    omega
  have hleast : m.leastAddr ≤ da := Nat.le_trans h.least hdlo
  have hstop : da + (ds + s) = a + s := by omega
  obtain ⟨l, hperm, hb⟩ := h.binned
  unfold consolidateBackward
  rw [hfoot]
  dsimp only
  rw [hprev, hsize, if_pos hleast]
  by_cases hdv : da = m.dv
  · have hne : m.dvsize ≠ 0 := by
      intro h0
      have hnull := h.dv_null h0
      have hpos := h.lo_pos
      omega
    have hdvmem := h.dv_mem hne
    rw [← hdv] at hdvmem
    have hds : ds = m.dvsize := loose_size_unique h.arena hdfree hdvmem
    have hrest : (loose (pre ++ post)).Perm l := by
      rw [dvEntries, if_neg hne, ← hdv, ← hds] at hperm
      exact (List.perm_cons _).mp (hloose.symm.trans hperm)
    rw [if_neg (not_not.mpr hdv)]
    obtain ⟨hpin, hnext⟩ := hgap.next
    rw [hstop] at hpin hnext
    by_cases hboth : head m.mem (a + s) &&& inuseBits = inuseBits
    · -- the whole gap becomes the victim
      rw [if_pos hboth]
      have hcin := (inuseBits_iff hpin).mp hboth
      rcases hnext with ⟨_, _, hfree⟩ | ⟨n, rest, rfl, _, _, hn, _⟩
      · rw [hcin] at hfree
        cases hfree
      · have hn : n.inUse = true := hn.symm.trans hcin
        obtain ⟨harena, hkept⟩ := hgap.fill hn
        rw [hstop] at harena hkept
        refine ⟨da, ds + s, true, _, pre, n :: rest, rfl, ⟨rfl, rfl, rfl, rfl, rfl⟩, hstop, hdlo,
          by omega, hheld, hkept, .inr ⟨rfl, pre ++ ⟨da, ds + s, false⟩ :: n :: rest, ?_, by simp⟩⟩
        constructor
        case arena => exact harena
        case binned =>
          refine ⟨l, ?_, hb⟩
          have hentries : dvEntries { m with
              dvsize := ds + s
              mem := setFreeWithPinuse m.mem da (ds + s) (a + s) } = [(ds + s, da)] := by
            have hne' : ds + s ≠ 0 := by omega
            exact (if_neg hne').trans (congrArg (fun x => [(ds + s, x)]) hdv.symm)
          rw [hentries, loose_append, loose_free]
          rw [loose_append] at hrest
          exact List.perm_middle.trans (hrest.cons _)
        case dv_null =>
          intro h0
          have h0 : ds + s = 0 := h0
          omega
        case least => exact h.least
        case lo_pos => exact h.lo_pos
        case external => exact h.external
    · rw [if_neg hboth]
      refine ⟨da, ds + s, false, m, pre, post, rfl, Same.refl m, hstop, hdlo, by omega, hheld,
        Untouched.refl _ _, .inl ⟨rfl, rfl, ?_⟩⟩
      constructor
      case gap => exact hgap
      case binned =>
        refine ⟨l, hb, .inr ⟨hdv, hrest, ?_⟩⟩
        rw [hstop]
        exact Bool.eq_false_iff.mpr fun hc => hboth ((inuseBits_iff hpin).mpr hc)
      case dv_null => exact h.dv_null
      case least => exact h.least
      case lo_pos => exact h.lo_pos
      case external => exact h.external
  · rw [if_pos hdv]
    have hin : (ds, da) ∈ l := by
      rcases mem_cases hperm hdfree with heq | hin
      · cases heq
        exact absurd rfl hdv
      · exact hin
    obtain ⟨b, hok, hloosened⟩ := h.unlinkChunk hperm hb (List.perm_cons_erase hin)
    rw [hok]
    refine ⟨da, ds + s, false, _, pre, post, rfl, ⟨rfl, rfl, rfl, rfl, rfl⟩, hstop, hdlo, by omega,
      hheld, Untouched.refl _ _, .inl ⟨rfl, rfl, ?_⟩⟩
    constructor
    case gap => exact hgap
    case binned =>
      obtain ⟨l', hperm', hb'⟩ := hloosened.binned
      exact ⟨l', hb', .inl ⟨hdv, (List.perm_cons _).mp (hloose.symm.trans hperm')⟩⟩
    case dv_null => exact h.dv_null
    case least => exact h.least
    case lo_pos => exact h.lo_pos
    case external => exact h.external

/-- What is known of the mspace once a chunk at `p` has been joined. -/
def Joined.Sound (lo limit : Nat) (m : Mstate) (cs : List Chunk) (p : Nat) : Joined → Prop
  | .top _ => Inv lo limit m cs
  | .dv => Inv lo limit m cs
  | .chunk s => Loosened lo limit m cs s p

/-- **Consolidating forward** closes the gap. -/
theorem consolidateForward_spec {pre post : List Chunk} {p psize : Nat}
    (h : Opened lo limit m pre p psize post) :
    ∃ j m' cs', consolidateForward m p psize (p + psize) = .ok (j, m') ∧ Same m m'
      ∧ j.Sound lo limit m' cs' p ∧ held cs' = held (pre ++ post)
      ∧ Untouched m.mem m'.mem (held (pre ++ post)) := by
  have hlim := h.gap.limit_lt
  have hend := h.gap.topEnd
  have htoppos := h.gap.topPos
  have hmin := h.gap.min
  obtain ⟨l, hb, hbooks⟩ := h.binned
  unfold consolidateForward
  rcases h.gap.next with ⟨_, ⟨rfl, htop, hcin⟩ | ⟨n, rest, rfl, haddr, hne, hcin, hsize, hle⟩⟩
  · -- the top comes next
    have hadd : add m.topsize psize = m.topsize + psize := add_of_lt (by omega)
    obtain ⟨harena, hkept⟩ := h.gap.fillTop
    rw [List.append_nil] at hbooks ⊢
    rw [if_pos hcin, if_pos htop, hadd]
    dsimp only
    by_cases hdv : p = m.dv
    · rw [if_pos hdv]
      rcases hbooks with ⟨hno, _⟩ | ⟨_, hperm, _⟩
      · exact absurd hdv hno
      refine ⟨_, _, pre, rfl, ⟨rfl, rfl, rfl, rfl, rfl⟩, ?_, rfl, hkept⟩
      constructor
      case arena => exact harena
      case binned => exact ⟨l, hperm, hb⟩
      case dv_null => exact fun _ => rfl
      case least => exact h.least
      case lo_pos => exact h.lo_pos
      case external => exact h.external
    · rw [if_neg hdv]
      rcases hbooks with ⟨_, hperm⟩ | ⟨hyes, _⟩
      · refine ⟨_, _, pre, rfl, ⟨rfl, rfl, rfl, rfl, rfl⟩, ?_, rfl, hkept⟩
        constructor
        case arena => exact harena
        case binned => exact ⟨l, hperm, hb⟩
        case dv_null => exact h.dv_null
        case least => exact h.least
        case lo_pos => exact h.lo_pos
        case external => exact h.external
      · exact absurd hyes hdv
  · obtain ⟨na, ns, nu⟩ := n
    have haddr : na = p + psize := haddr
    have hsize : chunksize m.mem (p + psize) = ns := hsize
    have hle : p + psize + ns ≤ m.top := hle
    cases nu with
    | true =>
        -- a chunk in use comes next
        have hcin : cinuse m.mem (p + psize) = true := hcin
        rw [if_neg (by rw [hcin]; decide)]
        obtain ⟨harena, hkept⟩ := h.gap.fill rfl
        rcases hbooks with ⟨_, hperm⟩ | ⟨_, _, hfree⟩
        · refine ⟨_, _, pre ++ ⟨p, psize, false⟩ :: ⟨na, ns, true⟩ :: rest, rfl,
            ⟨rfl, rfl, rfl, rfl, rfl⟩, ?_, by simp, hkept⟩
          constructor
          case arena => exact harena
          case binned =>
            refine ⟨l, ?_, hb⟩
            rw [loose_append, loose_free]
            rw [loose_append] at hperm
            exact List.perm_middle.trans (hperm.cons _)
          case dv_null => exact h.dv_null
          case least => exact h.least
          case lo_pos => exact h.lo_pos
          case external => exact h.external
        · rw [hcin] at hfree
          cases hfree
    | false =>
        have hcin : cinuse m.mem (p + psize) = false := hcin
        rw [if_pos hcin, if_neg hne]
        obtain ⟨harena, hkept⟩ := h.gap.fillNext rfl
        have hkept : Untouched m.mem (setSizeAndPinuseOfFreeChunk m.mem p (psize + ns))
            (held (pre ++ ⟨na, ns, false⟩ :: rest)) := by simpa using hkept
        have hheld : held (pre ++ ⟨p, psize + ns, false⟩ :: rest)
            = held (pre ++ ⟨na, ns, false⟩ :: rest) := by simp
        have hfree : (loose (pre ++ ⟨na, ns, false⟩ :: rest)).Perm
            ((ns, na) :: (loose pre ++ loose rest)) := by simp
        have hfree' : (loose (pre ++ ⟨p, psize + ns, false⟩ :: rest)).Perm
            ((psize + ns, p) :: (loose pre ++ loose rest)) := by simp
        by_cases hdv : p + psize = m.dv
        · -- the victim comes next
          rw [if_pos hdv]
          rcases hbooks with ⟨_, hperm⟩ | ⟨hyes, _⟩
          · have hne0 : m.dvsize ≠ 0 := by
              intro h0
              have hnull := h.dv_null h0
              omega
            have hentries : dvEntries m = [(m.dvsize, m.dv)] := if_neg hne0
            rw [hentries] at hperm
            have hdvsize : m.dvsize = ns := by
              refine h.gap.next_size (hperm.mem_iff.mpr ?_)
              rw [hdv]
              exact List.mem_cons_self
            have hadd : add m.dvsize psize = psize + ns := by
              rw [hdvsize, add_of_lt (by omega), Nat.add_comm]
            rw [hadd]
            refine ⟨_, _, pre ++ ⟨p, psize + ns, false⟩ :: rest, rfl, ⟨rfl, rfl, rfl, rfl, rfl⟩, ?_,
              hheld, hkept⟩
            rw [hdvsize, ← hdv, ← haddr] at hperm
            have hrest : (loose pre ++ loose rest).Perm l :=
              (List.perm_cons _).mp (hfree.symm.trans hperm)
            constructor
            case arena => exact harena
            case binned =>
              refine ⟨l, hfree'.trans ?_, hb⟩
              have hne' : psize + ns ≠ 0 := by omega
              rw [dvEntries, if_neg hne']
              exact hrest.cons _
            case dv_null =>
              intro h0
              have h0 : psize + ns = 0 := h0
              omega
            case least => exact h.least
            case lo_pos => exact h.lo_pos
            case external => exact h.external
          · omega
        · rw [if_neg hdv, hsize]
          have hadd : add psize ns = psize + ns := add_of_lt (by omega)
          dsimp only
          rw [hadd]
          have hin : (ns, na) ∈ l := by
            have hmem : (ns, na) ∈ loose (pre ++ ⟨na, ns, false⟩ :: rest) :=
              hfree.mem_iff.mpr List.mem_cons_self
            rcases hbooks with ⟨_, hperm⟩ | ⟨_, hperm, _⟩
            · rcases mem_cases hperm hmem with heq | hin
              · cases heq
                exact absurd haddr.symm hdv
              · exact hin
            · exact hperm.mem_iff.mp hmem
          have hl := List.perm_cons_erase hin
          obtain ⟨b, hok, hb'⟩ := hb.unlinkChunk hl
          rw [show na = p + psize from haddr] at hok
          rw [hok]
          by_cases hpdv : p = m.dv
          · rcases hbooks with ⟨hno, _⟩ | ⟨_, hperm, _⟩
            · exact absurd hpdv hno
            have hrest := (List.perm_cons _).mp (hfree.symm.trans (hperm.trans hl))
            refine ⟨_, _, pre ++ ⟨p, psize + ns, false⟩ :: rest, (if_pos hpdv).trans rfl,
              ⟨rfl, rfl, rfl, rfl, rfl⟩, ?_, hheld, hkept⟩
            constructor
            case arena => exact harena
            case binned =>
              refine ⟨_, hfree'.trans ?_, hb'⟩
              have hne' : psize + ns ≠ 0 := by omega
              rw [dvEntries, if_neg hne', ← hpdv]
              exact hrest.cons _
            case dv_null =>
              intro h0
              have h0 : psize + ns = 0 := h0
              omega
            case least => exact h.least
            case lo_pos => exact h.lo_pos
            case external => exact h.external
          · rcases hbooks with ⟨_, hperm⟩ | ⟨hyes, _⟩
            · have hrest := (List.perm_cons _).mp (hfree.symm.trans (hperm.trans
                ((hl.append_left _).trans List.perm_middle)))
              refine ⟨_, _, pre ++ ⟨p, psize + ns, false⟩ :: rest, (if_neg hpdv).trans rfl,
                ⟨rfl, rfl, rfl, rfl, rfl⟩, ?_, hheld, hkept⟩
              constructor
              case arena => exact harena
              case binned => exact ⟨_, hfree'.trans (hrest.cons _), hb'⟩
              case dv_null => exact h.dv_null
              case least => exact h.least
              case lo_pos => exact h.lo_pos
              case external => exact h.external
            · exact absurd hyes hpdv

/-! ## The calls -/

/-- The chunk of `s` bytes at `a` is not in use any more; nothing in another
chunk in use changed. -/
def Freed (lo limit : Nat) (m : Mstate) (cs : List Chunk) (s a : Nat) (m' : Mstate) : Prop :=
  Same m m' ∧ ∃ cs', Inv lo limit m' cs' ∧ (held cs).Perm ((s, a) :: held cs')
    ∧ Untouched m.mem m'.mem (held cs')

theorem consolidate_spec {check : Mstate → Nat → Nat → Bool}
    {finish : Mstate → Nat → Joined → Except Halt Mstate} (h : Inv lo limit m cs)
    (hmem : (s, a) ∈ held cs)
    (hcheck : ∀ m' p, Same m m' → m'.mem = m.mem → lo ≤ p → p < a + s →
      pinuse m.mem (a + s) = true → check m' p (a + s) = true)
    (hfinish : ∀ m' cs' p j, Same m m' → Joined.Sound lo limit m' cs' p j →
      ∃ m'', finish m' p j = .ok m'' ∧ Same m' m'' ∧ m''.mem = m'.mem ∧ Inv lo limit m'' cs') :
    ∃ m', consolidate check finish m a s = .ok m' ∧ Freed lo limit m cs s a m' := by
  have hlim := h.arena.limit_lt
  have hend := h.arena.topEnd
  obtain ⟨hlo, hmin, htop, _, _, _, hmm, pre₀, post₀, hcs, hgap⟩ := Gap.of_held h.arena hmem
  have hnext : add a s = a + s := add_of_lt (by omega)
  -- a gap, whichever way it came about, is closed and finished with
  have hforward : ∀ m₁ pre p psize post, Same m m₁ → m₁.mem = m.mem → lo ≤ p → p < a + s →
      p + psize = a + s → Opened lo limit m₁ pre p psize post →
      (held cs).Perm ((s, a) :: held (pre ++ post)) →
      ∃ m', (if check m₁ p (a + s) then do
          let (joined, m) ← consolidateForward m₁ p psize (a + s)
          finish m p joined
        else .error .abort) = .ok m' ∧ Freed lo limit m cs s a m' := by
    intro m₁ pre p psize post hsame hkeep hlo' hlt hstop hopen hheld
    have hpin := hopen.gap.next.1
    rw [hstop, hkeep] at hpin
    rw [if_pos (hcheck m₁ p hsame hkeep hlo' hlt hpin)]
    obtain ⟨j, m₂, cs', hok, hsame₂, hsound, hheld', hkept⟩ := consolidateForward_spec hopen
    rw [hstop] at hok
    obtain ⟨m₃, hok₃, hsame₃, hmem₃, hinv⟩ := hfinish m₂ cs' p j (hsame.trans hsame₂) hsound
    refine ⟨m₃, ?_, (hsame.trans hsame₂).trans hsame₃, cs', hinv, ?_, ?_⟩
    · rw [hok]
      exact hok₃
    · rw [hheld']
      exact hheld
    · rw [hmem₃, hheld', ← hkeep]
      exact hkept
  unfold consolidate
  rw [hnext]
  dsimp only
  rcases hgap with ⟨hpin, hgap⟩ | ⟨hpin, _⟩
  · have hne : ¬ pinuse m.mem a = false := by
      rw [hpin]
      decide
    rw [if_neg hne]
    obtain ⟨l, hperm, hb⟩ := h.binned
    refine hforward m pre₀ a s post₀ (Same.refl m) rfl hlo (by omega) rfl ?_ ?_
    · constructor
      case gap => exact hgap
      case binned =>
        refine ⟨l, hb, .inl ⟨h.held_ne_dv hmem, ?_⟩⟩
        rw [hcs] at hperm
        simpa using hperm
      case dv_null => exact h.dv_null
      case least => exact h.least
      case lo_pos => exact h.lo_pos
      case external => exact h.external
    · rw [hcs]
      simp
  · rw [if_pos hpin, hmm, if_neg Bool.false_ne_true]
    obtain ⟨p, psize, done, m₁, pre, post, hok, hsame, hstop, hlo', hmin', hheld, hkept, hcase⟩ :=
      consolidateBackward_spec h hmem hpin
    rw [hok]
    rcases hcase with ⟨rfl, hkeep, hopen⟩ | ⟨rfl, cs', hinv, hheld'⟩
    · exact hforward m₁ pre p psize post hsame hkeep hlo' (by omega) hstop hopen hheld
    · refine ⟨m₁, rfl, hsame, cs', hinv, ?_, ?_⟩
      · rw [hheld']
        exact hheld
      · rw [hheld']
        exact hkept

/-- **`dispose_chunk`** frees a chunk in use. -/
theorem disposeChunk_spec (h : Inv lo limit m cs) (hmem : (s, a) ∈ held cs) :
    ∃ m', disposeChunk m a s = .ok m' ∧ Freed lo limit m cs s a m' := by
  refine consolidate_spec h hmem ?_ ?_
  · intro m' p hsame _ hlo hlt _
    have hleast := h.least
    rw [hsame.leastAddr]
    exact decide_eq_true (by omega)
  · intro m' cs' p j _ hsound
    cases j with
    | top tsize => exact ⟨m', rfl, Same.refl m', rfl, hsound⟩
    | dv => exact ⟨m', rfl, Same.refl m', rfl, hsound⟩
    | chunk psize => exact ⟨_, rfl, ⟨rfl, rfl, rfl, rfl, rfl⟩, rfl, Loosened.insertChunk hsound⟩

/-- An mspace over a region it was given never trims. -/
theorem sysTrim_spec (h : Inv lo limit m cs) (pad : Nat) :
    ∃ m', sysTrim m pad = .ok m' ∧ Same m m' ∧ m'.mem = m.mem ∧ Inv lo limit m' cs := by
  have hext : ¬ m.sflags &&& externBit = 0 := by
    rw [h.external]
    decide
  unfold sysTrim
  split
  · dsimp only
    rw [if_neg fun hc => hext hc.2]
    split <;>
      exact ⟨_, rfl, ⟨rfl, rfl, rfl, rfl, rfl⟩, rfl, h.arena, h.binned, h.dv_null, h.least,
        h.lo_pos, h.external⟩
  · exact ⟨m, rfl, Same.refl m, rfl, h⟩

/-- **`mspace_free`** frees a chunk in use. -/
theorem mspaceFree_spec (h : Inv lo limit m cs) (hmem : (s, a) ∈ held cs) :
    ∃ m', mspaceFree m (chunk2mem a) = .ok m' ∧ Freed lo limit m cs s a m' := by
  obtain ⟨hlo, hmin, htop, hsz, _, hin, _⟩ := Gap.of_held h.arena hmem
  have hleast := h.least
  have hback : mem2chunk (chunk2mem a) = a := Nat.add_sub_cancel _ _
  have hne : chunk2mem a ≠ 0 := Nat.succ_ne_zero _
  unfold mspaceFree
  rw [if_neg hne, hback]
  dsimp only
  rw [if_pos ⟨Nat.le_trans hleast hlo, hin⟩, hsz]
  refine consolidate_spec h hmem ?_ ?_
  · intro m' p _ hkeep _ hlt hpin
    rw [hkeep, hpin, Bool.and_true]
    exact decide_eq_true hlt
  · intro m' cs' p j _ hsound
    cases j with
    | top tsize =>
        rw [finishFree]
        split
        · exact sysTrim_spec hsound 0
        · exact ⟨m', rfl, Same.refl m', rfl, hsound⟩
    | dv => exact ⟨m', rfl, Same.refl m', rfl, hsound⟩
    | chunk psize =>
        have hinv := Loosened.insertChunk hsound
        rw [finishFree]
        unfold Bins.insertChunk at hinv
        split
        · rename_i hsmall
          rw [if_pos hsmall] at hinv
          exact ⟨_, rfl, ⟨rfl, rfl, rfl, rfl, rfl⟩, rfl, hinv⟩
        · rename_i hlarge
          rw [if_neg hlarge] at hinv
          obtain ⟨checks, hchecks⟩ : ∃ checks, sub m'.releaseChecks 1 = checks := ⟨_, rfl⟩
          rw [hchecks]
          dsimp only
          split <;>
            exact ⟨_, rfl, ⟨rfl, rfl, rfl, rfl, rfl⟩, rfl, hinv.arena, hinv.binned, hinv.dv_null,
              hinv.least, hinv.lo_pos, hinv.external⟩

end SkyEngine.Mspace
