import SkyEngine.Mspace.Chunks

/-!
# Mspace — Arena

The tagged memory of an mspace: chunks up to `top`, then `top` itself up to
the space kept at the end of the segment. One theorem for each way the code
rewrites it: a free chunk taken whole or split, a piece split off `top` or
off a chunk in use, and a gap made free again together with its free
neighbours.
-/

namespace SkyEngine.Mspace

/-! ## Free chunks and chunks in use -/

/-- Size and address of the free chunks. -/
def loose (cs : List Chunk) : List (Nat × Nat) :=
  cs.filterMap fun c => if c.inUse then none else some (c.size, c.addr)

/-- Size and address of the chunks in use. -/
def held (cs : List Chunk) : List (Nat × Nat) :=
  cs.filterMap fun c => if c.inUse then some (c.size, c.addr) else none

@[simp] theorem loose_nil : loose [] = [] := rfl

@[simp] theorem held_nil : held [] = [] := rfl

@[simp] theorem loose_append (xs ys : List Chunk) : loose (xs ++ ys) = loose xs ++ loose ys :=
  List.filterMap_append

@[simp] theorem held_append (xs ys : List Chunk) : held (xs ++ ys) = held xs ++ held ys :=
  List.filterMap_append

@[simp] theorem loose_free (a s : Nat) (cs : List Chunk) :
    loose (⟨a, s, false⟩ :: cs) = (s, a) :: loose cs := rfl

@[simp] theorem loose_inUse (a s : Nat) (cs : List Chunk) :
    loose (⟨a, s, true⟩ :: cs) = loose cs := rfl

@[simp] theorem held_inUse (a s : Nat) (cs : List Chunk) :
    held (⟨a, s, true⟩ :: cs) = (s, a) :: held cs := rfl

@[simp] theorem held_free (a s : Nat) (cs : List Chunk) :
    held (⟨a, s, false⟩ :: cs) = held cs := rfl

theorem mem_loose {cs : List Chunk} {s a : Nat} : (s, a) ∈ loose cs ↔ ⟨a, s, false⟩ ∈ cs := by
  constructor
  · intro h
    obtain ⟨⟨a', s', u⟩, hc, hval⟩ := List.mem_filterMap.mp h
    cases u with
    | true => cases hval
    | false =>
        cases hval
        exact hc
  · exact fun h => List.mem_filterMap.mpr ⟨_, h, rfl⟩

theorem mem_held {cs : List Chunk} {s a : Nat} : (s, a) ∈ held cs ↔ ⟨a, s, true⟩ ∈ cs := by
  constructor
  · intro h
    obtain ⟨⟨a', s', u⟩, hc, hval⟩ := List.mem_filterMap.mp h
    cases u with
    | false => cases hval
    | true =>
        cases hval
        exact hc
  · exact fun h => List.mem_filterMap.mpr ⟨_, h, rfl⟩

/-! ## What the macros write -/

section Writes

variable {w : Words} {p s n : Nat}

@[simp] theorem head_setHead (h : Nat) : head (setHead w p h) p = h := Function.update_self ..

theorem setHead_of_ne {h x : Nat} (hx : x ≠ p + 8) : setHead w p h x = w x :=
  Function.update_of_ne hx ..

theorem head_setHead_of_ne {h q : Nat} (hq : q ≠ p) : head (setHead w p h) q = head w q :=
  setHead_of_ne (by simp only [sizeTSize]; omega)

@[simp] theorem prevFoot_setFoot : prevFoot (setFoot w p s) (p + s) = s := Function.update_self ..

theorem setFoot_of_ne {x : Nat} (hx : x ≠ p + s) : setFoot w p s x = w x :=
  Function.update_of_ne hx ..

theorem head_setFoot_of_ne {q : Nat} (hq : q + 8 ≠ p + s) :
    head (setFoot w p s) q = head w q := setFoot_of_ne hq

/-- A free chunk's own words. -/
theorem setFree_spec (hs : s % 16 = 0) :
    head (setSizeAndPinuseOfFreeChunk w p s) p = headWord s true false
      ∧ prevFoot (setSizeAndPinuseOfFreeChunk w p s) (p + s) = s
      ∧ ∀ x, x ≠ p + 8 → x ≠ p + s → setSizeAndPinuseOfFreeChunk w p s x = w x := by
  refine ⟨?_, prevFoot_setFoot, fun x h1 h2 => ?_⟩
  · rw [setSizeAndPinuseOfFreeChunk, head_setFoot_of_ne (by omega), head_setHead,
      size_or_pinuse (by omega)]
  · rw [setSizeAndPinuseOfFreeChunk, setFoot_of_ne h2, setHead_of_ne h1]

theorem head_setPinuse : head (setPinuse w n) n = head w n ||| pinuseBit := head_setHead ..

theorem head_setPinuse_of_ne {q : Nat} (hq : q ≠ n) : head (setPinuse w n) q = head w q :=
  head_setHead_of_ne hq

end Writes

/-! ## What a client keeps in a chunk -/

/-- The words that are a client's in the chunks `l`, up to the foot of each,
are as they were. -/
def Untouched (w w' : Words) (l : List (Nat × Nat)) : Prop :=
  ∀ e ∈ l, ∀ x, e.2 + 16 ≤ x → x ≤ e.2 + e.1 → w' x = w x

section Untouched

variable {w w' w'' : Words} {l l' : List (Nat × Nat)}

theorem Untouched.refl (w : Words) (l : List (Nat × Nat)) : Untouched w w l :=
  fun _ _ _ _ _ => rfl

theorem Untouched.trans (h : Untouched w w' l) (h' : Untouched w' w'' l) : Untouched w w'' l :=
  fun e he x h1 h2 => (h' e he x h1 h2).trans (h e he x h1 h2)

theorem Untouched.subset (h : Untouched w w' l) (hsub : ∀ e ∈ l', e ∈ l) : Untouched w w' l' :=
  fun e he => h e (hsub e he)

theorem Untouched.append (h : Untouched w w' l) (h' : Untouched w w' l') :
    Untouched w w' (l ++ l') := by
  intro e he
  rcases List.mem_append.mp he with he | he
  · exact h e he
  · exact h' e he

variable {hi lo : Nat} {last prev : Bool} {cs : List Chunk}

/-- Writes from `hi` on leave the chunks before it alone. -/
theorem Walk.untouched_of_le (h : Walk w hi last prev lo cs) (hw : ∀ x ≤ hi, w' x = w x) :
    Untouched w w' (held cs) := by
  rintro ⟨s, a⟩ he x _ h2
  obtain ⟨_, hend, _, _⟩ := h.chunk_range (mem_held.mp he)
  exact hw x (Nat.le_trans h2 hend)

/-- Writes up to the head at `lo` leave the chunks from there on alone. -/
theorem Walk.untouched_of_lt (h : Walk w hi last prev lo cs) (hw : ∀ x, lo + 8 < x → w' x = w x) :
    Untouched w w' (held cs) := by
  rintro ⟨s, a⟩ he x h1 _
  obtain ⟨hlo, _, _, _⟩ := h.chunk_range (mem_held.mp he)
  refine hw x ?_
  have hlo : lo ≤ a := hlo
  have h1 : a + 16 ≤ x := h1
  omega

/-- Chunks in use do not overlap. -/
theorem Walk.held_apart (h : Walk w hi last prev lo cs) :
    (held cs).Pairwise fun e f => e.2 + e.1 ≤ f.2 := by
  induction cs generalizing prev lo with
  | nil => exact List.Pairwise.nil
  | cons c cs ih =>
      obtain ⟨a, s, u⟩ := c
      obtain ⟨haddr, _, _, _, _, hrest⟩ := h
      cases u with
      | false => exact ih hrest
      | true =>
          refine List.pairwise_cons.mpr ⟨fun e he => ?_, ih hrest⟩
          have hlo : lo + s ≤ e.2 := (hrest.chunk_range (mem_held.mp he)).1
          show a + s ≤ e.2
          rw [show a = lo from haddr]
          exact hlo

end Untouched

/-! ## The arena -/

/-- The chunks `cs` from `lo` to `top`, and `top` up to `limit`. -/
structure Arena (w : Words) (lo limit top topsize : Nat) (cs : List Chunk) : Prop where
  lo_aligned : lo % 16 = 0
  limit_aligned : limit % 16 = 0
  limit_lt : limit + 80 ≤ 2 ^ 64
  walk : Walk w top true true lo cs
  topHead : head w top = headWord topsize true false
  topEnd : top + topsize = limit
  topPos : 0 < topsize

namespace Arena

variable {w w' : Words} {lo limit top topsize : Nat} {cs : List Chunk}

theorem top_aligned (h : Arena w lo limit top topsize cs) : top % 16 = 0 :=
  h.walk.aligned h.lo_aligned

theorem topsize_aligned (h : Arena w lo limit top topsize cs) : topsize % 16 = 0 := by
  have htop := h.top_aligned
  have hlim := h.limit_aligned
  have hend := h.topEnd
  omega

/-- Another walk, the top being left alone. -/
theorem rewalk {cs' : List Chunk} (h : Arena w lo limit top topsize cs)
    (hwalk : Walk w' top true true lo cs') (htop : w' (top + 8) = w (top + 8)) :
    Arena w' lo limit top topsize cs' :=
  { h with walk := hwalk, topHead := htop.trans h.topHead }

/-- Where a chunk lies. -/
theorem chunk_range (h : Arena w lo limit top topsize cs) {a s : Nat} {u : Bool}
    (hc : ⟨a, s, u⟩ ∈ cs) : lo ≤ a ∧ a + s ≤ top ∧ 32 ≤ s ∧ s % 16 = 0 :=
  h.walk.chunk_range hc

/-- No two chunks start at the same address. -/
theorem addr_nodup (h : Arena w lo limit top topsize cs) : (cs.map Chunk.addr).Nodup :=
  h.walk.addr_increasing.imp fun hlt => Nat.ne_of_lt hlt

theorem loose_nodup (h : Arena w lo limit top topsize cs) : ((loose cs).map Prod.snd).Nodup := by
  refine h.addr_nodup.sublist ?_
  clear h
  induction cs with
  | nil => exact List.Sublist.refl _
  | cons c cs ih =>
      obtain ⟨a, s, u⟩ := c
      cases u with
      | true => exact ih.cons _
      | false => exact ih.cons_cons _

theorem loose_sized (h : Arena w lo limit top topsize cs) {e : Nat × Nat} (he : e ∈ loose cs) :
    lo ≤ e.2 ∧ e.2 + e.1 ≤ top ∧ 32 ≤ e.1 ∧ e.1 % 16 = 0 ∧ e.1 < 2 ^ 64 := by
  obtain ⟨h1, h2, h3, h4⟩ := h.chunk_range (mem_loose.mp he)
  have hlim := h.limit_lt
  have hend := h.topEnd
  exact ⟨h1, h2, h3, h4, by omega⟩

/-- A chunk among its neighbours. -/
theorem split (h : Arena w lo limit top topsize cs) {a s : Nat} {u : Bool}
    (hc : ⟨a, s, u⟩ ∈ cs) : ∃ pre post flag, cs = pre ++ ⟨a, s, u⟩ :: post
      ∧ Walk w a flag true lo pre ∧ head w a = headWord s flag u
      ∧ (u = false → flag = true) ∧ Walk w top true u (a + s) post := by
  obtain ⟨pre, post, rfl⟩ := List.append_of_mem hc
  obtain ⟨mid, flag, hpre, rfl, _, _, hhead, hfree, hpost⟩ := walk_append.mp h.walk
  exact ⟨pre, post, flag, rfl, hpre, hhead, fun hu => (hfree hu).1, hpost⟩

theorem addr_aligned (h : Arena w lo limit top topsize cs) {a s : Nat} {u : Bool}
    (hc : ⟨a, s, u⟩ ∈ cs) : a % 16 = 0 := by
  obtain ⟨_, _, _, _, hpre, _⟩ := h.split hc
  exact hpre.aligned h.lo_aligned

/-- **A write into a chunk in use** leaves the tags alone. -/
theorem writeHeld (h : Arena w lo limit top topsize cs) {s a x : Nat} (hmem : (s, a) ∈ held cs)
    (h1 : a + 16 ≤ x) (h2 : x ≤ a + s) (hw : ∀ y, y ≠ x → w' y = w y) :
    Arena w' lo limit top topsize cs := by
  rw [mem_held] at hmem
  obtain ⟨_, htop, hmin, hsize⟩ := h.chunk_range hmem
  obtain ⟨pre, post, flag, rfl, hpre, hhead, _, hpost⟩ := h.split hmem
  refine h.rewalk ?_ (hw _ (by omega))
  refine walk_append.mpr ⟨a, flag, hpre.frame fun y _ hy => hw y (by omega), rfl, hmin, hsize,
    (hw (a + 8) (by omega)).trans hhead, fun hc => (nomatch hc), ?_⟩
  exact hpost.frame fun y hy _ => hw y (by
    have hy : a + s < y := hy
    omega)

/-- **A free chunk is taken whole.** -/
theorem takeWhole (h : Arena w lo limit top topsize cs) {s a : Nat} (hmem : (s, a) ∈ loose cs) :
    ∃ cs', Arena (setInuseAndPinuse w a s) lo limit top topsize cs'
      ∧ (loose cs).Perm ((s, a) :: loose cs') ∧ (held cs').Perm ((s, a) :: held cs)
      ∧ Untouched w (setInuseAndPinuse w a s) (held cs) := by
  rw [mem_loose] at hmem
  obtain ⟨hlo, htop, hmin, hsize⟩ := h.chunk_range hmem
  obtain ⟨pre, post, flag, rfl, hpre, _, hflag, hpost⟩ := h.split hmem
  cases hflag rfl
  obtain ⟨n, rest, rfl, hn, hnext⟩ := hpost.first_in_use
  have hn' := hpost
  obtain ⟨_, hnmin, hnsize, hnhead, _, hrest⟩ := hn'
  have hle := hrest.le
  have hlim := h.limit_lt
  have hend := h.topEnd
  have hother : ∀ x, x ≠ a + 8 → x ≠ a + s + 8 → setInuseAndPinuse w a s x = w x := by
    intro x h1 h2
    rw [setInuseAndPinuse, setPinuse, setHead_of_ne h2, setHead_of_ne h1]
  have hself : head (setInuseAndPinuse w a s) a = headWord s true true := by
    rw [setInuseAndPinuse, head_setPinuse_of_ne (by omega), head_setHead,
      size_or_inuse (by omega)]
  have hafter : head (setInuseAndPinuse w a s) (a + s) = headWord n.size true true := by
    rw [setInuseAndPinuse, head_setPinuse, head_setHead_of_ne (by omega), hnhead, hn,
      headWord_or_pinuse (by omega)]
  refine ⟨pre ++ ⟨a, s, true⟩ :: n :: rest, h.rewalk ?_ (hother _ (by omega) (by omega)), ?_, ?_,
    ?_⟩
  · refine walk_append.mpr ⟨a, true, hpre.frame fun x h1 h2 => hother x (by omega) (by omega),
      rfl, hmin, hsize, hself, (fun hc => nomatch hc), ?_⟩
    exact hpost.reflag hn hafter fun x h1 h2 => hother x (by omega) (by omega)
  · simp
  · simp
  · rw [held_append, held_free]
    exact (hpre.untouched_of_le fun x hx => hother x (by omega) (by omega)).append
      (hpost.untouched_of_lt fun x hx => hother x (by omega) (by omega))

/-- **A free chunk is split**: the front is taken, the rest stays free. -/
theorem takeSplit (h : Arena w lo limit top topsize cs) {s a nb : Nat}
    (hmem : (s, a) ∈ loose cs) (hnb : 32 ≤ nb) (hnb16 : nb % 16 = 0) (hroom : nb + 32 ≤ s) :
    ∃ cs' F, Arena (setSizeAndPinuseOfFreeChunk (setSizeAndPinuseOfInuseChunk w a nb) (a + nb)
        (s - nb)) lo limit top topsize cs'
      ∧ (loose cs).Perm ((s, a) :: F) ∧ (loose cs').Perm ((s - nb, a + nb) :: F)
      ∧ (held cs').Perm ((nb, a) :: held cs)
      ∧ Untouched w (setSizeAndPinuseOfFreeChunk (setSizeAndPinuseOfInuseChunk w a nb) (a + nb)
        (s - nb)) (held cs) := by
  rw [mem_loose] at hmem
  obtain ⟨hlo, htop, hmin, hsize⟩ := h.chunk_range hmem
  obtain ⟨pre, post, flag, rfl, hpre, _, hflag, hpost⟩ := h.split hmem
  cases hflag rfl
  have ha := hpre.aligned h.lo_aligned
  have hstop : a + nb + (s - nb) = a + s := by omega
  obtain ⟨hrhead, hrfoot, hrother⟩ := setFree_spec (w := setSizeAndPinuseOfInuseChunk w a nb)
    (p := a + nb) (s := s - nb) (by omega)
  obtain ⟨w', hw'⟩ : ∃ w', setSizeAndPinuseOfFreeChunk (setSizeAndPinuseOfInuseChunk w a nb)
    (a + nb) (s - nb) = w' := ⟨_, rfl⟩
  rw [hw'] at hrhead hrfoot hrother ⊢
  have hother : ∀ x, x ≠ a + 8 → x ≠ a + nb + 8 → x ≠ a + s → w' x = w x := by
    intro x h1 h2 h3
    rw [hrother x h2 (by omega), setSizeAndPinuseOfInuseChunk, setHead_of_ne h1]
  have hself : head w' a = headWord nb true true := by
    have hkept : head w' a = head (setSizeAndPinuseOfInuseChunk w a nb) a :=
      hrother (a + 8) (by omega) (by omega)
    rw [hkept, setSizeAndPinuseOfInuseChunk, head_setHead, size_or_inuse (by omega)]
  have htop16 := h.top_aligned
  refine ⟨pre ++ ⟨a, nb, true⟩ :: ⟨a + nb, s - nb, false⟩ :: post, loose pre ++ loose post,
    h.rewalk ?_ (hother _ (by omega) (by omega) (by omega)), ?_, ?_, ?_, ?_⟩
  · refine walk_append.mpr ⟨a, true,
      hpre.frame fun x h1 h2 => hother x (by omega) (by omega) (by omega), rfl, hnb, hnb16,
      hself, (fun hc => nomatch hc), rfl, ?_, ?_, hrhead, (fun _ => ⟨rfl, hrfoot⟩), ?_⟩
    · show 32 ≤ s - nb
      omega
    · show (s - nb) % 16 = 0
      omega
    · show Walk w' top true false (a + nb + (s - nb)) post
      rw [hstop]
      exact hpost.frame fun x h1 h2 => hother x (by omega) (by omega) (by omega)
  · simp
  · simp
  · simp
  · rw [held_append, held_free]
    exact (hpre.untouched_of_le fun x hx => hother x (by omega) (by omega) (by omega)).append
      (hpost.untouched_of_lt fun x hx => hother x (by omega) (by omega) (by omega))

/-- **A piece is split off the top.** -/
theorem takeTop (h : Arena w lo limit top topsize cs) {nb : Nat} (hnb : 32 ≤ nb)
    (hnb16 : nb % 16 = 0) (hroom : nb < topsize) :
    Arena (setSizeAndPinuseOfInuseChunk (setHead w (top + nb) ((topsize - nb) ||| pinuseBit)) top
        nb) lo limit (top + nb) (topsize - nb) (cs ++ [⟨top, nb, true⟩])
      ∧ Untouched w (setSizeAndPinuseOfInuseChunk (setHead w (top + nb) ((topsize - nb) |||
        pinuseBit)) top nb) (held cs) := by
  have hend := h.topEnd
  have htop := h.topsize_aligned
  have hother : ∀ x, x ≠ top + 8 → x ≠ top + nb + 8 →
      setSizeAndPinuseOfInuseChunk (setHead w (top + nb) ((topsize - nb) ||| pinuseBit)) top nb x
        = w x := by
    intro x h1 h2
    rw [setSizeAndPinuseOfInuseChunk, setHead_of_ne h1, setHead_of_ne h2]
  refine ⟨?_, h.walk.untouched_of_le fun x hx => hother x (by omega) (by omega)⟩
  constructor
  case lo_aligned => exact h.lo_aligned
  case limit_aligned => exact h.limit_aligned
  case limit_lt => exact h.limit_lt
  case walk =>
    refine walk_append.mpr ⟨top, true,
      h.walk.frame fun x h1 h2 => hother x (by omega) (by omega), rfl, hnb, hnb16, ?_,
      fun hc => (nomatch hc), rfl, rfl⟩
    rw [setSizeAndPinuseOfInuseChunk, head_setHead, size_or_inuse (by omega)]
  case topHead =>
    rw [setSizeAndPinuseOfInuseChunk, head_setHead_of_ne (by omega), head_setHead,
      size_or_pinuse (by omega)]
  case topEnd => omega
  case topPos => omega

/-- **A chunk in use is split** into two in use. -/
theorem splitInuse (h : Arena w lo limit top topsize cs) {s a l : Nat}
    (hmem : (s, a) ∈ held cs) (hl : 32 ≤ l) (hl16 : l % 16 = 0) (hroom : l + 32 ≤ s)
    (hself : ∀ flag, head w a = headWord s flag true → head w' a = headWord l flag true)
    (hnew : head w' (a + l) = headWord (s - l) true true)
    (hother : ∀ x, x ≠ a + 8 → x ≠ a + l + 8 → w' x = w x) :
    ∃ cs', Arena w' lo limit top topsize cs' ∧ loose cs' = loose cs
      ∧ ∃ H, (held cs).Perm ((s, a) :: H) ∧ (held cs').Perm ((l, a) :: (s - l, a + l) :: H)
        ∧ Untouched w w' H := by
  rw [mem_held] at hmem
  obtain ⟨hlo, htop, hmin, hsize⟩ := h.chunk_range hmem
  obtain ⟨pre, post, flag, rfl, hpre, hhead, _, hpost⟩ := h.split hmem
  have hstop : a + l + (s - l) = a + s := by omega
  refine ⟨pre ++ ⟨a, l, true⟩ :: ⟨a + l, s - l, true⟩ :: post,
    h.rewalk ?_ (hother _ (by omega) (by omega)), by simp, held pre ++ held post, ?_, ?_, ?_⟩
  · refine walk_append.mpr ⟨a, flag, hpre.frame fun x h1 h2 => hother x (by omega) (by omega),
      rfl, hl, hl16, hself flag hhead, fun hc => (nomatch hc), rfl, ?_, ?_, hnew,
      fun hc => (nomatch hc), ?_⟩
    · show 32 ≤ s - l
      omega
    · show (s - l) % 16 = 0
      omega
    · show Walk w' top true true (a + l + (s - l)) post
      rw [hstop]
      exact hpost.frame fun x h1 h2 => hother x (by omega) (by omega)
  · simp
  · simpa using List.perm_middle.trans (List.Perm.cons _ List.perm_middle)
  · exact (hpre.untouched_of_le fun x hx => hother x (by omega) (by omega)).append
      (hpost.untouched_of_lt fun x hx => hother x (by omega) (by omega))

end Arena

/-! ## Making a stretch free -/

/-- A stretch of `psize` bytes from `p`, between the chunks `pre` and `post`
of an arena, that is about to become free. Both neighbours count it as in
use. -/
structure Gap (w : Words) (lo limit top topsize : Nat) (pre : List Chunk) (p psize : Nat)
    (post : List Chunk) : Prop where
  lo_aligned : lo % 16 = 0
  limit_aligned : limit % 16 = 0
  limit_lt : limit + 80 ≤ 2 ^ 64
  left : Walk w p true true lo pre
  right : Walk w top true true (p + psize) post
  min : 32 ≤ psize
  aligned : psize % 16 = 0
  topHead : head w top = headWord topsize true false
  topEnd : top + topsize = limit
  topPos : 0 < topsize

namespace Gap

variable {w : Words} {lo limit top topsize p psize : Nat} {pre post : List Chunk}

/-- Around a chunk in use: either the chunk before it is in use, or it is
free, tagged so, and the gap extends over both. -/
theorem of_held {cs : List Chunk} (h : Arena w lo limit top topsize cs) {s a : Nat}
    (hmem : (s, a) ∈ held cs) :
    lo ≤ a ∧ 32 ≤ s ∧ a + s ≤ top ∧ chunksize w a = s ∧ cinuse w a = true
      ∧ isInuse w a = true ∧ isMmapped w a = false
      ∧ ∃ pre post, cs = pre ++ ⟨a, s, true⟩ :: post
        ∧ ((pinuse w a = true ∧ Gap w lo limit top topsize pre a s post)
          ∨ (pinuse w a = false ∧ ∃ pre' d, pre = pre' ++ [d] ∧ d.inUse = false
            ∧ prevFoot w a = d.size ∧ d.addr + d.size = a ∧ lo ≤ d.addr
            ∧ Gap w lo limit top topsize pre' d.addr (d.size + s) post)) := by
  rw [mem_held] at hmem
  obtain ⟨hlo, htop, hmin, hsize⟩ := h.chunk_range hmem
  obtain ⟨pre, post, flag, rfl, hpre, hhead, _, hpost⟩ := h.split hmem
  have hlim := h.limit_lt
  have hend := h.topEnd
  have hs8 : s % 8 = 0 := by omega
  have hsz : chunksize w a = s := by
    rw [chunksize, hhead, headWord_size hs8 _ _ (by omega)]
  have hci : cinuse w a = true := by
    rw [cinuse, hhead, headWord_and_cinuse hs8]
    rfl
  have hin : isInuse w a = true := by
    rw [isInuse, hhead, headWord_and_inuse hs8]
    cases flag <;> rfl
  have hmm : isMmapped w a = false := by
    rw [isMmapped, hhead, headWord_and_inuse hs8]
    cases flag <;> rfl
  refine ⟨hlo, hmin, htop, hsz, hci, hin, hmm, pre, post, rfl, ?_⟩
  have hpi : pinuse w a = flag := by
    rw [pinuse, hhead, headWord_and_pinuse hs8]
    cases flag <;> rfl
  cases flag with
  | true =>
      refine .inl ⟨hpi, ?_⟩
      constructor
      case left => exact hpre
      case right => exact hpost
      case min => exact hmin
      case aligned => exact hsize
      case lo_aligned => exact h.lo_aligned
      case limit_aligned => exact h.limit_aligned
      case limit_lt => exact hlim
      case topHead => exact h.topHead
      case topEnd => exact hend
      case topPos => exact h.topPos
  | false =>
      obtain ⟨pre', d, rfl, hd, hdend, hfoot, hpre'⟩ := hpre.last_free
      have hrange : lo ≤ d.addr ∧ d.addr + d.size ≤ a ∧ 32 ≤ d.size ∧ d.size % 16 = 0 :=
        hpre.chunk_range (by simp)
      refine .inr ⟨hpi, pre', d, rfl, hd, hfoot, hdend, hrange.1, ?_⟩
      constructor
      case left => exact hpre'
      case right =>
        have hshift : d.addr + (d.size + s) = a + s := by omega
        rw [hshift]
        exact hpost
      case min => omega
      case aligned => omega
      case lo_aligned => exact h.lo_aligned
      case limit_aligned => exact h.limit_aligned
      case limit_lt => exact hlim
      case topHead => exact h.topHead
      case topEnd => exact hend
      case topPos => exact h.topPos

/-- What comes after the gap, as its tag tells. -/
theorem next (h : Gap w lo limit top topsize pre p psize post) :
    pinuse w (p + psize) = true
      ∧ ((post = [] ∧ p + psize = top ∧ cinuse w (p + psize) = false)
        ∨ ∃ n rest, post = n :: rest ∧ n.addr = p + psize ∧ p + psize ≠ top
          ∧ cinuse w (p + psize) = n.inUse ∧ chunksize w (p + psize) = n.size
          ∧ p + psize + n.size ≤ top) := by
  have htop : topsize % 8 = 0 := by
    have h1 := h.right.aligned (by
      have h2 := h.left.aligned h.lo_aligned
      have h3 := h.aligned
      omega)
    have h2 := h.limit_aligned
    have h3 := h.topEnd
    omega
  have hlim := h.limit_lt
  have hend := h.topEnd
  cases post with
  | nil =>
      obtain ⟨hp, _⟩ := h.right
      have hhead := h.topHead
      rw [← hp] at hhead
      refine ⟨?_, .inl ⟨rfl, hp, ?_⟩⟩
      · rw [pinuse, hhead, headWord_and_pinuse htop]
        rfl
      · rw [cinuse, hhead, headWord_and_cinuse htop]
        rfl
  | cons n rest =>
      obtain ⟨haddr, hmin, hsize, hhead, _, hrest⟩ := h.right
      have hle := hrest.le
      have hn8 : n.size % 8 = 0 := by omega
      refine ⟨?_, .inr ⟨n, rest, rfl, haddr, by omega, ?_, ?_, hle⟩⟩
      · rw [pinuse, hhead, headWord_and_pinuse hn8]
        rfl
      · rw [cinuse, hhead, headWord_and_cinuse hn8]
        cases n.inUse <;> rfl
      · rw [chunksize, hhead, headWord_size hn8 _ _ (by omega)]

/-- Only the chunk after the gap starts where the gap ends. -/
theorem next_size {n : Chunk} {rest : List Chunk}
    (h : Gap w lo limit top topsize pre p psize (n :: rest)) {t : Nat}
    (hmem : (t, p + psize) ∈ loose (pre ++ n :: rest)) : t = n.size := by
  have hmin := h.min
  obtain ⟨_, hnmin, _, _, _, hrest⟩ := h.right
  rcases List.mem_append.mp (mem_loose.mp hmem) with hpre | hpost
  · have hend : p + psize + t ≤ p := (h.left.chunk_range hpre).2.1
    omega
  · rcases List.mem_cons.mp hpost with rfl | hpost
    · rfl
    · have hlo : p + psize + n.size ≤ p + psize := (hrest.chunk_range hpost).1
      omega

/-- **The gap becomes a free chunk** before one in use. -/
theorem fill {n : Chunk} {rest : List Chunk}
    (h : Gap w lo limit top topsize pre p psize (n :: rest)) (hn : n.inUse = true) :
    Arena (setFreeWithPinuse w p psize (p + psize)) lo limit top topsize
      (pre ++ ⟨p, psize, false⟩ :: n :: rest)
      ∧ Untouched w (setFreeWithPinuse w p psize (p + psize)) (held (pre ++ n :: rest)) := by
  obtain ⟨haddr, hnmin, hnsize, hnhead, _, hrest⟩ := h.right
  have hp := h.left.aligned h.lo_aligned
  have hal := h.aligned
  have hmin := h.min
  have hlim := h.limit_lt
  have hend := h.topEnd
  have hle := hrest.le
  have htop := hrest.aligned (by omega)
  obtain ⟨hhead, hfoot, hother⟩ := setFree_spec (w := clearPinuse w (p + psize)) (p := p) hal
  have hrest' : ∀ x, x ≠ p + 8 → x ≠ p + psize → x ≠ p + psize + 8 →
      setFreeWithPinuse w p psize (p + psize) x = w x := by
    intro x h1 h2 h3
    rw [setFreeWithPinuse, hother x h1 h2, clearPinuse, setHead_of_ne h3]
  have hnext : head (setFreeWithPinuse w p psize (p + psize)) (p + psize)
      = headWord n.size false true := by
    have hkept : head (setFreeWithPinuse w p psize (p + psize)) (p + psize)
        = head (clearPinuse w (p + psize)) (p + psize) :=
      hother (p + psize + 8) (by omega) (by omega)
    rw [hkept, clearPinuse, head_setHead, hnhead, hn, headWord_clear (by omega) _ _ (by omega)]
  refine ⟨?_, ?_⟩
  case refine_2 =>
    rw [held_append]
    exact (h.left.untouched_of_le fun x hx => hrest' x (by omega) (by omega) (by omega)).append
      (h.right.untouched_of_lt fun x hx => hrest' x (by omega) (by omega) (by omega))
  constructor
  case walk =>
    refine walk_append.mpr ⟨p, true,
      h.left.frame fun x h1 h2 => hrest' x (by omega) (by omega) (by omega), rfl, hmin, hal,
      hhead, (fun _ => ⟨rfl, hfoot⟩), ?_⟩
    exact h.right.reflag hn hnext fun x h1 h2 => hrest' x (by omega) (by omega) (by omega)
  case topHead =>
    have hkept : head (setFreeWithPinuse w p psize (p + psize)) top = head w top :=
      hrest' (top + 8) (by omega) (by omega) (by omega)
    rw [hkept, h.topHead]
  case lo_aligned => exact h.lo_aligned
  case limit_aligned => exact h.limit_aligned
  case limit_lt => exact hlim
  case topEnd => exact hend
  case topPos => exact h.topPos

/-- **The gap joins the free chunk after it.** -/
theorem fillNext {n : Chunk} {rest : List Chunk}
    (h : Gap w lo limit top topsize pre p psize (n :: rest)) (hn : n.inUse = false) :
    Arena (setSizeAndPinuseOfFreeChunk w p (psize + n.size)) lo limit top topsize
      (pre ++ ⟨p, psize + n.size, false⟩ :: rest)
      ∧ Untouched w (setSizeAndPinuseOfFreeChunk w p (psize + n.size)) (held (pre ++ rest)) := by
  obtain ⟨haddr, hnmin, hnsize, hnhead, _, hrest⟩ := h.right
  have hp := h.left.aligned h.lo_aligned
  have hal := h.aligned
  have hmin := h.min
  have hlim := h.limit_lt
  have hend := h.topEnd
  have hle := hrest.le
  have htop := hrest.aligned (by omega)
  obtain ⟨hhead, hfoot, hother⟩ := setFree_spec (w := w) (p := p) (s := psize + n.size) (by omega)
  have hshift : p + (psize + n.size) = p + psize + n.size := by omega
  refine ⟨?_, ?_⟩
  case refine_2 =>
    rw [held_append]
    exact (h.left.untouched_of_le fun x hx => hother x (by omega) (by omega)).append
      (hrest.untouched_of_lt fun x hx => hother x (by omega) (by omega))
  constructor
  case walk =>
    refine walk_append.mpr ⟨p, true, h.left.frame fun x h1 h2 => hother x (by omega) (by omega),
      rfl, ?_, ?_, hhead, (fun _ => ⟨rfl, hfoot⟩), ?_⟩
    · show 32 ≤ psize + n.size
      omega
    · show (psize + n.size) % 16 = 0
      omega
    · show Walk _ top true false (p + (psize + n.size)) rest
      rw [hn] at hrest
      rw [hshift]
      exact hrest.frame fun x h1 h2 => hother x (by omega) (by omega)
  case topHead =>
    have hkept : head (setSizeAndPinuseOfFreeChunk w p (psize + n.size)) top = head w top :=
      hother (top + 8) (by omega) (by omega)
    rw [hkept, h.topHead]
  case lo_aligned => exact h.lo_aligned
  case limit_aligned => exact h.limit_aligned
  case limit_lt => exact hlim
  case topEnd => exact hend
  case topPos => exact h.topPos

/-- **The gap joins the top.** -/
theorem fillTop (h : Gap w lo limit top topsize pre p psize []) :
    Arena (setHead w p ((topsize + psize) ||| pinuseBit)) lo limit p (topsize + psize) pre
      ∧ Untouched w (setHead w p ((topsize + psize) ||| pinuseBit)) (held pre) := by
  obtain ⟨hp, _⟩ := h.right
  have hpal := h.left.aligned h.lo_aligned
  have hal := h.aligned
  have hlim := h.limit_aligned
  have hend := h.topEnd
  have hpos := h.topPos
  refine ⟨?_, h.left.untouched_of_le fun x hx => setHead_of_ne (by omega)⟩
  constructor
  case walk => exact h.left.frame fun x h1 h2 => setHead_of_ne (by omega)
  case topHead => rw [head_setHead, size_or_pinuse (by omega)]
  case topEnd => omega
  case topPos => omega
  case lo_aligned => exact h.lo_aligned
  case limit_aligned => exact hlim
  case limit_lt => exact h.limit_lt

end Gap

end SkyEngine.Mspace
