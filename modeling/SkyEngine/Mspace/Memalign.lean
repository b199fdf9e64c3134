import SkyEngine.Mspace.Free
import SkyEngine.Mspace.Malloc
import Mathlib.Data.Nat.Log
import Mathlib.Tactic.Ring

/-!
# Mspace — Memalign

`mspace_memalign`: a larger chunk is allocated, and what lies before the
aligned address in it and behind the request is given back. An alignment
that is no power of two is rounded up to one, by doubling.
-/

namespace SkyEngine.Mspace

open Word64

/-! ## The code -/

/-- `while (a < alignment) a <<= 1`. A word is doubled away in 64 rounds, and
0 is below every alignment there is. -/
def doubleUntil : Nat → Nat → Nat → Except Halt Nat
  | 0, _, _ => .error .hang
  | fuel + 1, a, alignment =>
      if a < alignment then doubleUntil fuel (shl a 1) alignment else .ok a

/-- At least a minimum chunk size, and a power of 2. -/
def powerAlign (alignment : Nat) : Except Halt Nat :=
  let alignment := if alignment < minChunkSize then minChunkSize else alignment
  if alignment &&& (alignment - 1) ≠ 0 then doubleUntil 64 (shl mallocAlignment 1) alignment
  else .ok alignment

/-- Find an aligned spot inside the misaligned chunk `p`, and give back the
leader. -/
def splitLeader (m : Mstate) (mem p alignment : Nat) : Except Halt (Nat × Mstate) :=
  let br := mem2chunk (sub (add mem alignment) 1 &&& neg alignment)
  let pos := if sub br p ≥ minChunkSize then br else add br alignment
  let leadsize := sub pos p
  let newsize := sub (chunksize m.mem p) leadsize
  if isMmapped m.mem p then
    let w := Function.update m.mem pos (add (prevFoot m.mem p) leadsize)
    .ok (pos, { m with mem := setHead w pos newsize })
  else do
    let w := setInuse (setInuse m.mem pos newsize) p leadsize
    let m ← disposeChunk { m with mem := w } p leadsize
    .ok (pos, m)

def alignLeader (m : Mstate) (mem p alignment : Nat) : Except Halt (Nat × Mstate) :=
  if mem &&& (alignment - 1) ≠ 0 then splitLeader m mem p alignment else .ok (p, m)

/-- Give back spare room at the end. -/
def giveBackTail (m : Mstate) (p nb : Nat) : Except Halt Mstate :=
  if isMmapped m.mem p then .ok m
  else
    let size := chunksize m.mem p
    if size > nb + minChunkSize then
      let remainderSize := size - nb
      let remainder := p + nb
      let w := setInuse (setInuse m.mem p nb) remainder remainderSize
      disposeChunk { m with mem := w } remainder remainderSize
    else .ok m

/-- Allocate for the worst case and cut out the aligned part. -/
def alignedMalloc (pr : Mparams) (m : Mstate) (alignment nb : Nat) :
    Except Halt (Option Nat × Mstate) := do
  let req := sub (add (add nb alignment) minChunkSize) chunkOverhead
  match ← mspaceMalloc pr m req with
  | (none, m) => .ok (none, m)
  | (some mem, m) =>
      let p := mem2chunk mem
      let (p, m) ← alignLeader m mem p alignment
      let m ← giveBackTail m p nb
      .ok (some (chunk2mem p), m)

def internalMemalign (pr : Mparams) (m : Mstate) (alignment bytes : Nat) :
    Except Halt (Option Nat × Mstate) := do
  let alignment ← powerAlign alignment
  if bytes ≥ sub maxRequest alignment then .ok (none, m)
  else alignedMalloc pr m alignment (request2size bytes)

def mspaceMemalign (pr : Mparams) (m : Mstate) (alignment bytes : Nat) :
    Except Halt (Option Nat × Mstate) :=
  if alignment ≤ mallocAlignment then mspaceMalloc pr m bytes
  else internalMemalign pr m alignment bytes

/-! ## The alignment -/

theorem shl_two_pow {i : Nat} (hi : i < 63) : shl (2 ^ i) 1 = 2 ^ (i + 1) := by
  rw [shl, Nat.shiftLeft_eq, ← Nat.pow_add]
  exact Nat.mod_eq_of_lt (Nat.pow_lt_pow_right (by decide) (by omega))

/-- **Doubling ends** at the first power of two that is no less. -/
theorem doubleUntil_spec {alignment : Nat} (h : alignment ≤ 2 ^ 63) {fuel i : Nat} (hi : i ≤ 63)
    (hfuel : 63 - i < fuel) :
    ∃ k, i ≤ k ∧ k ≤ 63 ∧ doubleUntil fuel (2 ^ i) alignment = .ok (2 ^ k) ∧ alignment ≤ 2 ^ k
      ∧ (k = i ∨ 2 ^ k < 2 * alignment) := by
  induction fuel generalizing i with
  | zero => omega
  | succ fuel ih =>
      rw [doubleUntil]
      by_cases hlt : 2 ^ i < alignment
      · have hi63 : i < 63 := by
          by_contra hge
          have heq : i = 63 := by omega
          rw [heq] at hlt
          omega
        rw [if_pos hlt, shl_two_pow hi63]
        obtain ⟨k, hik, hk, hok, hle, hsharp⟩ := ih (i := i + 1) (by omega) (by omega)
        refine ⟨k, by omega, hk, hok, hle, .inr ?_⟩
        rcases hsharp with rfl | hsharp
        · rw [Nat.pow_succ]
          omega
        · exact hsharp
      · exact ⟨i, Nat.le_refl i, hi, if_neg hlt, Nat.le_of_not_lt hlt, .inl rfl⟩

/-- **Past 2^63 doubling never ends**, whatever the number of rounds. -/
theorem doubleUntil_hang {alignment : Nat} (h : 2 ^ 63 < alignment) (fuel : Nat) {a : Nat}
    (ha : a = 0 ∨ ∃ i ≤ 63, a = 2 ^ i) : doubleUntil fuel a alignment = .error .hang := by
  induction fuel generalizing a with
  | zero => rfl
  | succ fuel ih =>
      have hlt : a < alignment := by
        rcases ha with rfl | ⟨i, hi, rfl⟩
        · omega
        · have hle : 2 ^ i ≤ 2 ^ 63 := Nat.pow_le_pow_right (by decide) hi
          omega
      rw [doubleUntil, if_pos hlt]
      refine ih ?_
      rcases ha with rfl | ⟨i, hi, rfl⟩
      · exact .inl rfl
      · rcases Nat.lt_or_eq_of_le hi with hi | rfl
        · exact .inr ⟨i + 1, hi, shl_two_pow hi⟩
        · exact .inl (by decide)

/-- The alignment worked with: a power of two, at least the one asked for and
less than twice that, unless it is the least there is. -/
theorem powerAlign_spec {alignment : Nat} (h : alignment ≤ 2 ^ 63) :
    ∃ k, 5 ≤ k ∧ k ≤ 63 ∧ powerAlign alignment = .ok (2 ^ k) ∧ alignment ≤ 2 ^ k
      ∧ (k = 5 ∨ 2 ^ k < 2 * alignment) := by
  have hmin : minChunkSize = 2 ^ 5 := rfl
  have hstart : shl mallocAlignment 1 = 2 ^ 5 := by decide
  unfold powerAlign
  rw [hmin, hstart]
  by_cases hsmall : alignment < 2 ^ 5
  · rw [if_pos hsmall]
    exact ⟨5, Nat.le_refl 5, by decide, by decide, Nat.le_of_lt hsmall, .inl rfl⟩
  · rw [if_neg hsmall]
    dsimp only
    by_cases hpow : alignment &&& (alignment - 1) = 0
    · have hne : alignment ≠ 0 := by omega
      obtain ⟨k, rfl⟩ := (Nat.and_sub_one_eq_zero_iff_isPowerOfTwo hne).mp hpow
      rw [if_neg (not_not.mpr hpow)]
      have hpos := Nat.two_pow_pos k
      refine ⟨k, ?_, ?_, rfl, Nat.le_refl _, .inr (by omega)⟩
      · exact (Nat.pow_le_pow_iff_right (by decide)).mp (Nat.le_of_not_lt hsmall)
      · exact (Nat.pow_le_pow_iff_right (by decide)).mp h
    · rw [if_pos hpow]
      exact doubleUntil_spec h (by decide) (by decide)

/-- The least power of two that is no less than the alignment and a minimum
chunk. -/
def powerAbove (alignment : Nat) : Nat := 2 ^ Nat.clog 2 (max minChunkSize alignment)

theorem powerAbove_eq {alignment k : Nat} (hk : 5 ≤ k) (hle : alignment ≤ 2 ^ k)
    (hsharp : k = 5 ∨ 2 ^ k < 2 * alignment) : powerAbove alignment = 2 ^ k := by
  have hmin : minChunkSize = 2 ^ 5 := rfl
  have h32 : 2 ^ 5 ≤ 2 ^ k := Nat.pow_le_pow_right (by decide) hk
  unfold powerAbove
  congr 1
  refine Nat.le_antisymm ?_ ?_
  · exact (Nat.clog_le_iff_le_pow (by decide)).mpr (by omega)
  · -- a smaller power is less than one of the two
    obtain ⟨j, rfl⟩ : ∃ j, k = j + 1 := ⟨k - 1, by omega⟩
    refine (Nat.lt_clog_iff_pow_lt (by decide)).mpr ?_
    rcases hsharp with hfive | hlt
    · have hj : j = 4 := by omega
      rw [hj, hmin]
      omega
    · rw [Nat.pow_succ] at hlt
      omega

/-- **An alignment past 2^63 hangs** the call. -/
theorem powerAlign_hang {alignment : Nat} (h : 2 ^ 63 < alignment) (hlt : alignment < 2 ^ 64) :
    powerAlign alignment = .error .hang := by
  have hmin : minChunkSize = 2 ^ 5 := rfl
  have hstart : shl mallocAlignment 1 = 2 ^ 5 := by decide
  have hsmall : ¬ alignment < 2 ^ 5 := by omega
  unfold powerAlign
  rw [hmin, hstart, if_neg hsmall]
  have hpow : alignment &&& (alignment - 1) ≠ 0 := by
    intro hzero
    obtain ⟨k, rfl⟩ := (Nat.and_sub_one_eq_zero_iff_isPowerOfTwo (by omega)).mp hzero
    have h1 := (Nat.pow_lt_pow_iff_right (by decide)).mp h
    have h2 := (Nat.pow_lt_pow_iff_right (by decide)).mp hlt
    omega
  dsimp only
  rw [if_pos hpow]
  exact doubleUntil_hang h 64 (.inr ⟨5, by decide, rfl⟩)

/-! ## Splitting a chunk in use -/

section Split

variable {w : Words} {a l s : Nat} {flag : Bool}

theorem setInuse_of_ne {p s x : Nat} (h1 : x ≠ p + 8) (h2 : x ≠ p + s + 8) :
    setInuse w p s x = w x := by
  rw [setInuse, setPinuse, setHead_of_ne h2, setHead_of_ne h1]

theorem head_setInuse {p s : Nat} (hs : 0 < s) :
    head (setInuse w p s) p = (head w p &&& pinuseBit) ||| s ||| cinuseBit := by
  rw [setInuse, head_setPinuse_of_ne (by omega), head_setHead]

theorem head_setInuse_next {p s : Nat} (hs : 0 < s) :
    head (setInuse w p s) (p + s) = head w (p + s) ||| pinuseBit := by
  rw [setInuse, head_setPinuse, head_setHead_of_ne (by omega)]

theorem pinuseBit_cases (x : Nat) : ∃ b : Bool, x &&& pinuseBit = b.toNat := by
  have hmod : x &&& pinuseBit = x % 2 := and_low x 1
  rcases Nat.mod_two_eq_zero_or_one x with h0 | h1
  · exact ⟨false, hmod.trans h0⟩
  · exact ⟨true, hmod.trans h1⟩

/-- Whatever a word held, it becomes the head of a chunk behind one in use if
its pinuse bit is set before the size goes in, -/
theorem head_of_set (x : Nat) (hs : s % 8 = 0) :
    ((x ||| pinuseBit) &&& pinuseBit) ||| s ||| cinuseBit = headWord s true true := by
  have hbit : (x ||| pinuseBit) &&& pinuseBit = true.toNat := by
    obtain ⟨b, hb⟩ := pinuseBit_cases x
    rw [Nat.and_or_distrib_right, hb]
    cases b <;> rfl
  rw [hbit, pinuse_or_inuse hs]

/-- or after that. -/
theorem set_of_head (x : Nat) (hs : s % 8 = 0) :
    ((x &&& pinuseBit) ||| s ||| cinuseBit) ||| pinuseBit = headWord s true true := by
  obtain ⟨b, hb⟩ := pinuseBit_cases x
  rw [hb, pinuse_or_inuse hs, headWord_or_pinuse hs]

theorem head_of_head {t : Nat} (hs : s % 8 = 0) (ht : t % 8 = 0) (c : Bool) :
    (headWord t flag c &&& pinuseBit) ||| s ||| cinuseBit = headWord s flag true := by
  rw [headWord_and_pinuse ht, pinuse_or_inuse hs]

/-- **Splitting a chunk in use** by two `set_inuse`, in either order. -/
theorem split_spec (hl : 32 ≤ l) (hl8 : l % 8 = 0) (hroom : l + 32 ≤ s) (hs8 : s % 8 = 0)
    (hnext : head w (a + s) ||| pinuseBit = head w (a + s)) {w' : Words}
    (hw' : w' = setInuse (setInuse w (a + l) (s - l)) a l
      ∨ w' = setInuse (setInuse w a l) (a + l) (s - l)) :
    (∀ flag, head w a = headWord s flag true → head w' a = headWord l flag true)
      ∧ head w' (a + l) = headWord (s - l) true true
      ∧ ∀ x, x ≠ a + 8 → x ≠ a + l + 8 → w' x = w x := by
  have hstop : a + l + (s - l) = a + s := by omega
  have hrest8 : (s - l) % 8 = 0 := by omega
  have hafter : setInuse w (a + l) (s - l) (a + s + 8) = w (a + s + 8) := by
    have hset := head_setInuse_next (w := w) (p := a + l) (s := s - l) (by omega)
    rw [hstop, hnext] at hset
    exact hset
  rcases hw' with rfl | rfl
  · refine ⟨fun flag hhead => ?_, ?_, fun x h1 h2 => ?_⟩
    · have hkept : head (setInuse w (a + l) (s - l)) a = head w a :=
        setInuse_of_ne (by simp only [sizeTSize]; omega) (by simp only [sizeTSize]; omega)
      rw [head_setInuse (by omega), hkept, hhead, head_of_head hl8 hs8]
    · rw [head_setInuse_next (by omega), head_setInuse (by omega), set_of_head _ hrest8]
    · rw [setInuse_of_ne h1 h2]
      by_cases hx : x = a + s + 8
      · rw [hx, hafter]
      · exact setInuse_of_ne h2 (by omega)
  · have hafter' : setInuse (setInuse w a l) (a + l) (s - l) (a + s + 8) = w (a + s + 8) := by
      have hset := head_setInuse_next (w := setInuse w a l) (p := a + l) (s := s - l) (by omega)
      have hkept : head (setInuse w a l) (a + s) = head w (a + s) :=
        setInuse_of_ne (by simp only [sizeTSize]; omega) (by simp only [sizeTSize]; omega)
      rw [hstop, hkept, hnext] at hset
      exact hset
    refine ⟨fun flag hhead => ?_, ?_, fun x h1 h2 => ?_⟩
    · have hkept : head (setInuse (setInuse w a l) (a + l) (s - l)) a = head (setInuse w a l) a :=
        setInuse_of_ne (by simp only [sizeTSize]; omega) (by simp only [sizeTSize]; omega)
      rw [hkept, head_setInuse (by omega), hhead, head_of_head hl8 hs8]
    · rw [head_setInuse (by omega), head_setInuse_next (by omega), head_of_set _ hrest8]
    · by_cases hx : x = a + s + 8
      · rw [hx, hafter']
      · rw [setInuse_of_ne h2 (by omega), setInuse_of_ne h1 (by omega)]

end Split

variable {lo limit : Nat} {m : Mstate} {cs : List Chunk} {s a l nb : Nat}

/-- What follows a chunk in use knows it. -/
theorem next_pinuse (h : Inv lo limit m cs) (hmem : (s, a) ∈ held cs) :
    head m.mem (a + s) ||| pinuseBit = head m.mem (a + s) := by
  rw [mem_held] at hmem
  obtain ⟨pre, post, flag, rfl, _, _, _, hpost⟩ := h.arena.split hmem
  cases post with
  | nil =>
      have htop := h.arena.topHead
      have h16 := h.arena.topsize_aligned
      rw [← hpost.1] at htop
      rw [htop, headWord_or_pinuse (by omega)]
  | cons n rest =>
      obtain ⟨_, _, hn16, hhead, _, _⟩ := hpost
      rw [hhead, headWord_or_pinuse (by omega)]

/-- **A chunk in use becomes two**, and the one at `q` is given back. -/
theorem disposeSplit_spec (h : Inv lo limit m cs) (hmem : (s, a) ∈ held cs) (hl : 32 ≤ l)
    (hl16 : l % 16 = 0) (hroom : l + 32 ≤ s) {w' : Words}
    (hw' : w' = setInuse (setInuse m.mem (a + l) (s - l)) a l
      ∨ w' = setInuse (setInuse m.mem a l) (a + l) (s - l)) :
    ∃ H, (held cs).Perm ((s, a) :: H) ∧
      (∃ m', disposeChunk { m with mem := w' } a l = .ok m' ∧ Same m m' ∧ ∃ cs',
        Inv lo limit m' cs' ∧ (held cs').Perm ((s - l, a + l) :: H) ∧ Untouched m.mem m'.mem H)
      ∧ ∃ m', disposeChunk { m with mem := w' } (a + l) (s - l) = .ok m' ∧ Same m m' ∧ ∃ cs',
        Inv lo limit m' cs' ∧ (held cs').Perm ((l, a) :: H) ∧ Untouched m.mem m'.mem H := by
  have hrange := h.arena.chunk_range (mem_held.mp hmem)
  obtain ⟨hself, hnew, hother⟩ := split_spec hl (by omega) hroom (by omega) (next_pinuse h hmem) hw'
  obtain ⟨cs₁, harena, hloose, H, hheld, hheld₁, hkept⟩ :=
    h.arena.splitInuse hmem hl hl16 hroom hself hnew hother
  have hinv : Inv lo limit { m with mem := w' } cs₁ := by
    constructor
    case arena => exact harena
    case binned =>
      obtain ⟨b, hperm, hb⟩ := h.binned
      exact ⟨b, hloose ▸ hperm, hb⟩
    case dv_null => exact h.dv_null
    case least => exact h.least
    case lo_pos => exact h.lo_pos
    case external => exact h.external
  refine ⟨H, hheld, ?_, ?_⟩
  · obtain ⟨m', hok, ⟨h1, h2, h3, h4, h5⟩, cs', hinv', hheld', hkept'⟩ :=
      disposeChunk_spec hinv (hheld₁.mem_iff.mpr List.mem_cons_self)
    have hrest := (List.perm_cons _).mp (hheld₁.symm.trans hheld')
    refine ⟨m', hok, ⟨h1, h2, h3, h4, h5⟩, cs', hinv', hrest.symm, hkept.trans ?_⟩
    exact hkept'.subset fun e he => hrest.mem_iff.mp (List.mem_cons_of_mem _ he)
  · obtain ⟨m', hok, ⟨h1, h2, h3, h4, h5⟩, cs', hinv', hheld', hkept'⟩ :=
      disposeChunk_spec hinv (hheld₁.mem_iff.mpr (List.mem_cons_of_mem _ List.mem_cons_self))
    have hrest := (List.perm_cons _).mp
      ((List.Perm.swap _ _ _).trans (hheld₁.symm.trans hheld'))
    refine ⟨m', hok, ⟨h1, h2, h3, h4, h5⟩, cs', hinv', hrest.symm, hkept.trans ?_⟩
    exact hkept'.subset fun e he => hrest.mem_iff.mp (List.mem_cons_of_mem _ he)

/-! ## Cutting a chunk to size -/

/-- In the place of the chunk in use `e` there is now `e'`; the others are
as they were. -/
def Recut (lo limit : Nat) (m : Mstate) (cs : List Chunk) (e : Nat × Nat) (m' : Mstate)
    (cs' : List Chunk) (e' : Nat × Nat) : Prop :=
  Same m m' ∧ Inv lo limit m' cs' ∧ ∃ H, (held cs).Perm (e :: H) ∧ (held cs').Perm (e' :: H)
    ∧ Untouched m.mem m'.mem H

theorem Recut.refl (h : Inv lo limit m cs) {e : Nat × Nat} (he : e ∈ held cs) :
    Recut lo limit m cs e m cs e :=
  ⟨Same.refl m, h, _, List.perm_cons_erase he, List.perm_cons_erase he, Untouched.refl _ _⟩

theorem Recut.trans {m' m'' : Mstate} {cs' cs'' : List Chunk} {e e' e'' : Nat × Nat}
    (h : Recut lo limit m cs e m' cs' e') (h' : Recut lo limit m' cs' e' m'' cs'' e'') :
    Recut lo limit m cs e m'' cs'' e'' := by
  obtain ⟨hsame, _, H, hfrom, hto, hkept⟩ := h
  obtain ⟨hsame', hinv, H', hfrom', hto', hkept'⟩ := h'
  have hH : H.Perm H' := (List.perm_cons _).mp (hto.symm.trans hfrom')
  refine ⟨hsame.trans hsame', hinv, H, hfrom, hto'.trans (hH.symm.cons _), hkept.trans ?_⟩
  exact hkept'.subset fun e he => hH.mem_iff.mp he

/-- A chunk just handed out is cut to size. -/
theorem Recut.served {m' m'' : Mstate} {cs' cs'' : List Chunk} {p p' s' : Nat}
    (h : Recut lo limit m' cs' (s, p) m'' cs'' (s', p')) (hsame : Same m m')
    (hheld : (held cs').Perm ((s, p) :: held cs)) (hkept : Untouched m.mem m'.mem (held cs))
    (hle : nb ≤ s') (hspare : s' ≤ nb + 32) : Served lo limit m cs nb p' m'' := by
  obtain ⟨hsame', hinv, H, hfrom, hto, hkept'⟩ := h
  have hH : H.Perm (held cs) := (List.perm_cons _).mp (hfrom.symm.trans hheld)
  refine ⟨hsame.trans hsame', s', cs'', hinv, hto.trans (hH.cons _), hle, hspare, ?_⟩
  exact hkept.trans (hkept'.subset fun e he => hH.mem_iff.mpr he)

/-- **The leader**: it ends where the chunk that is left is aligned. -/
theorem splitLeader_spec (h : Inv lo limit m cs) {k : Nat} (hk : 5 ≤ k) (hk63 : k ≤ 63)
    (hmem : (s, a) ∈ held cs) (hnb : 32 ≤ nb) (hroom : nb + 2 ^ k + 32 ≤ s)
    (hmis : chunk2mem a % 2 ^ k ≠ 0) :
    ∃ pos m' s' cs', splitLeader m (chunk2mem a) a (2 ^ k) = .ok (pos, m')
      ∧ chunk2mem pos % 2 ^ k = 0 ∧ nb ≤ s' ∧ Recut lo limit m cs (s, a) m' cs' (s', pos) := by
  have hlim := h.arena.limit_lt
  have hend := h.arena.topEnd
  obtain ⟨_, _, htop, hsz, _, _, hmm, _⟩ := Gap.of_held h.arena hmem
  have ha16 := h.arena.addr_aligned (mem_held.mp hmem)
  have hs16 := (h.arena.chunk_range (mem_held.mp hmem)).2.2.2
  have hpos := Nat.two_pow_pos k
  have h16 : 2 ^ 4 ∣ 2 ^ k := Nat.pow_dvd_pow 2 (by omega)
  have hk16 : 2 ^ k % 16 = 0 := Nat.mod_eq_zero_of_dvd h16
  have hc2m : chunk2mem a = a + 16 := rfl
  have hmin : minChunkSize = 32 := rfl
  obtain ⟨r, hr, hle, hlt, hrk⟩ := round_up (x := a + 16) (k := k) (by omega) (by omega)
  have hr16 : r % 16 = 0 :=
    Nat.mod_eq_zero_of_dvd (Nat.dvd_trans h16 (Nat.dvd_of_mod_eq_zero hrk))
  have hne : r ≠ a + 16 := by
    rintro rfl
    exact hmis hrk
  have hbr : mem2chunk (sub (add (chunk2mem a) (2 ^ k)) 1 &&& neg (2 ^ k)) = r - 16 := by
    have hadd : add (chunk2mem a) (2 ^ k) = a + 16 + 2 ^ k := add_of_lt (by omega)
    have hsub : sub (a + 16 + 2 ^ k) 1 = a + 16 + (2 ^ k - 1) := by
      rw [sub_of_le (by omega) (by omega)]
      omega
    have hneg : neg (2 ^ k) = 2 ^ 64 - 2 ^ k := neg_of_pos hpos (by omega)
    rw [hadd, hsub, hneg, hr]
    rfl
  have hdist : sub (r - 16) a = r - 16 - a := sub_of_le (by omega) (by omega)
  obtain ⟨pos, hposdef⟩ : ∃ pos, (if sub (r - 16) a ≥ minChunkSize then r - 16
      else add (r - 16) (2 ^ k)) = pos := ⟨_, rfl⟩
  have hposval : a + 32 ≤ pos ∧ pos ≤ a + 2 ^ k + 16 ∧ pos % 16 = 0
      ∧ (pos = r - 16 ∨ pos = r - 16 + 2 ^ k) := by
    rw [hdist, hmin] at hposdef
    split at hposdef
    · omega
    · rw [add_of_lt (by omega)] at hposdef
      omega
  obtain ⟨hge, hpe, hp16, hpcase⟩ := hposval
  have hlead : sub pos a = pos - a := sub_of_le (by omega) (by omega)
  have hnew : sub s (pos - a) = s - (pos - a) := sub_of_le (by omega) (by omega)
  have hposeq : a + (pos - a) = pos := by omega
  obtain ⟨H, hheld, ⟨m', hok, hsame, cs', hinv, hheld', hkept⟩, _⟩ :=
    disposeSplit_spec h hmem (l := pos - a) (by omega) (by omega) (by omega) (.inl rfl)
  rw [hposeq] at hok hheld'
  refine ⟨pos, m', s - (pos - a), cs', ?_, ?_, by omega, hsame, hinv, H, hheld, hheld', hkept⟩
  · unfold splitLeader
    rw [hbr]
    dsimp only
    rw [hposdef, hlead, hsz, hnew, hmm, if_neg Bool.false_ne_true, hok]
    rfl
  · have hval : chunk2mem pos = pos + 16 := rfl
    rw [hval]
    rcases hpcase with hp | hp
    · have hback : pos + 16 = r := by omega
      rw [hback, hrk]
    · have hback : pos + 16 = r + 2 ^ k := by omega
      rw [hback, Nat.add_mod_right, hrk]

/-- **The tail**: what is left is the request, or a chunk more. -/
theorem giveBackTail_spec (h : Inv lo limit m cs) (hmem : (s, a) ∈ held cs) (hnb : 32 ≤ nb)
    (hnb16 : nb % 16 = 0) (hle : nb ≤ s) :
    ∃ m' s' cs', giveBackTail m a nb = .ok m' ∧ nb ≤ s' ∧ s' ≤ nb + 32
      ∧ Recut lo limit m cs (s, a) m' cs' (s', a) := by
  obtain ⟨_, _, _, hsz, _, _, hmm, _⟩ := Gap.of_held h.arena hmem
  have hmin : minChunkSize = 32 := rfl
  unfold giveBackTail
  rw [hmm, if_neg Bool.false_ne_true, hsz, hmin]
  dsimp only
  by_cases hspare : s > nb + 32
  · rw [if_pos hspare]
    obtain ⟨H, hheld, _, m', hok, hsame, cs', hinv, hheld', hkept⟩ :=
      disposeSplit_spec h hmem hnb hnb16 (by omega) (.inr rfl)
    exact ⟨m', nb, cs', hok, Nat.le_refl _, by omega, hsame, hinv, H, hheld, hheld', hkept⟩
  · rw [if_neg hspare]
    exact ⟨m, s, cs, rfl, hle, by omega, Recut.refl h hmem⟩

/-! ## The whole call -/

/-- What `internal_memalign` asks of `mspace_malloc`. -/
theorem memalign_request {k : Nat} (hk : 5 ≤ k) (hnb16 : nb % 16 = 0)
    (hlt : nb + 2 ^ k + 64 ≤ 2 ^ 64) :
    ∃ req, sub (add (add nb (2 ^ k)) minChunkSize) chunkOverhead = req
      ∧ request2size req = nb + 2 ^ k + 32 ∧ req = nb + 2 ^ k + 24 := by
  have hmin : minChunkSize = 32 := rfl
  have hover : chunkOverhead = 8 := rfl
  have hpos := Nat.two_pow_pos k
  have hk16 : 2 ^ k % 16 = 0 :=
    Nat.mod_eq_zero_of_dvd (Nat.pow_dvd_pow 2 (by omega : 4 ≤ k))
  have hsum : sub (add (add nb (2 ^ k)) minChunkSize) chunkOverhead = nb + 2 ^ k + 24 := by
    rw [hmin, hover, add_of_lt (a := nb) (by omega), add_of_lt (by omega),
      sub_of_le (by omega) (by omega)]
    omega
  refine ⟨_, hsum, ?_, rfl⟩
  have hbig : ¬ nb + 2 ^ k + 24 < minRequest := by
    have hreq : minRequest = 23 := rfl
    omega
  have hpad := padRequest_spec (nb + 2 ^ k + 24) (by omega)
  rw [request2size, if_neg hbig]
  omega

/-- **An aligned chunk is cut out** of a larger one, unless no free chunk, nor
the top, has room for the request wherever it may have to start. -/
theorem alignedMalloc_spec {pr : Mparams} (hv : pr.Valid) (hc : Capped pr m)
    (h : Inv lo limit m cs) {k : Nat} (hk : 5 ≤ k) (hk63 : k ≤ 63) (hnb : 32 ≤ nb)
    (hnb16 : nb % 16 = 0) (hroom : nb + 2 ^ k + 64 ≤ 2 ^ 64) :
    (¬ Full m cs (nb + 2 ^ k + 24)
        ∧ ∃ p m', alignedMalloc pr m (2 ^ k) nb = .ok (some (chunk2mem p), m')
          ∧ chunk2mem p % 2 ^ k = 0 ∧ Served lo limit m cs nb p m')
      ∨ (Full m cs (nb + 2 ^ k + 24) ∧ alignedMalloc pr m (2 ^ k) nb = .ok (none, m)) := by
  obtain ⟨req, hreq, hsize, rfl⟩ := memalign_request hk hnb16 hroom
  unfold alignedMalloc
  rw [hreq]
  dsimp only
  rcases mspaceMalloc_full hv hc h (nb + 2 ^ k + 24) with ⟨hroom, p, m₁, hok, _, hserved⟩
    | ⟨hfull, hok⟩
  · refine .inl ⟨hroom, ?_⟩
    rw [hsize] at hserved
    obtain ⟨hsame, s, cs₁, hinv, hheld, hles, _, hkept⟩ := hserved
    have hmem : (s, p) ∈ held cs₁ := hheld.mem_iff.mpr List.mem_cons_self
    have hback : mem2chunk (chunk2mem p) = p := Nat.add_sub_cancel _ _
    -- the leader, if there has to be one
    have hlead : ∃ pos m₂ s₂ cs₂, alignLeader m₁ (chunk2mem p) p (2 ^ k) = .ok (pos, m₂)
        ∧ chunk2mem pos % 2 ^ k = 0 ∧ nb ≤ s₂
        ∧ Recut lo limit m₁ cs₁ (s, p) m₂ cs₂ (s₂, pos) := by
      rw [alignLeader, and_low]
      by_cases hmis : chunk2mem p % 2 ^ k = 0
      · rw [if_neg (not_not.mpr hmis)]
        exact ⟨p, m₁, s, cs₁, rfl, hmis, by omega, Recut.refl hinv hmem⟩
      · rw [if_pos hmis]
        exact splitLeader_spec hinv hk hk63 hmem hnb (by omega) hmis
    obtain ⟨pos, m₂, s₂, cs₂, hok₂, haligned, hle₂, hcut₂⟩ := hlead
    have hmem₂ : (s₂, pos) ∈ held cs₂ := by
      obtain ⟨_, _, H, _, hto, _⟩ := hcut₂
      exact hto.mem_iff.mpr List.mem_cons_self
    obtain ⟨m₃, s₃, cs₃, hok₃, hle₃, hspare, hcut₃⟩ :=
      giveBackTail_spec hcut₂.2.1 hmem₂ hnb hnb16 hle₂
    refine ⟨pos, m₃, ?_, haligned, (hcut₂.trans hcut₃).served hsame hheld hkept hle₃ hspare⟩
    rw [hok]
    dsimp only [bind, Except.bind]
    rw [hback, hok₂]
    dsimp only
    rw [hok₃]
  · refine .inr ⟨hfull, ?_⟩
    rw [hok]
    rfl

/-- Neither a free chunk nor the top holds the request and, for an alignment
past 16, what it takes to start it at a multiple of the power of two worked
with. -/
def NoRoom (m : Mstate) (cs : List Chunk) (alignment bytes : Nat) : Prop :=
  if alignment ≤ mallocAlignment then Full m cs bytes
  else maxRequest ≤ bytes + powerAbove alignment
    ∨ Full m cs (request2size bytes + powerAbove alignment + 24)

/-- **`internal_memalign`** returns a chunk at a multiple of the power of two
it works with, unless there is no room for the request. -/
theorem internalMemalign_spec {pr : Mparams} (hv : pr.Valid) (hc : Capped pr m)
    (h : Inv lo limit m cs) {alignment : Nat} (hal : alignment ≤ 2 ^ 63)
    (hlarge : ¬ alignment ≤ mallocAlignment) (bytes : Nat) :
    (¬ NoRoom m cs alignment bytes
        ∧ ∃ k p m', internalMemalign pr m alignment bytes = .ok (some (chunk2mem p), m')
          ∧ bytes < maxRequest ∧ 5 ≤ k ∧ alignment ≤ 2 ^ k ∧ chunk2mem p % 2 ^ k = 0
          ∧ Served lo limit m cs (request2size bytes) p m')
      ∨ (NoRoom m cs alignment bytes
        ∧ internalMemalign pr m alignment bytes = .ok (none, m)) := by
  obtain ⟨k, hk, hk63, hpow, hle, hsharp⟩ := powerAlign_spec hal
  have habove := powerAbove_eq hk hle hsharp
  have hmaxreq : maxRequest = 2 ^ 64 - 128 := by decide
  have hpos := Nat.two_pow_pos k
  have hk64 : 2 ^ k ≤ 2 ^ 63 := Nat.pow_le_pow_right (by decide) hk63
  obtain ⟨bound, hbound, hval⟩ : ∃ bound, sub maxRequest (2 ^ k) = bound
      ∧ bound + 2 ^ k = maxRequest := by
    refine ⟨_, sub_of_le (by omega) (by omega), by omega⟩
  have hcall : internalMemalign pr m alignment bytes
      = if bytes ≥ bound then .ok (none, m)
        else alignedMalloc pr m (2 ^ k) (request2size bytes) := by
    rw [internalMemalign, hpow, ← hbound]
    rfl
  rw [hcall, NoRoom, if_neg hlarge, habove]
  by_cases hbig : bytes ≥ bound
  · rw [if_pos hbig]
    exact .inr ⟨.inl (by omega), rfl⟩
  · rw [if_neg hbig]
    obtain ⟨hroom, hlt, hge, h16⟩ := request2size_spec bytes (by omega)
    rcases alignedMalloc_spec hv hc h hk hk63 hge h16 (by omega)
      with ⟨hroom, p, m', hok, haligned, hserved⟩ | ⟨hfull, hok⟩
    · refine .inl ⟨?_, k, p, m', hok, by omega, hk, hle, haligned, hserved⟩
      rintro (hmax | hfull)
      · omega
      · exact hroom hfull
    · exact .inr ⟨.inr hfull, hok⟩

/-- **`mspace_memalign`** always returns, and what it returns lies at a
multiple of a power of two no less than the alignment asked for. It fails,
changing nothing, exactly when there is no room for the request. -/
theorem mspaceMemalign_spec {pr : Mparams} (hv : pr.Valid) (hc : Capped pr m)
    (h : Inv lo limit m cs) {alignment : Nat} (hal : alignment ≤ 2 ^ 63) (bytes : Nat) :
    (¬ NoRoom m cs alignment bytes
        ∧ ∃ p m', mspaceMemalign pr m alignment bytes = .ok (some (chunk2mem p), m')
          ∧ bytes < maxRequest ∧ (∃ k, 4 ≤ k ∧ alignment ≤ 2 ^ k ∧ chunk2mem p % 2 ^ k = 0)
          ∧ Served lo limit m cs (request2size bytes) p m')
      ∨ (NoRoom m cs alignment bytes
        ∧ mspaceMemalign pr m alignment bytes = .ok (none, m)) := by
  have hmin : mallocAlignment = 16 := rfl
  unfold mspaceMemalign
  by_cases hsmall : alignment ≤ mallocAlignment
  · rw [if_pos hsmall, NoRoom, if_pos hsmall]
    rcases mspaceMalloc_full hv hc h bytes with ⟨hroom, p, m', hok, hlt, hserved⟩ | hfull
    · refine .inl ⟨hroom, p, m', hok, hlt, ⟨4, Nat.le_refl 4, hsmall, ?_⟩, hserved⟩
      obtain ⟨_, s, cs', hinv, hheld, _⟩ := hserved
      have h16 := hinv.arena.addr_aligned
        (mem_held.mp (hheld.mem_iff.mpr List.mem_cons_self))
      have hval : chunk2mem p = p + 16 := rfl
      rw [hval]
      omega
    · exact .inr hfull
  · rw [if_neg hsmall]
    rcases internalMemalign_spec hv hc h hal hsmall bytes
      with ⟨hroom, k, p, m', hok, hlt, hk, hle, haligned, hserved⟩ | hfull
    · exact .inl ⟨hroom, p, m', hok, hlt, ⟨k, by omega, hle, haligned⟩, hserved⟩
    · exact .inr hfull

/-- **An alignment past 2^63** never returns. -/
theorem mspaceMemalign_hang {pr : Mparams} {alignment : Nat} (h : 2 ^ 63 < alignment)
    (hlt : alignment < 2 ^ 64) (m : Mstate) (bytes : Nat) :
    mspaceMemalign pr m alignment bytes = .error .hang := by
  have hmin : mallocAlignment = 16 := rfl
  have hlarge : ¬ alignment ≤ mallocAlignment := by omega
  rw [mspaceMemalign, if_neg hlarge, internalMemalign, powerAlign_hang h hlt]
  rfl

end SkyEngine.Mspace
