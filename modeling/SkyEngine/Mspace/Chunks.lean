import SkyEngine.Lib.Word64
import Mathlib.Logic.Function.Basic
import Mathlib.Data.List.Basic

/-!
# Mspace — Chunks

The chunks of dlmalloc (`malloc.c`), as built for 64-bit Windows: sizes and
alignments, the `head` and `prev_foot` words, and the macros that write
them. Memory is a function from addresses to words, read and written at
multiples of eight. `Walk` says that a stretch of memory is tiled by given
chunks with the boundary tags in place.
-/

namespace SkyEngine.Mspace

open Word64

/-! ## Sizes and alignments -/

def sizeTSize : Nat := 8

def mallocAlignment : Nat := 2 * sizeTSize

def chunkAlignMask : Nat := mallocAlignment - 1

/-- Four words: `prev_foot`, `head`, `fd`, `bk`. -/
def minChunkSize : Nat := 4 * sizeTSize

def chunkOverhead : Nat := sizeTSize

def twoSizeTSizes : Nat := 2 * sizeTSize

/-- `MAX_REQUEST`: `-MIN_CHUNK_SIZE << 2`. -/
def maxRequest : Nat := shl (neg minChunkSize) 2

def minRequest : Nat := minChunkSize - chunkOverhead - 1

/-- Pad request bytes into a usable size. -/
def padRequest (req : Nat) : Nat :=
  add (add req chunkOverhead) chunkAlignMask &&& compl chunkAlignMask

/-- Pad request, checking for minimum (but not maximum). -/
def request2size (req : Nat) : Nat := if req < minRequest then minChunkSize else padRequest req

def chunk2mem (p : Nat) : Nat := p + twoSizeTSizes

def mem2chunk (mem : Nat) : Nat := mem - twoSizeTSizes

/-- The number of bytes to offset an address to align it. -/
def alignOffset (a : Nat) : Nat :=
  if a &&& chunkAlignMask = 0 then 0
  else (mallocAlignment - (a &&& chunkAlignMask)) &&& chunkAlignMask

def alignAsChunk (a : Nat) : Nat := a + alignOffset (chunk2mem a)

/-! ## Head and foot fields -/

abbrev Words := Nat → Nat

def pinuseBit : Nat := 1

def cinuseBit : Nat := 2

def flagBits : Nat := 7

def inuseBits : Nat := 3

section Fields

variable (w : Words) (p s n : Nat)

/-- `p->prev_foot`: the size of the previous chunk, if that is free. -/
def prevFoot : Nat := w p

/-- `p->head`: size and inuse bits. -/
def head : Nat := w (p + sizeTSize)

def cinuse : Bool := head w p &&& cinuseBit ≠ 0

def pinuse : Bool := head w p &&& pinuseBit ≠ 0

def isInuse : Bool := head w p &&& inuseBits ≠ pinuseBit

def isMmapped : Bool := head w p &&& inuseBits = 0

def chunksize : Nat := head w p &&& compl flagBits

def setHead (h : Nat) : Words := Function.update w (p + sizeTSize) h

/-- Set size at footer. -/
def setFoot : Words := Function.update w (p + s) s

def clearPinuse : Words := setHead w p (head w p &&& compl pinuseBit)

/-- Set size, pinuse bit, and foot. -/
def setSizeAndPinuseOfFreeChunk : Words := setFoot (setHead w p (s ||| pinuseBit)) p s

/-- Set size, pinuse bit, foot, and clear next pinuse. -/
def setFreeWithPinuse : Words := setSizeAndPinuseOfFreeChunk (clearPinuse w n) p s

/-- Set the pinuse bit of the chunk at `n`. -/
def setPinuse : Words := setHead w n (head w n ||| pinuseBit)

/-- Set cinuse bit and pinuse bit of next chunk. -/
def setInuse : Words :=
  setPinuse (setHead w p ((head w p &&& pinuseBit) ||| s ||| cinuseBit)) (p + s)

/-- Set cinuse and pinuse of this chunk and pinuse of next chunk. -/
def setInuseAndPinuse : Words := setPinuse (setHead w p (s ||| pinuseBit ||| cinuseBit)) (p + s)

/-- Set size, cinuse and pinuse bit of this chunk. -/
def setSizeAndPinuseOfInuseChunk : Words := setHead w p (s ||| pinuseBit ||| cinuseBit)

end Fields

/-! ## Head words -/

/-- The head of a chunk of `s` bytes: is the one before it in use, is it. -/
def headWord (s : Nat) (p c : Bool) : Nat := s + (2 * c.toNat + p.toNat)

section HeadWord

variable {s : Nat} (hs : s % 8 = 0) (p c : Bool)

include hs

theorem headWord_and (k : Nat) (hk : k ≤ 3) :
    headWord s p c &&& (2 ^ k - 1) = (2 * c.toNat + p.toNat) % 2 ^ k := by
  rw [and_low, headWord, Nat.add_mod]
  have hdvd : s % 2 ^ k = 0 := by
    have h8 : 2 ^ k ∣ 2 ^ 3 := Nat.pow_dvd_pow 2 hk
    exact Nat.mod_eq_zero_of_dvd (Nat.dvd_trans h8 (Nat.dvd_of_mod_eq_zero hs))
  rw [hdvd, Nat.zero_add, Nat.mod_mod]

theorem headWord_and_pinuse : headWord s p c &&& pinuseBit = p.toNat := by
  have h := headWord_and hs p c 1 (by decide)
  cases p <;> cases c <;> exact h

theorem headWord_and_inuse : headWord s p c &&& inuseBits = 2 * c.toNat + p.toNat := by
  have h := headWord_and hs p c 2 (by decide)
  cases p <;> cases c <;> exact h

theorem headWord_and_cinuse : headWord s p c &&& cinuseBit = 2 * c.toNat := by
  have hsplit : headWord s p c &&& cinuseBit = (headWord s p c &&& inuseBits) &&& cinuseBit := by
    rw [Nat.and_assoc]
    rfl
  rw [hsplit, headWord_and_inuse hs]
  cases p <;> cases c <;> rfl

theorem headWord_size (hlt : s + 3 < 2 ^ 64) : headWord s p c &&& compl flagBits = s := by
  have hmask : compl flagBits = 2 ^ 64 - 2 ^ 3 := rfl
  have hb : headWord s p c < 2 ^ 64 ∧ headWord s p c / 2 ^ 3 * 2 ^ 3 = s := by
    unfold headWord
    cases p <;> cases c <;> simp only [Bool.toNat_true, Bool.toNat_false] <;> omega
  rw [hmask, and_high_mask hb.1 (by decide)]
  exact hb.2

theorem headWord_clear (hlt : s + 3 < 2 ^ 64) :
    headWord s p c &&& compl pinuseBit = headWord s false c := by
  have hmask : compl pinuseBit = 2 ^ 64 - 2 ^ 1 := rfl
  have hb : headWord s p c < 2 ^ 64 ∧ headWord s p c / 2 ^ 1 * 2 ^ 1 = headWord s false c := by
    unfold headWord
    cases p <;> cases c <;> simp only [Bool.toNat_true, Bool.toNat_false] <;> omega
  rw [hmask, and_high_mask hb.1 (by decide)]
  exact hb.2

theorem size_or_pinuse : s ||| pinuseBit = headWord s true false :=
  or_low (k := 3) hs (by decide)

theorem size_or_inuse : s ||| pinuseBit ||| cinuseBit = headWord s true true := by
  rw [Nat.or_assoc]
  exact or_low (k := 3) hs (by decide)

theorem headWord_or_pinuse : headWord s p c ||| pinuseBit = headWord s true c := by
  have hbits : headWord s p c = s ||| (2 * c.toNat + p.toNat) := by
    refine (or_low (k := 3) hs ?_).symm
    cases p <;> cases c <;> decide
  have hbits' : headWord s true c = s ||| (2 * c.toNat + 1) := by
    refine (or_low (k := 3) hs ?_).symm
    cases c <;> decide
  rw [hbits, hbits', Nat.or_assoc]
  congr 1
  cases p <;> cases c <;> rfl

theorem pinuse_or_inuse : p.toNat ||| s ||| cinuseBit = headWord s p true := by
  have hcomm : p.toNat ||| s ||| cinuseBit = s ||| (p.toNat ||| cinuseBit) := by
    rw [Nat.or_comm p.toNat s, Nat.or_assoc]
  rw [hcomm, or_low (k := 3) hs (by cases p <;> decide)]
  cases p <;> rfl

end HeadWord

/-- Of a chunk behind one in use, both bits are set if it is in use. -/
theorem inuseBits_iff {w : Words} {p : Nat} (hp : pinuse w p = true) :
    head w p &&& inuseBits = inuseBits ↔ cinuse w p = true := by
  obtain ⟨x, hx⟩ : ∃ x, head w p &&& inuseBits = x := ⟨_, rfl⟩
  have hlt : x < 4 := by
    rw [← hx, show inuseBits = 2 ^ 2 - 1 from rfl, and_low]
    exact Nat.mod_lt _ (by decide)
  have hpin : head w p &&& pinuseBit = x &&& pinuseBit := by
    rw [← hx, Nat.and_assoc]
    rfl
  have hcin : head w p &&& cinuseBit = x &&& cinuseBit := by
    rw [← hx, Nat.and_assoc]
    rfl
  rw [pinuse, hpin] at hp
  rw [cinuse, hcin, hx]
  have hcases : x = 0 ∨ x = 1 ∨ x = 2 ∨ x = 3 := by omega
  revert hp
  rcases hcases with rfl | rfl | rfl | rfl <;> decide

/-! ## Requests -/

/-- A padded request holds the bytes asked for and the chunk's overhead. -/
theorem padRequest_spec (req : Nat) (h : req + 32 ≤ 2 ^ 64) :
    req + 8 ≤ padRequest req ∧ padRequest req < req + 24 ∧ padRequest req % 16 = 0 := by
  have hpad : padRequest req = (req + 8 + (2 ^ 4 - 1)) &&& (2 ^ 64 - 2 ^ 4) := by
    have hadd : add req 8 = req + 8 := add_of_lt (by omega)
    unfold padRequest chunkOverhead chunkAlignMask mallocAlignment sizeTSize
    rw [hadd, add_of_lt (by omega)]
    rfl
  obtain ⟨r, hr, h1, h2, h3⟩ := round_up (x := req + 8) (k := 4) (by omega) (by decide)
  rw [hpad, hr]
  omega

theorem request2size_spec (req : Nat) (h : req + 32 ≤ 2 ^ 64) :
    req + 8 ≤ request2size req ∧ request2size req < req + 40 ∧ 32 ≤ request2size req
      ∧ request2size req % 16 = 0 := by
  have hmin : minRequest = 23 := rfl
  have hchunk : minChunkSize = 32 := rfl
  unfold request2size
  split
  · omega
  · have hpad := padRequest_spec req h
    omega

/-! ## The walk -/

/-- A chunk of a walk. -/
structure Chunk where
  addr : Nat
  size : Nat
  inUse : Bool
  deriving DecidableEq, Repr

/-- The chunks `cs` tile memory from `lo` to `hi`, tagged: each head has the
chunk's size and both bits, each free chunk its size at its foot, and no
two free chunks are neighbours. `prev` and `last` tell whether the chunk
before `lo` and the one before `hi` are in use. -/
def Walk (w : Words) (hi : Nat) (last : Bool) : Bool → Nat → List Chunk → Prop
  | prev, lo, [] => lo = hi ∧ prev = last
  | prev, lo, c :: cs =>
      c.addr = lo ∧ 32 ≤ c.size ∧ c.size % 16 = 0 ∧ head w lo = headWord c.size prev c.inUse
        ∧ (c.inUse = false → prev = true ∧ prevFoot w (lo + c.size) = c.size)
        ∧ Walk w hi last c.inUse (lo + c.size) cs

section Walk

variable {w w' : Words} {hi lo : Nat} {last prev : Bool} {cs : List Chunk}

theorem Walk.le (h : Walk w hi last prev lo cs) : lo ≤ hi := by
  induction cs generalizing prev lo with
  | nil => exact Nat.le_of_eq h.1
  | cons c cs ih =>
      have hle := ih h.2.2.2.2.2
      omega

theorem Walk.aligned (h : Walk w hi last prev lo cs) (hlo : lo % 16 = 0) : hi % 16 = 0 := by
  induction cs generalizing prev lo with
  | nil => rw [← h.1]; exact hlo
  | cons c cs ih =>
      obtain ⟨_, _, hsize, _, _, hrest⟩ := h
      exact ih hrest (by omega)

/-- A walk reads only the words above `lo`, up to `hi`. -/
theorem Walk.frame (h : Walk w hi last prev lo cs) (hw : ∀ a, lo < a → a ≤ hi → w' a = w a) :
    Walk w' hi last prev lo cs := by
  induction cs generalizing prev lo with
  | nil => exact h
  | cons c cs ih =>
      obtain ⟨haddr, hmin, hsize, hhead, hfree, hrest⟩ := h
      have hle := hrest.le
      have hhead' : head w' lo = head w lo := hw (lo + 8) (by omega) (by omega)
      have hfoot : prevFoot w' (lo + c.size) = prevFoot w (lo + c.size) := hw _ (by omega) hle
      refine ⟨haddr, hmin, hsize, hhead'.trans hhead, ?_, ih hrest fun a ha => hw a (by omega)⟩
      exact fun hc => ⟨(hfree hc).1, hfoot.trans (hfree hc).2⟩

/-- **Walks compose.** -/
theorem walk_append {xs ys : List Chunk} :
    Walk w hi last prev lo (xs ++ ys)
      ↔ ∃ mid flag, Walk w mid flag prev lo xs ∧ Walk w hi last flag mid ys := by
  induction xs generalizing prev lo with
  | nil =>
      constructor
      · exact fun h => ⟨lo, prev, ⟨rfl, rfl⟩, h⟩
      · rintro ⟨mid, flag, ⟨rfl, rfl⟩, h⟩
        exact h
  | cons c xs ih =>
      constructor
      · rintro ⟨haddr, hmin, hsize, hhead, hfree, hrest⟩
        obtain ⟨mid, flag, hxs, hys⟩ := ih.mp hrest
        exact ⟨mid, flag, ⟨haddr, hmin, hsize, hhead, hfree, hxs⟩, hys⟩
      · rintro ⟨mid, flag, ⟨haddr, hmin, hsize, hhead, hfree, hxs⟩, hys⟩
        exact ⟨haddr, hmin, hsize, hhead, hfree, ih.mpr ⟨mid, flag, hxs, hys⟩⟩

/-- Where a chunk of the walk lies. -/
theorem Walk.chunk_range (h : Walk w hi last prev lo cs) {c : Chunk} (hc : c ∈ cs) :
    lo ≤ c.addr ∧ c.addr + c.size ≤ hi ∧ 32 ≤ c.size ∧ c.size % 16 = 0 := by
  obtain ⟨pre, post, rfl⟩ := List.append_of_mem hc
  obtain ⟨mid, flag, hpre, hrest⟩ := walk_append.mp h
  obtain ⟨haddr, hmin, hsize, _, _, hpost⟩ := hrest
  have h1 := hpre.le
  have h2 := hpost.le
  rw [haddr]
  exact ⟨h1, h2, hmin, hsize⟩

/-- Chunks come in the order of their addresses. -/
theorem Walk.addr_increasing (h : Walk w hi last prev lo cs) :
    (cs.map Chunk.addr).Pairwise (· < ·) := by
  induction cs generalizing prev lo with
  | nil => exact List.Pairwise.nil
  | cons c cs ih =>
      obtain ⟨haddr, hmin, _, _, _, hrest⟩ := h
      refine List.pairwise_cons.mpr ⟨fun a ha => ?_, ih hrest⟩
      obtain ⟨d, hd, rfl⟩ := List.mem_map.mp ha
      have hrange := hrest.chunk_range hd
      omega

/-- A walk that ends after a free chunk ends with one. -/
theorem Walk.last_free (h : Walk w hi false true lo cs) :
    ∃ pre d, cs = pre ++ [d] ∧ d.inUse = false ∧ d.addr + d.size = hi
      ∧ prevFoot w hi = d.size ∧ Walk w d.addr true true lo pre := by
  rcases List.eq_nil_or_concat cs with rfl | ⟨pre, d, rfl⟩
  · exact absurd h.2 (by decide)
  · rw [List.concat_eq_append] at h ⊢
    obtain ⟨mid, flag, hpre, hd⟩ := walk_append.mp h
    obtain ⟨rfl, _, _, _, hfree, hend, huse⟩ := hd
    obtain ⟨rfl, hfoot⟩ := hfree huse
    rw [hend] at hfoot
    exact ⟨pre, d, rfl, huse, hend, hfoot, hpre⟩

/-- A walk after a free chunk starts with one in use. -/
theorem Walk.first_in_use (h : Walk w hi true false lo cs) :
    ∃ n rest, cs = n :: rest ∧ n.inUse = true ∧ n.addr = lo := by
  cases cs with
  | nil => exact absurd h.2 (by decide)
  | cons n rest =>
      obtain ⟨haddr, _, _, _, hfree, _⟩ := h
      refine ⟨n, rest, rfl, ?_, haddr⟩
      cases hn : n.inUse with
      | true => rfl
      | false => exact absurd (hfree hn).1 (by decide)

/-- The first head is rewritten for another neighbour. -/
theorem Walk.reflag {n : Chunk} {prev' : Bool} (h : Walk w hi last prev lo (n :: cs))
    (hn : n.inUse = true) (hhead : head w' lo = headWord n.size prev' true)
    (hw : ∀ a, lo + 8 < a → a ≤ hi → w' a = w a) : Walk w' hi last prev' lo (n :: cs) := by
  obtain ⟨haddr, hmin, hsize, _, _, hrest⟩ := h
  refine ⟨haddr, hmin, hsize, ?_, ?_, hrest.frame fun a ha => hw a (by omega)⟩
  · rw [hn]
    exact hhead
  · intro hfree
    rw [hn] at hfree
    cases hfree

/-- What a walk does not read: of a free chunk the words between its header
and its foot, of a chunk in use the foot as well. -/
def Chunk.Interior (c : Chunk) (x : Nat) : Prop :=
  c.addr + 16 ≤ x ∧ (x < c.addr + c.size ∨ c.inUse = true ∧ x = c.addr + c.size)

/-- **The tags alone make a walk**: what is inside the chunks may change. -/
theorem Walk.retag (h : Walk w hi last prev lo cs)
    (hw : ∀ x, lo < x → x ≤ hi → (∀ c ∈ cs, ¬ c.Interior x) → w' x = w x) :
    Walk w' hi last prev lo cs := by
  induction cs generalizing prev lo with
  | nil => exact h
  | cons c cs ih =>
      obtain ⟨haddr, hmin, hsize, hhead, hfree, hrest⟩ := h
      have hle := hrest.le
      -- the tags of the first chunk are before the words of the others
      have hothers : ∀ x, x ≤ lo + c.size → ∀ d ∈ cs, ¬ d.Interior x := by
        intro x hx d hd hin
        have hlo := (hrest.chunk_range hd).1
        have hin := hin.1
        omega
      have hhead' : head w' lo = head w lo := by
        refine hw (lo + 8) (by omega) (by omega) (List.forall_mem_cons.mpr ⟨?_, ?_⟩)
        · intro hin
          have hin := hin.1
          omega
        · exact hothers _ (by omega)
      have hfoot : c.inUse = false →
          prevFoot w' (lo + c.size) = prevFoot w (lo + c.size) := by
        intro hc
        refine hw _ (by omega) hle (List.forall_mem_cons.mpr ⟨?_, hothers _ (Nat.le_refl _)⟩)
        rintro ⟨_, hlt | ⟨huse, _⟩⟩
        · omega
        · exact Bool.noConfusion (huse.symm.trans hc)
      refine ⟨haddr, hmin, hsize, hhead'.trans hhead, ?_, ih hrest fun x hlo hhi hin => ?_⟩
      · exact fun hc => ⟨(hfree hc).1, (hfoot hc).trans (hfree hc).2⟩
      · refine hw x (by omega) hhi (List.forall_mem_cons.mpr ⟨?_, hin⟩)
        rintro ⟨_, hlt | ⟨_, heq⟩⟩
        · omega
        · omega

/-- Chunks do not overlap. -/
theorem Walk.disjoint (h : Walk w hi last prev lo cs) {c d : Chunk} (hc : c ∈ cs) (hd : d ∈ cs)
    (hne : c ≠ d) : c.addr + c.size ≤ d.addr ∨ d.addr + d.size ≤ c.addr := by
  induction cs generalizing prev lo with
  | nil => exact absurd hc List.not_mem_nil
  | cons b cs ih =>
      obtain ⟨haddr, _, _, _, _, hrest⟩ := h
      rcases List.mem_cons.mp hc with rfl | hc'
      · rcases List.mem_cons.mp hd with rfl | hd'
        · exact absurd rfl hne
        · rw [haddr]
          exact .inl (hrest.chunk_range hd').1
      · rcases List.mem_cons.mp hd with rfl | hd'
        · rw [haddr]
          exact .inr (hrest.chunk_range hc').1
        · exact ih hrest hc' hd'

/-- A head tells size and bits. -/
theorem headWord_inj {s t : Nat} {p c d : Bool} (hs : s % 8 = 0) (ht : t % 8 = 0)
    (h : headWord s p c = headWord t p d) : s = t ∧ c = d := by
  unfold headWord at h
  cases c <;> cases d <;> cases p <;> simp at h ⊢ <;> omega

/-- **Memory determines the walk.** -/
theorem Walk.unique {cs' : List Chunk} (h : Walk w hi last prev lo cs)
    (h' : Walk w hi last prev lo cs') : cs = cs' := by
  induction cs generalizing prev lo cs' with
  | nil =>
      cases cs' with
      | nil => rfl
      | cons c cs' =>
          obtain ⟨_, hmin, _, _, _, hrest⟩ := h'
          have hend := h.1
          have hle := hrest.le
          omega
  | cons c cs ih =>
      cases cs' with
      | nil =>
          obtain ⟨_, hmin, _, _, _, hrest⟩ := h
          have hend := h'.1
          have hle := hrest.le
          omega
      | cons d cs' =>
          obtain ⟨a, s, u⟩ := c
          obtain ⟨a', s', u'⟩ := d
          obtain ⟨haddr, _, hs16, hhead, _, hrest⟩ := h
          obtain ⟨haddr', _, hs16', hhead', _, hrest'⟩ := h'
          have hs16 : s % 16 = 0 := hs16
          have hs16' : s' % 16 = 0 := hs16'
          obtain ⟨rfl, rfl⟩ := headWord_inj (by omega) (by omega) (hhead.symm.trans hhead')
          cases haddr
          cases haddr'
          rw [ih hrest hrest']

end Walk

end SkyEngine.Mspace
