import Mathlib.Algebra.Order.Ring.Nat
import Mathlib.Algebra.BigOperators.Group.List.Basic
import Mathlib.Order.Interval.Finset.Nat

/-!
# Lib — Blocks

Blocks of memory as address ranges, and the ledger an allocator's client
keeps of them: blocks that are apart never add up to more than the range
they lie in, so a running total of their sizes cannot wrap.
-/

namespace Blocks

/-- A live block: its address and its usable size. -/
structure Block where
  addr : Nat
  size : Nat
  deriving DecidableEq, Repr

/-- Past the last byte. -/
def Block.stop (b : Block) : Nat := b.addr + b.size

/-- The two blocks share no byte. -/
def Apart (b c : Block) : Prop := b.stop ≤ c.addr ∨ c.stop ≤ b.addr

instance : Std.Symm Apart := ⟨fun _ _ => Or.symm⟩

instance (b c : Block) : Decidable (Apart b c) := inferInstanceAs (Decidable (_ ∨ _))

/-- The block lies in the range from `lo` to `hi`. -/
def Within (lo hi : Nat) (b : Block) : Prop := lo ≤ b.addr ∧ b.stop ≤ hi

instance (lo hi : Nat) (b : Block) : Decidable (Within lo hi b) :=
  inferInstanceAs (Decidable (_ ∧ _))

/-- The sum of the sizes. -/
def total (l : List Block) : Nat := (l.map (·.size)).sum

@[simp] theorem total_nil : total [] = 0 := rfl

@[simp] theorem total_cons (b : Block) (l : List Block) :
    total (b :: l) = b.size + total l := rfl

@[simp] theorem total_append (l l' : List Block) : total (l ++ l') = total l + total l' := by
  simp [total]

/-- Taking one block out of the ledger takes its size out of the total. -/
theorem total_erase {b : Block} {l : List Block} (h : b ∈ l) :
    b.size + total (l.erase b) = total l := by
  induction l with
  | nil => cases h
  | cons c rest ih =>
      by_cases hbc : c = b
      · subst hbc
        simp
      · have hmem : b ∈ rest := by
          rcases List.mem_cons.mp h with hb | hb
          · exact absurd hb.symm hbc
          · exact hb
        rw [List.erase_cons_tail (by simpa using hbc), total_cons, total_cons, ← ih hmem]
        omega

/-- The block at an address, and the ledger without it. -/
def find (l : List Block) (p : Nat) : Option Block := l.find? (·.addr = p)

def release (l : List Block) (p : Nat) : List Block :=
  match find l p with
  | none => l
  | some b => l.erase b

/-- Other blocks stay. -/
theorem mem_release_of_ne {l : List Block} {b : Block} {p : Nat} (hb : b ∈ l)
    (hne : b.addr ≠ p) : b ∈ release l p := by
  unfold release
  cases hf : find l p with
  | none => exact hb
  | some c =>
      have hc : c.addr = p := by simpa using List.find?_some hf
      have hbc : b ≠ c := by
        intro he
        rw [he] at hne
        exact hne hc
      exact (List.mem_erase_of_ne hbc).mpr hb

theorem release_sublist (l : List Block) (p : Nat) : (release l p).Sublist l := by
  unfold release
  cases find l p with
  | none => exact List.Sublist.refl l
  | some b => exact List.erase_sublist

/-! ## Blocks that are apart -/

/-- Apart blocks are told apart by their addresses. -/
theorem find_of_mem {b : Block} {l : List Block} (h : l.Pairwise Apart)
    (hpos : ∀ c ∈ l, 0 < c.size) (hb : b ∈ l) : find l b.addr = some b := by
  unfold find
  cases hf : l.find? (·.addr = b.addr) with
  | none => exact absurd (List.find?_eq_none.mp hf b hb) (by simp)
  | some c =>
      have hc := List.mem_of_find?_eq_some hf
      have haddr : c.addr = b.addr := by simpa using List.find?_some hf
      by_contra hne
      have hcb : c ≠ b := fun he => hne (congrArg some he)
      have hapart := h.forall hc hb hcb
      have hcpos := hpos c hc
      have hbpos := hpos b hb
      unfold Apart Block.stop at hapart
      omega

theorem release_of_mem {b : Block} {l : List Block} (h : l.Pairwise Apart)
    (hpos : ∀ c ∈ l, 0 < c.size) (hb : b ∈ l) : release l b.addr = l.erase b := by
  rw [release, find_of_mem h hpos hb]

/-- The addresses the blocks occupy. -/
def bytes (l : List Block) : Finset Nat :=
  l.foldr (fun b s => Finset.Ico b.addr b.stop ∪ s) ∅

theorem mem_bytes {l : List Block} {a : Nat} :
    a ∈ bytes l ↔ ∃ b ∈ l, b.addr ≤ a ∧ a < b.stop := by
  induction l with
  | nil => simp [bytes]
  | cons c rest ih =>
      show a ∈ Finset.Ico c.addr c.stop ∪ bytes rest ↔ _
      simp [ih]

/-- Apart blocks occupy as many addresses as their sizes say. -/
theorem card_bytes {l : List Block} (h : l.Pairwise Apart) : (bytes l).card = total l := by
  induction l with
  | nil => rfl
  | cons c rest ih =>
      obtain ⟨hc, hrest⟩ := List.pairwise_cons.mp h
      have hdisj : Disjoint (Finset.Ico c.addr c.stop) (bytes rest) := by
        rw [Finset.disjoint_left]
        intro a ha ha'
        obtain ⟨b, hb, hba⟩ := mem_bytes.mp ha'
        have hca := Finset.mem_Ico.mp ha
        rcases hc b hb with hcb | hbc
        · omega
        · omega
      show (Finset.Ico c.addr c.stop ∪ bytes rest).card = _
      rw [Finset.card_union_of_disjoint hdisj, ih hrest, Nat.card_Ico, total_cons]
      show c.addr + c.size - c.addr + _ = _
      omega

/-- **No more than fits**: apart blocks within a range add up to at most
its length. -/
theorem total_le_of_within {lo hi : Nat} {l : List Block} (hw : ∀ b ∈ l, Within lo hi b)
    (h : l.Pairwise Apart) : total l ≤ hi - lo := by
  have hsub : bytes l ⊆ Finset.Ico lo hi := by
    intro a ha
    obtain ⟨b, hb, hba⟩ := mem_bytes.mp ha
    obtain ⟨hlo, hhi⟩ := hw b hb
    exact Finset.mem_Ico.mpr ⟨by omega, by omega⟩
  have hcard := Finset.card_le_card hsub
  rw [card_bytes h, Nat.card_Ico] at hcard
  exact hcard

end Blocks
