import SkyEngine.Lib.ByteMemory
import Mathlib.Tactic.Positivity

/-!
# Lib — ByteInt

Fixed-width integers in byte memory: two's complement, little-endian. An
integer of the type's range is read back as it was stored.
-/

namespace ByteMemory

/-- The low bits of an integer, in two's complement. -/
def toWord (bits : Nat) (v : Int) : Nat := (v % 2 ^ bits).toNat

/-- The integer a word of that many bits stands for. -/
def ofWord (bits : Nat) (signed : Bool) (w : Nat) : Int :=
  if signed = true ∧ 2 ^ (bits - 1) ≤ w then (w : Int) - 2 ^ bits else w

theorem toWord_lt (bits : Nat) (v : Int) : toWord bits v < 2 ^ bits := by
  have hpos : (0 : Int) < 2 ^ bits := by positivity
  have hlt := Int.emod_lt_of_pos v hpos
  have hnonneg := Int.emod_nonneg v (Int.ne_of_gt hpos)
  have hcast : ((toWord bits v : Nat) : Int) < ((2 ^ bits : Nat) : Int) := by
    rw [toWord, Int.toNat_of_nonneg hnonneg]
    push_cast
    exact hlt
  exact_mod_cast hcast

/-- The integers of a two's complement type. -/
def InRange (bits : Nat) (signed : Bool) (v : Int) : Prop :=
  if signed then -2 ^ (bits - 1) ≤ v ∧ v < 2 ^ (bits - 1) else 0 ≤ v ∧ v < 2 ^ bits

theorem ofWord_toWord {bits : Nat} {signed : Bool} (hbits : 0 < bits) {v : Int}
    (hv : InRange bits signed v) : ofWord bits signed (toWord bits v) = v := by
  obtain ⟨n, rfl⟩ : ∃ n, bits = n + 1 := ⟨bits - 1, by omega⟩
  have hhalf : (0 : Int) < 2 ^ n := by positivity
  have hdouble : (2 : Int) ^ (n + 1) = 2 * 2 ^ n := by rw [pow_succ, mul_comm]
  have hnat : ((2 ^ n : Nat) : Int) = 2 ^ n := by push_cast; rfl
  unfold InRange at hv
  unfold ofWord toWord
  rw [Nat.add_sub_cancel, hdouble] at hv ⊢
  cases signed with
  | false =>
      simp only [Bool.false_eq_true, if_false, false_and] at hv ⊢
      rw [Int.emod_eq_of_lt hv.1 hv.2, Int.toNat_of_nonneg hv.1]
  | true =>
      simp only [if_true, true_and] at hv ⊢
      rcases Int.lt_or_le v 0 with hneg | hpos
      · -- a negative value is stored as its complement
        have hmod : v % (2 * 2 ^ n) = v + 2 * 2 ^ n := by
          rw [← Int.add_emod_right, Int.emod_eq_of_lt (by omega) (by omega)]
        rw [hmod, if_pos (by omega), Int.toNat_of_nonneg (by omega)]
        omega
      · have hmod : v % (2 * 2 ^ n) = v := Int.emod_eq_of_lt hpos (by omega)
        rw [hmod, if_neg (by omega), Int.toNat_of_nonneg hpos]

/-- The integer of `n` bytes at `a`. -/
def loadInt (m : Memory) (a n : Nat) (signed : Bool) : Int :=
  ofWord (8 * n) signed (decode (read m a n))

/-- Memory with the `n` low bytes of an integer at `a`. -/
def storeInt (m : Memory) (a n : Nat) (v : Int) : Memory :=
  write m a (encode n (toWord (8 * n) v))

theorem loadInt_storeInt {m : Memory} {a n : Nat} {signed : Bool} {v : Int} (hn : 0 < n)
    (hv : InRange (8 * n) signed v) : loadInt (storeInt m a n v) a n signed = v := by
  have hread : read (storeInt m a n v) a (encode n (toWord (8 * n) v)).length
      = encode n (toWord (8 * n) v) := read_write m a _
  rw [length_encode] at hread
  have hlt : toWord (8 * n) v < 256 ^ n := by
    have h := toWord_lt (8 * n) v
    rwa [pow_mul] at h
  rw [loadInt, hread, decode_encode hlt, ofWord_toWord (by omega) hv]

theorem Agree.loadInt {m m' : Memory} {a n : Nat} (h : Agree m m' a n) (signed : Bool) :
    loadInt m a n signed = loadInt m' a n signed := by
  rw [ByteMemory.loadInt, h.read]
  rfl

theorem agree_storeInt_apart {m : Memory} {a b n k : Nat} {v : Int}
    (h : a + n ≤ b ∨ b + k ≤ a) : Agree (storeInt m a n v) m b k :=
  agree_write_apart (by simpa using h)

end ByteMemory
