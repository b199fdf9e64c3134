import Mathlib.Algebra.Order.Ring.Nat
import Mathlib.Data.List.Basic

/-!
# Lib — ByteMemory

Memory as bytes under addresses, and little-endian words in it. A write is
seen by a read of the same range, and by no read of a range apart from it.
-/

namespace ByteMemory

/-- The byte under every address. -/
abbrev Memory := Nat → UInt8

/-- The `n` bytes from `a` on. -/
def read (m : Memory) : Nat → Nat → List UInt8
  | _, 0 => []
  | a, n + 1 => m a :: read m (a + 1) n

/-- Memory after writing one byte. -/
def writeByte (m : Memory) (a : Nat) (byte : UInt8) : Memory :=
  fun p => if p = a then byte else m p

/-- Memory after writing bytes from `a` on. -/
def write (m : Memory) : Nat → List UInt8 → Memory
  | _, [] => m
  | a, byte :: rest => write (writeByte m a byte) (a + 1) rest

/-- The two memories hold the same `n` bytes from `a` on. -/
def Agree (m m' : Memory) (a n : Nat) : Prop := ∀ p, a ≤ p → p < a + n → m p = m' p

theorem Agree.read {m m' : Memory} {a n : Nat} (h : Agree m m' a n) :
    read m a n = read m' a n := by
  induction n generalizing a with
  | zero => rfl
  | succ n ih =>
      have hhead : m a = m' a := h a (Nat.le_refl a) (by omega)
      have htail : Agree m m' (a + 1) n := fun p hlo hhi => h p (by omega) (by omega)
      simp only [ByteMemory.read, hhead, ih htail]

/-- A write changes nothing outside its range. -/
theorem write_outside {m : Memory} {a p : Nat} {bytes : List UInt8}
    (h : p < a ∨ a + bytes.length ≤ p) : write m a bytes p = m p := by
  induction bytes generalizing m a with
  | nil => rfl
  | cons byte rest ih =>
      rw [List.length_cons] at h
      rw [write, ih (by omega), writeByte, if_neg (by omega)]

/-- What was written is read back. -/
theorem read_write (m : Memory) (a : Nat) (bytes : List UInt8) :
    read (write m a bytes) a bytes.length = bytes := by
  induction bytes generalizing m a with
  | nil => rfl
  | cons byte rest ih =>
      have hhead : write (writeByte m a byte) (a + 1) rest a = byte := by
        rw [write_outside (.inl (Nat.lt_succ_self a)), writeByte, if_pos rfl]
      rw [List.length_cons, read, write, hhead, ih]

/-- A range apart from the one written. -/
theorem agree_write_apart {m : Memory} {a b n : Nat} {bytes : List UInt8}
    (h : a + bytes.length ≤ b ∨ b + n ≤ a) : Agree (write m a bytes) m b n :=
  fun p hlo hhi => write_outside (by omega)

/-! ## Words -/

/-- The number little-endian bytes stand for. -/
def decode : List UInt8 → Nat
  | [] => 0
  | byte :: rest => byte.toNat + 256 * decode rest

/-- The `n` low bytes of a number, lowest first. -/
def encode : Nat → Nat → List UInt8
  | 0, _ => []
  | n + 1, v => UInt8.ofNat v :: encode n (v / 256)

@[simp] theorem length_encode (n v : Nat) : (encode n v).length = n := by
  induction n generalizing v with
  | zero => rfl
  | succ n ih => rw [encode, List.length_cons, ih]

theorem decode_encode {n v : Nat} (h : v < 256 ^ n) : decode (encode n v) = v := by
  induction n generalizing v with
  | zero =>
      have hv : v = 0 := by simpa using h
      rw [hv]
      rfl
  | succ n ih =>
      have hrest : v / 256 < 256 ^ n := by
        apply Nat.div_lt_of_lt_mul
        rwa [Nat.pow_succ, Nat.mul_comm] at h
      have hbyte : (UInt8.ofNat v).toNat = v % 256 := UInt8.toNat_ofNat'
      rw [encode, decode, ih hrest, hbyte]
      exact Nat.mod_add_div v 256

/-- The 64-bit word at `a`. -/
def loadWord (m : Memory) (a : Nat) : Nat := decode (read m a 8)

/-- Memory with the low 64 bits of `v` at `a`. -/
def storeWord (m : Memory) (a v : Nat) : Memory := write m a (encode 8 v)

theorem loadWord_storeWord {m : Memory} {a v : Nat} (h : v < 2 ^ 64) :
    loadWord (storeWord m a v) a = v := by
  have hread : read (storeWord m a v) a (encode 8 v).length = encode 8 v :=
    read_write m a (encode 8 v)
  rw [length_encode] at hread
  rw [loadWord, hread]
  exact decode_encode (by simpa using h)

theorem Agree.loadWord {m m' : Memory} {a : Nat} (h : Agree m m' a 8) :
    loadWord m a = loadWord m' a := by
  rw [ByteMemory.loadWord, h.read]
  rfl

/-- A word stored at `a` is none of the bytes apart from it. -/
theorem agree_storeWord_apart {m : Memory} {a b n v : Nat} (h : a + 8 ≤ b ∨ b + n ≤ a) :
    Agree (storeWord m a v) m b n :=
  agree_write_apart (by simpa using h)

end ByteMemory
