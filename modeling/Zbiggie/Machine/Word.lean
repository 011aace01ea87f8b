import Mathlib.Algebra.Group.Nat.Defs
import Mathlib.Data.Int.Basic
import Mathlib.Logic.Function.Basic
import Zbiggie.Machine.Run

/-!
# Bytes, 32-bit words and byte-addressed memory

C on a 32-bit x86 mixes three views of one register: the unsigned value, the
signed value, and the residue a sum wraps to. `Word` is the register; its `toNat`
and `toInt` are the two readings, and `int32` is the reading of a mathematical
integer once it has been squeezed into a signed register.

Memory is a function from addresses to bytes. The only way to change one is
`store`, and a string function of the C library is a fold of stores.
-/

namespace Zbiggie.Machine

/-- A byte of memory. -/
abbrev Byte := BitVec 8

/-- A 32-bit register. -/
abbrev Word := BitVec 32

/-- Memory, or a C array, from its first element on. -/
abbrev Mem := Nat → Byte

/-- An integer as a signed 32-bit register holds it. -/
def int32 (n : Int) : Int := Int.bmod n 4294967296

theorem int32_of_range {n : Int} (h1 : -2147483648 ≤ n) (h2 : n < 2147483648) : int32 n = n := by
  unfold int32
  rw [Int.bmod_eq_of_le] <;> omega

/-! ## Memory -/

/-- One byte stored at `a`. -/
def store (m : Mem) (a : Nat) (b : Byte) : Mem := Function.update m a b

@[simp] theorem store_self (m : Mem) (a : Nat) (b : Byte) : store m a b a = b := by
  simp [store]

theorem store_of_ne {m : Mem} {a c : Nat} {b : Byte} (h : c ≠ a) : store m a b c = m c := by
  simp [store, h]

/-- The little-endian word at `a`. -/
def loadWord (m : Mem) (a : Nat) : Word :=
  m (a + 3) ++ m (a + 2) ++ m (a + 1) ++ m a

/-- A word is its four bytes. -/
theorem loadWord_congr {m m' : Mem} {a b : Nat} (h : ∀ i, i < 4 → m (a + i) = m' (b + i)) :
    loadWord m a = loadWord m' b := by
  have h0 := h 0 (by omega)
  rw [Nat.add_zero, Nat.add_zero] at h0
  unfold loadWord
  rw [h 3 (by omega), h 2 (by omega), h 1 (by omega), h0]

theorem append_byte_inj {n : Nat} {x y : BitVec n} {a b : Byte} (h : x ++ a = y ++ b) :
    x = y ∧ a = b := by
  have hnat := congrArg BitVec.toNat h
  rw [BitVec.toNat_append, BitVec.toNat_append, ← Nat.shiftLeft_add_eq_or_of_lt a.isLt,
    ← Nat.shiftLeft_add_eq_or_of_lt b.isLt, Nat.shiftLeft_eq, Nat.shiftLeft_eq] at hnat
  have ha := a.isLt
  have hb := b.isLt
  exact ⟨BitVec.eq_of_toNat_eq (by omega), BitVec.eq_of_toNat_eq (by omega)⟩

/-- And its four bytes are it. -/
theorem loadWord_inj {m m' : Mem} {a b : Nat} (h : loadWord m a = loadWord m' b) {i : Nat}
    (hi : i < 4) : m (a + i) = m' (b + i) := by
  obtain ⟨h3, h0⟩ := append_byte_inj h
  obtain ⟨h3, h1⟩ := append_byte_inj h3
  obtain ⟨h3, h2⟩ := append_byte_inj h3
  rcases i with _ | _ | _ | _ | i
  · exact h0
  · exact h1
  · exact h2
  · exact h3
  · omega

/-- `memcpy(dest, src, n)`, the source being read from a memory of its own. -/
def memcpy (m : Mem) (dest : Nat) (src : Nat → Byte) (n : Nat) : Mem :=
  forLoop n (fun i m => store m (dest + i) (src i)) m

/-- What `memcpy` leaves: the source inside the destination, the old bytes outside it. -/
theorem memcpy_apply (m : Mem) (dest : Nat) (src : Nat → Byte) (n a : Nat) :
    memcpy m dest src n a = if dest ≤ a ∧ a < dest + n then src (a - dest) else m a := by
  unfold memcpy
  refine forLoop_inv
    (P := fun i (m' : Mem) => m' a = if dest ≤ a ∧ a < dest + i then src (a - dest) else m a)
    (by rw [if_neg (by omega)]) n ?_
  intro i t _ ih
  by_cases ha : a = dest + i
  · subst ha
    rw [store_self, if_pos (by omega)]
    congr 1; omega
  · rw [store_of_ne ha, ih]
    by_cases hin : dest ≤ a ∧ a < dest + i
    · rw [if_pos hin, if_pos (by omega)]
    · rw [if_neg hin, if_neg (by omega)]

theorem memcpy_congr (m : Mem) (dest : Nat) {src src' : Nat → Byte} {n : Nat}
    (h : ∀ i, i < n → src i = src' i) : memcpy m dest src n = memcpy m dest src' n := by
  funext a
  rw [memcpy_apply, memcpy_apply]
  split
  · exact h _ (by omega)
  · rfl

/-- Two copies of adjacent pieces, to adjacent places, are one. -/
theorem memcpy_append (m : Mem) (dest : Nat) (src : Nat → Byte) (n k : Nat) :
    memcpy (memcpy m dest src n) (dest + n) (fun i => src (n + i)) k
      = memcpy m dest src (n + k) := by
  funext a
  simp only [memcpy_apply]
  by_cases h1 : a < dest
  · rw [if_neg (by omega), if_neg (by omega), if_neg (by omega)]
  · by_cases h2 : a < dest + n
    · rw [if_neg (by omega), if_pos (by omega), if_pos (by omega)]
    · by_cases h3 : a < dest + n + k
      · rw [if_pos (by omega), if_pos (by omega)]
        congr 1
        omega
      · rw [if_neg (by omega), if_neg (by omega), if_neg (by omega)]

/-! ## C strings

A NUL-terminated string is the list of its bytes before the terminator, and
`cstr s i` is what `s[i]` reads: the terminator once the list is exhausted. -/

/-- The memory a pointer to the NUL-terminated string `s` reads. -/
def cstr (s : List Byte) : Mem := fun i => s.getD i 0

/-- `strncmp(s1, s2, n)`, from index `i` with `fuel` characters to go. -/
def strncmpFrom (s1 s2 : Mem) : Nat → Nat → Int
  | 0, _ => 0
  | fuel + 1, i =>
      if s1 i ≠ s2 i ∨ s1 i = 0 then (s1 i).toInt - (s2 i).toInt
      else strncmpFrom s1 s2 fuel (i + 1)

/-- `strncmp(s1, s2, n)`. -/
def strncmp (s1 s2 : Mem) (n : Nat) : Int := strncmpFrom s1 s2 n 0

/--
The first loop of `strncpy`: copy while the source has not ended and the limit is
not reached. Returns the index it stopped at.
-/
def strncpyCopy (src : Mem) (n : Nat) : Nat → Nat → Mem → Nat × Mem
  | 0, i, dest => (i, dest)
  | fuel + 1, i, dest =>
      if src i ≠ 0 ∧ i < n then strncpyCopy src n fuel (i + 1) (store dest i (src i))
      else (i, dest)

/-- `strncpy(dest, src, n)`: the copy, then NULs up to the limit. -/
def strncpy (dest src : Mem) (n : Nat) : Mem :=
  let (i, dest) := strncpyCopy src n n 0 dest
  forLoop (n - i) (fun j m => store m (i + j) 0) dest

end Zbiggie.Machine
