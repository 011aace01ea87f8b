import Zbiggie.Machine.Word

/-!
# String instructions

The registers and the memory that the x86 string instructions work on, and those
instructions: `movsb`, `movsl`, `stosl` and the `rep` in front of them. Segments are flat, so
that an address is a register, and the direction flag says which way the registers go.

`Filled` is how far a block has been filled from a stream of bytes, and it does not matter to
it whether the bytes went in one at a time or four at a time.
-/

namespace Zbiggie.Machine

/-- What the string instructions read and write. -/
structure Cpu where
  eax : Word
  ecx : Word
  edx : Word
  esi : Word
  edi : Word
  /-- The direction flag: set for downwards. -/
  df : Bool
  mem : Mem

namespace Cpu

/-- The byte at an address. -/
def load (c : Cpu) (a : Word) : Byte := c.mem a.toNat

/-- A byte to an address. -/
def put (c : Cpu) (a : Word) (b : Byte) : Cpu := { c with mem := store c.mem a.toNat b }

/-- `%al`. -/
def al (c : Cpu) : Byte := c.eax.setWidth 8

/-- A byte to `%al`. -/
def setAl (c : Cpu) (b : Byte) : Cpu := { c with eax := c.eax.extractLsb' 8 24 ++ b }

/-- The little-endian word at an address. -/
def load4 (c : Cpu) (a : Word) : Word :=
  c.load (a + 3) ++ c.load (a + 2) ++ c.load (a + 1) ++ c.load a

/-- A word to an address. -/
def put4 (c : Cpu) (a w : Word) : Cpu :=
  (((c.put a (w.extractLsb' 0 8)).put (a + 1) (w.extractLsb' 8 8)).put (a + 2)
    (w.extractLsb' 16 8)).put (a + 3) (w.extractLsb' 24 8)

/-- What an operand of `n` bytes moves a register by. -/
def stride (c : Cpu) (n : Word) : Word := if c.df then -n else n

def movsb (c : Cpu) : Cpu :=
  { c.put c.edi (c.load c.esi) with esi := c.esi + c.stride 1, edi := c.edi + c.stride 1 }

def movsl (c : Cpu) : Cpu :=
  { c.put4 c.edi (c.load4 c.esi) with esi := c.esi + c.stride 4, edi := c.edi + c.stride 4 }

def stosl (c : Cpu) : Cpu := { c.put4 c.edi c.eax with edi := c.edi + c.stride 4 }

theorem stosl_mem (c : Cpu) : c.stosl.mem = (c.put4 c.edi c.eax).mem := by
  unfold stosl
  rfl

/-- A word that is stored changes no register but the one that counts. -/
theorem stosl_kept (c : Cpu) :
    c.stosl.eax = c.eax ∧ c.stosl.df = c.df ∧ c.stosl.edx = c.edx := by
  unfold stosl put4 put
  exact ⟨rfl, rfl, rfl⟩

theorem movsl_mem (c : Cpu) : c.movsl.mem = (c.put4 c.edi (c.load4 c.esi)).mem := by
  unfold movsl
  rfl

theorem movsl_kept (c : Cpu) : c.movsl.df = c.df ∧ c.movsl.edx = c.edx := by
  unfold movsl put4 put
  exact ⟨rfl, rfl⟩

/-- `rep`: the instruction `%ecx` times. -/
def rep (op : Cpu → Cpu) (c : Cpu) : Cpu :=
  { forLoop c.ecx.toNat (fun _ c => op c) c with ecx := 0 }

end Cpu

/-! ## Words and their bytes -/

/-- An address `k` behind another. -/
def offset (a : Word) (k : Nat) : Word := a + BitVec.ofNat 32 k

theorem offset_zero (a : Word) : offset a 0 = a := BitVec.add_zero a

theorem offset_add (a : Word) (k n : Nat) : offset a k + BitVec.ofNat 32 n = offset a (k + n) := by
  unfold offset
  rw [BitVec.add_assoc, ← BitVec.ofNat_add]

theorem toNat_offset {a : Word} {k : Nat} (h : a.toNat + k < 0x100000000) :
    (offset a k).toNat = a.toNat + k := by
  unfold offset
  rw [BitVec.toNat_add, BitVec.toNat_ofNat]
  omega

theorem al_setAl (c : Cpu) (b : Byte) : (c.setAl b).al = b := by
  unfold Cpu.setAl Cpu.al
  exact BitVec.setWidth_append_eq_right

theorem append_low {n : Nat} (x : BitVec n) (b : Byte) : (x ++ b).extractLsb' 0 8 = b := by
  ext i hi
  rw [BitVec.getElem_extractLsb', BitVec.getLsbD_append, if_pos (by omega), Nat.zero_add,
    BitVec.getLsbD_eq_getElem hi]

theorem append_high {n : Nat} (x : BitVec n) (b : Byte) (k : Nat) :
    (x ++ b).extractLsb' (k + 8) 8 = x.extractLsb' k 8 := by
  ext i hi
  rw [BitVec.getElem_extractLsb', BitVec.getElem_extractLsb', BitVec.getLsbD_append,
    if_neg (by omega)]
  congr 1
  omega

theorem extract_byte (b : Byte) : b.extractLsb' 0 8 = b := by
  ext i hi
  rw [BitVec.getElem_extractLsb', Nat.zero_add, BitVec.getLsbD_eq_getElem hi]

/-- The bytes of a word are the ones it was loaded from. -/
theorem load4_byte (c : Cpu) (a : Word) :
    (c.load4 a).extractLsb' 0 8 = c.load a ∧ (c.load4 a).extractLsb' 8 8 = c.load (a + 1) ∧
      (c.load4 a).extractLsb' 16 8 = c.load (a + 2) ∧
      (c.load4 a).extractLsb' 24 8 = c.load (a + 3) := by
  unfold Cpu.load4
  refine ⟨append_low _ _, ?_, ?_, ?_⟩
  · rw [append_high _ _ 0, append_low]
  · rw [append_high _ _ 8, append_high _ _ 0, append_low]
  · rw [append_high _ _ 16, append_high _ _ 8, append_high _ _ 0, extract_byte]

/-! ## Filling a block -/

/-- The first `k` bytes of `f` have gone to `d`, and `%edi` stands behind them. -/
structure Filled (m : Mem) (d : Word) (f : Nat → Byte) (k : Nat) (c : Cpu) : Prop where
  mem : c.mem = memcpy m d.toNat f k
  edi : c.edi = offset d k

section Filling

variable {m : Mem} {d : Word} {f : Nat → Byte} {k : Nat} {c : Cpu}

theorem Filled.put (h : Filled m d f k c) (hk : d.toNat + k < 0x100000000) :
    (c.put c.edi (f k)).mem = memcpy m d.toNat f (k + 1) := by
  unfold Cpu.put
  dsimp only
  rw [h.edi, toNat_offset hk, h.mem]
  rfl

theorem Filled.put4 (h : Filled m d f k c) (hk : d.toNat + k + 4 ≤ 0x100000000) {w : Word}
    (h0 : w.extractLsb' 0 8 = f k) (h1 : w.extractLsb' 8 8 = f (k + 1))
    (h2 : w.extractLsb' 16 8 = f (k + 2)) (h3 : w.extractLsb' 24 8 = f (k + 3)) :
    (c.put4 c.edi w).mem = memcpy m d.toNat f (k + 4) := by
  have ha : ∀ j, j < 4 → (offset d k + BitVec.ofNat 32 j).toNat = d.toNat + (k + j) := by
    intro j hj
    rw [offset_add, toNat_offset (by omega)]
  unfold Cpu.put4 Cpu.put
  dsimp only
  rw [h.edi, h.mem, h0, h1, h2, h3]
  rw [show (offset d k + 1).toNat = d.toNat + (k + 1) from ha 1 (by omega),
    show (offset d k + 2).toNat = d.toNat + (k + 2) from ha 2 (by omega),
    show (offset d k + 3).toNat = d.toNat + (k + 3) from ha 3 (by omega),
    toNat_offset (by omega)]
  rfl

end Filling

end Zbiggie.Machine
