import Zbiggie.Machine.StringOps

/-!
# Block operations

`memset`, `memcpy` and `memmove` of `lib.c`, which are inline assembly. One definition for each
label: the registers and the memory come in and go out, a jump back is a recursive call. The
copies of `%ds` to `%es` are left out with the segments.

A call starts with whatever the other registers, and the direction flag, hold.
-/

namespace Zbiggie.Lib

open Machine

theorem sub_one_toNat_lt {x : Word} (h : ¬ x = 0) : (x - 1).toNat < x.toNat := by
  have hx : x.toNat ≠ 0 := fun h0 => h (BitVec.eq_of_toNat_eq h0)
  have h1 : (1 : Word).toNat = 1 := rfl
  have hlt := x.isLt
  rw [BitVec.toNat_sub, h1]
  omega

/-! ## memset -/

/-- `.memset_bottom`. -/
def memsetBottom (c : Cpu) : Cpu :=
  if c.edx = 0 then c
  else memsetBottom { c.put c.edi c.al with edi := c.edi + 1, edx := c.edx - 1 }
termination_by c.edx.toNat
decreasing_by exact sub_one_toNat_lt ‹_›

/-- `.memset_aligned`. -/
def memsetAligned (c : Cpu) : Cpu :=
  let c := { c with edx := c.ecx }
  let c := { c with ecx := c.ecx >>> 2 }
  let c := { c with edx := c.edx &&& 3 }
  let c := { c with df := false }
  memsetBottom (.rep .stosl c)

/-- `.memset_top`. -/
def memsetTop (c : Cpu) : Cpu :=
  if c.ecx = 0 then c
  else if c.edi &&& 3 = 0 then memsetAligned c
  else memsetTop { c.put c.edi c.al with edi := c.edi + 1, ecx := c.ecx - 1 }
termination_by c.ecx.toNat
decreasing_by exact sub_one_toNat_lt ‹_›

/-- `memset(s, c, n)`. -/
def memset (s ch n : Word) (c : Cpu) : Mem :=
  let ch := ch &&& 0xFF
  (memsetTop { c with eax := ch <<< 24 ||| ch <<< 16 ||| ch <<< 8 ||| ch, edi := s, ecx := n }).mem

/-! ## memcpy -/

/-- A byte from `(%esi)` to `(%edi)` through `%al`. -/
def moveByte (c : Cpu) : Cpu :=
  let c := c.setAl (c.load c.esi)
  { c.put c.edi c.al with edi := c.edi + 1, esi := c.esi + 1 }

/-- `.memcpy_bottom`. -/
def memcpyBottom (c : Cpu) : Cpu :=
  if c.edx = 0 then c else memcpyBottom { moveByte c with edx := c.edx - 1 }
termination_by c.edx.toNat
decreasing_by exact sub_one_toNat_lt ‹_›

/-- `.memcpy_aligned`. -/
def memcpyAligned (c : Cpu) : Cpu :=
  let c := { c with edx := c.ecx }
  let c := { c with ecx := c.ecx >>> 2 }
  let c := { c with edx := c.edx &&& 3 }
  let c := { c with df := false }
  memcpyBottom (.rep .movsl c)

/-- `.memcpy_top`. -/
def memcpyTop (c : Cpu) : Cpu :=
  if c.ecx = 0 then c
  else if c.edi &&& 3 = 0 then memcpyAligned c
  else memcpyTop { moveByte c with ecx := c.ecx - 1 }
termination_by c.ecx.toNat
decreasing_by exact sub_one_toNat_lt ‹_›

/-- `memcpy(dest, src, n)`. -/
def memcpy (dest src n : Word) (c : Cpu) : Mem :=
  (memcpyTop { c with esi := src, edi := dest, ecx := n }).mem

/-! ## memmove -/

/-- `memmove(dest, src, n)`. -/
def memmove (dest src n : Word) (c : Cpu) : Mem :=
  let c := { c with edi := dest, esi := src, ecx := n }
  let c := { c with df := false }
  -- `jae` after `cmp %edi, %esi`
  let c :=
    if c.edi ≤ c.esi then c
    else
      let c := { c with esi := c.esi + c.ecx - 1 }
      let c := { c with edi := c.edi + c.ecx - 1 }
      { c with df := true }
  (Cpu.rep .movsb c).mem

end Zbiggie.Lib
