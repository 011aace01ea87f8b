import Mathlib.Logic.Function.Basic
import Zbiggie.Machine.Word

/-!
# The interrupt descriptor table

`populate_idt` of `kernel.c` fills the 256 entries of `x86_desc.h` once, before interrupts
are enabled for the first time. An entry is a packed structure of bit fields; `encode` is
the eight bytes it comes to, which is all the processor sees of it.
-/

namespace Zbiggie

open Machine

/-- An `idt_desc_t`. -/
structure IdtDesc where
  offset15_00 : BitVec 16
  segSelector : BitVec 16
  reserved4 : BitVec 8
  reserved3 : BitVec 1
  reserved2 : BitVec 1
  reserved1 : BitVec 1
  size : BitVec 1
  reserved0 : BitVec 1
  dpl : BitVec 2
  present : BitVec 1
  offset31_16 : BitVec 16
  deriving DecidableEq

/-- The entry in memory, as one little-endian number of 64 bits. -/
def IdtDesc.encode (d : IdtDesc) : Nat :=
  d.offset15_00.toNat + 2 ^ 16 * d.segSelector.toNat + 2 ^ 32 * d.reserved4.toNat
    + 2 ^ 40 * d.reserved3.toNat + 2 ^ 41 * d.reserved2.toNat + 2 ^ 42 * d.reserved1.toNat
    + 2 ^ 43 * d.size.toNat + 2 ^ 44 * d.reserved0.toNat + 2 ^ 45 * d.dpl.toNat
    + 2 ^ 47 * d.present.toNat + 2 ^ 48 * d.offset31_16.toNat

/-- `SET_IDT_ENTRY(str, handler)` -/
def IdtDesc.setEntry (d : IdtDesc) (handler : Word) : IdtDesc :=
  { d with
    offset31_16 := ((handler &&& 0xFFFF0000#32) >>> 16).setWidth 16
    offset15_00 := (handler &&& 0xFFFF#32).setWidth 16 }

/-- The functions that `populate_idt` puts into the table. -/
inductive Handler where
  | divideByZero | reserved1 | nonMaskableInterrupt | breakpoint | overflow
  | boundRangeExceeded | invalidOpcode | deviceNotAvailable | doubleFault
  | coprocessorSegmentOverrun | invalidTss | segmentNotPresent | stackSegmentFault
  | generalProtection | pageFault | commonInterrupt | floatingPointError | alignmentCheck
  | machineCheck | simdFloatingPointException
  | asmRtc | asmKeyboard | syscall | nextTask
  deriving DecidableEq

/-- `arr`, as far as it is initialised. -/
def exceptionHandlers : List Handler :=
  [.divideByZero, .reserved1, .nonMaskableInterrupt, .breakpoint, .overflow,
    .boundRangeExceeded, .invalidOpcode, .deviceNotAvailable, .doubleFault,
    .coprocessorSegmentOverrun, .invalidTss, .segmentNotPresent, .stackSegmentFault,
    .generalProtection, .pageFault, .commonInterrupt, .floatingPointError, .alignmentCheck,
    .machineCheck, .simdFloatingPointException]

def numVec : Nat := 256
def exceptionIndex : Nat := 0x20
def keyboardIndex : Nat := 0x21
def rtcIndex : Nat := 0x28
def sysCallsIndex : Nat := 0x80
def pitIndex : Nat := 0x20
def kernelCs : BitVec 16 := 0x10#16

/-- The fields every entry gets. -/
def IdtDesc.kernelGate (d : IdtDesc) : IdtDesc :=
  { d with
    present := 1, dpl := 0, reserved0 := 0, size := 1, reserved1 := 1, reserved2 := 1
    reserved3 := 0, reserved4 := 0, segSelector := kernelCs }

/-- One round of the loop. `addr` says where the linker has put a function. -/
def populateEntry (addr : Handler → Word) (i : Nat) (idt : Nat → IdtDesc) : Nat → IdtDesc :=
  let d := (idt i).kernelGate
  let d :=
    if i ≥ exceptionIndex then d.setEntry (addr .commonInterrupt)
    else if i < 20 then
      if i = 15 then d else d.setEntry (addr (exceptionHandlers.getD i .commonInterrupt))
    else d
  Function.update idt i d

/-- An entry of its own for one vector. -/
def setVector (idt : Nat → IdtDesc) (i : Nat) (handler : Word) : Nat → IdtDesc :=
  Function.update idt i ((idt i).setEntry handler)

/-- `populate_idt()`, up to the `lidt`. -/
def populateIdt (addr : Handler → Word) (idt : Nat → IdtDesc) : Nat → IdtDesc :=
  let idt := forLoop numVec (populateEntry addr) idt
  let idt := setVector idt rtcIndex (addr .asmRtc)
  let idt := setVector idt keyboardIndex (addr .asmKeyboard)
  let idt := setVector idt sysCallsIndex (addr .syscall)
  let idt := Function.update idt sysCallsIndex
    { idt sysCallsIndex with dpl := 3, reserved3 := 1 }
  setVector idt pitIndex (addr .nextTask)

end Zbiggie
