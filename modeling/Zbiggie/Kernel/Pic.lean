import Zbiggie.Kernel.Rtc

/-!
# The two interrupt controllers

`i8259.c`: how the controllers are initialised, and how a line is masked and unmasked
through their data ports. As for the clock, the controllers are a device behind ports;
both of them are part of its state.
-/

namespace Zbiggie

open Machine

namespace Ports

variable {σ : Type} (pic : PortDevice σ)

def master8259Port : Nat := 0x20
def slave8259Port : Nat := 0xA0
def dataOffset : Nat := 0x01
def icw1 : Byte := 0x11#8
def icw2Master : Byte := 0x20#8
def icw2Slave : Byte := 0x28#8
def icw3Master : Byte := 0x04#8
def icw3Slave : Byte := 0x02#8
def icw4 : Byte := 0x01#8

/-- `i8259_init()`. The last four words all go to the master. -/
def i8259Init (s : σ) : σ :=
  let s := pic.outb icw1 master8259Port s
  let s := pic.outb icw1 slave8259Port s
  let s := pic.outb icw2Master (master8259Port + dataOffset) s
  let s := pic.outb icw2Slave (slave8259Port + dataOffset) s
  let s := pic.outb icw3Master (master8259Port + dataOffset) s
  let s := pic.outb icw3Slave (master8259Port + dataOffset) s
  let s := pic.outb icw4 (master8259Port + dataOffset) s
  pic.outb icw4 (master8259Port + dataOffset) s

/-- The data port of a line's controller, and the line's bit there. -/
def irqPort (irqNum : Nat) : Nat × Byte :=
  if irqNum < 8 then (master8259Port + dataOffset, 1#8 <<< irqNum)
  else (slave8259Port + dataOffset, 1#8 <<< (irqNum - 8))

/-- `enable_irq(irq_num)`: the bit is set. -/
def enableIrq (irqNum : Nat) (s : σ) : σ :=
  let (port, bit) := irqPort irqNum
  let (value, s) := pic.inb port s
  pic.outb (value ||| bit) port s

/-- `disable_irq(irq_num)`: the bit is cleared. -/
def disableIrq (irqNum : Nat) (s : σ) : σ :=
  let (port, bit) := irqPort irqNum
  let (value, s) := pic.inb port s
  pic.outb (value &&& ~~~bit) port s

end Ports

/-- A call of `enable_irq` or of `disable_irq`. -/
inductive PicRequest where
  | enable (irqNum : Nat)
  | disable (irqNum : Nat)
  deriving DecidableEq

/-- The calls in order. -/
def picRequests {σ : Type} (pic : PortDevice σ) (rs : List PicRequest) (s : σ) : σ :=
  rs.foldl (fun s r => match r with
    | .enable irqNum => Ports.enableIrq pic irqNum s
    | .disable irqNum => Ports.disableIrq pic irqNum s) s

end Zbiggie
