import Zbiggie.Kernel.Zbigfs

/-!
# The real-time clock, port by port

`rtc.c` and the clock's interrupt handler talk to the chip through two ports: a
register is selected at `0x70`, where the top bit also masks the NMI, and then read or
written at `0x71`. The chip is not part of the kernel: it is a device that answers port
accesses, and its state may hold whatever else the chip does by itself between two of
them.

The second half is what the processes share: the flag `rtc_f`, which a reader sets and
spins on, and which the interrupt clears.
-/

namespace Zbiggie

open Machine

/-- A device behind I/O ports: what `outb(data, port)` and `inb(port)` do to it. -/
structure PortDevice (σ : Type) where
  outb : Byte → Nat → σ → σ
  inb : Nat → σ → Byte × σ

namespace Ports

variable {σ : Type} (chip : PortDevice σ)

def rtcIndexPort : Nat := 0x70
def rtcRwPort : Nat := 0x71
def noNmiA : Byte := 0x8A#8
def noNmiB : Byte := 0x8B#8
def noNmiC : Byte := 0x8C#8
def nmiOn : Byte := 0x7F#8
def rtcEnable : Byte := 0x40#8
def rateMask : Byte := 0xF0#8

/-- `outb(inb(RTC_INDEX_PORT) & NMI_ON, RTC_INDEX_PORT)`, with which every access ends. -/
def enableNmi (s : σ) : σ :=
  let (index, s) := chip.inb rtcIndexPort s
  chip.outb (index &&& nmiOn) rtcIndexPort s

/-- `rtc_init()`, up to the interrupt controller. -/
def rtcInit (s : σ) : σ :=
  let s := chip.outb noNmiB rtcIndexPort s
  let (currentB, s) := chip.inb rtcRwPort s
  -- an access to the data port may drop the selection
  let s := chip.outb noNmiB rtcIndexPort s
  let s := chip.outb (currentB ||| rtcEnable) rtcRwPort s
  enableNmi chip s

/-- `change_rtc_freq(rate)`; interrupts are off around the port accesses. -/
def changeRtcFreq (rate : Int) (s : σ) : Int × σ :=
  if rate ≤ 2 ∨ rate > 15 then (-1, s)
  else
    let s := chip.outb noNmiA rtcIndexPort s
    let (previousRate, s) := chip.inb rtcRwPort s
    let s := chip.outb noNmiA rtcIndexPort s
    let s := chip.outb ((previousRate &&& rateMask) ||| BitVec.ofInt 8 rate) rtcRwPort s
    (0, enableNmi chip s)

/-- `rtc_write(f, frequency, numbytes)`. -/
def rtcWrite (frequency : Word) (numbytes : Int) (s : σ) : Int × σ :=
  if numbytes ≠ 4 then (-1, s)
  else
    match frequency.toNat with
    | 2 => changeRtcFreq chip 15 s
    | 4 => changeRtcFreq chip 14 s
    | 8 => changeRtcFreq chip 13 s
    | 16 => changeRtcFreq chip 12 s
    | 32 => changeRtcFreq chip 11 s
    | 64 => changeRtcFreq chip 10 s
    | 128 => changeRtcFreq chip 9 s
    | 256 => changeRtcFreq chip 8 s
    | 512 => changeRtcFreq chip 7 s
    | 1024 => changeRtcFreq chip 6 s
    | _ => (-1, s)

/-- `rtc_open()`. -/
def rtcOpen (s : σ) : Int × σ := changeRtcFreq chip 15 s

/-- The port accesses of `rtc_handler()`: register C is read, which acknowledges the tick. -/
def rtcHandler (s : σ) : σ :=
  let s := chip.outb noNmiC rtcIndexPort s
  let (_, s) := chip.inb rtcRwPort s
  enableNmi chip s

end Ports

/-- The clock as the kernel sees it: the chip, `rtc_f`, and who is inside `rtc_read`. -/
structure Rtc (σ : Type) where
  chip : σ
  rtcF : Bool
  reading : Nat → Bool

/-- What happens to the clock, each of them with interrupts off or in one access. -/
inductive RtcAct where
  | init
  | openRtc
  | write (frequency : Word) (numbytes : Int)
  /-- Process `p` enters `rtc_read` and sets `rtc_f`. -/
  | call (p : Nat)
  /-- Process `p`, in `while(rtc_f);`, loads the flag once. -/
  | poll (p : Nat)
  | interrupt
  deriving DecidableEq

/-- One step of the clock. A process is in `rtc_read` at most once, and polls only there. -/
inductive RtcStep {σ : Type} (chip : PortDevice σ) (s : Rtc σ) : RtcAct → Rtc σ → Prop where
  | init : RtcStep chip s .init { s with chip := Ports.rtcInit chip s.chip }
  | openRtc : RtcStep chip s .openRtc { s with chip := (Ports.rtcOpen chip s.chip).2 }
  | write (frequency : Word) (numbytes : Int) :
      RtcStep chip s (.write frequency numbytes)
        { s with chip := (Ports.rtcWrite chip frequency numbytes s.chip).2 }
  | call (p : Nat) (h : s.reading p = false) :
      RtcStep chip s (.call p)
        { s with rtcF := true, reading := Function.update s.reading p true }
  -- the loop ends on the first load that finds the flag clear
  | poll (p : Nat) (h : s.reading p = true) :
      RtcStep chip s (.poll p) { s with reading := Function.update s.reading p s.rtcF }
  | interrupt :
      RtcStep chip s .interrupt
        { s with chip := Ports.rtcHandler chip s.chip, rtcF := false }

end Zbiggie
