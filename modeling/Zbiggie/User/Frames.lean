import Zbiggie.User.Blink

/-!
# The two frames of the fish

`add_frames` of `fish/fish.c`: it reads two text files side by side, a byte of each at
a time and a line of each at a time, and asks for a blinking character wherever either
has something to show.

A file is what is left of it to read, so that `ece391_read(fd, &c, 1)` takes the first
byte, or answers `0` and leaves `c` alone.
-/

namespace Zbiggie

open Machine

/-- One of the two files: its last byte, its end-of-file flag, and what is left of it. -/
structure FrameSide where
  c : Byte
  eof : Bool
  rest : List Byte
  deriving DecidableEq, Repr

namespace FrameSide

/-- The read at the head of the inner loop, unless the line has ended. -/
def read (f : FrameSide) : FrameSide :=
  if f.c ≠ 0x0A then
    match f.rest with
    | [] => { f with c := 0x0A, eof := true }
    | b :: rest => { f with c := b, rest := rest }
  else f

/-- Between two lines. -/
def nextLine (f : FrameSide) : FrameSide :=
  if f.eof then { f with c := 0x0A } else { f with c := 0x30 }

/-- As the file is opened. -/
def opened (content : List Byte) : FrameSide := ⟨0x30, false, content⟩

end FrameSide

def frameOffset : Nat := 40

/-- The structure passed to `mp1_ioctl`; `blink` is the uninitialised local. -/
def frameBlink (blink : BlinkStruct) (row col : Nat) (c0 c1 : Byte) : BlinkStruct :=
  { blink with
    onLength := 15, offLength := 15
    onChar := if c0 = 0x0A then 0x20 else c0
    offChar := if c1 = 0x0A then 0x20 else c1
    location := BitVec.ofNat 16 (row * 80 + col + frameOffset) }

/-- The inner loop of `add_frames`: one line of each file. -/
def frameLine (blink : BlinkStruct) (row : Nat) :
    Nat → Nat → FrameSide → FrameSide → Option (List BlinkStruct × FrameSide × FrameSide)
  | 0, _, _, _ => none
  | fuel + 1, col, f0, f1 =>
      let f0 := f0.read
      let f1 := f1.read
      if f0.c = 0x0A ∧ f1.c = 0x0A then some ([], f0, f1)
      else
        let add :=
          if (f0.c ≠ 0x20 ∧ f0.c ≠ 0x0A) ∨ (f1.c ≠ 0x20 ∧ f1.c ≠ 0x0A) then
            [frameBlink blink row col f0.c f1.c]
          else []
        (frameLine blink row fuel (col + 1) f0 f1).map fun (adds, f0, f1) => (add ++ adds, f0, f1)

/-- The outer loop. -/
def frameRows (blink : BlinkStruct) (lineFuel : Nat) :
    Nat → Nat → FrameSide → FrameSide → Option (List BlinkStruct)
  | 0, _, _, _ => none
  | fuel + 1, row, f0, f1 =>
      if f0.eof = false ∨ f1.eof = false then
        (frameLine blink row lineFuel 0 f0 f1).bind fun (adds, f0, f1) =>
          (frameRows blink lineFuel fuel (row + 1) f0.nextLine f1.nextLine).map (adds ++ ·)
      else some []

/--
`add_frames(f0, f1, rtc_fd)` on the two files' contents: the structures it adds, in
order; `none` when the fuel was not enough for its loops.
-/
def addFrames (fuel : Nat) (blink : BlinkStruct) (content0 content1 : List Byte) :
    Option (List BlinkStruct) :=
  frameRows blink fuel fuel 0 (.opened content0) (.opened content1)

end Zbiggie
