import Zbiggie.Kernel.Format

/-!
# The pingpong program

`ece391pingpong.c` moves a character between two walls, one frame for each tick of the
clock it set up, for ever, and takes the next letter after each round. What it does is
the list of its calls; the buffer is the program's own array, from address `0`.
-/

namespace Zbiggie.Pingpong

open Machine

/-- `SCREENWIDTH` -/
def screenwidth : Nat := 79

/-- `ENDING` -/
def ending : Nat := 2

/-- `BUFMAX`, without parentheses in the source; where it is used they would not matter. -/
def bufmax : Nat := screenwidth + ending

/-- `START` -/
def start : Nat := 1

/-- `STARTLOOP` -/
def startloop : Nat := start + 1

/-- `LOOPMAX` -/
def loopmax : Nat := bufmax - ending - 1

/-- `STARTCHAR` and `ENDCHAR`. -/
def startchar : Byte := 0x41
def endchar : Byte := 0x5A

/-- The calls the program makes. -/
inductive Act where
  | opened (filename : List Byte)
  | setRate (rate : Word)
  | wrote (s : List Byte)
  | waited

/-- "rtc" -/
def rtcName : List Byte := [0x72, 0x74, 0x63]

/-- The buffer before the first frame: blanks, and the walls. -/
def walls (buf : Mem) : Mem :=
  let buf := forLoop bufmax (fun i buf => store buf i 0x20) buf
  let buf := store buf (bufmax - 1) 0
  let buf := store buf (bufmax - 2) 0x0A
  let buf := store buf (bufmax - 3) 0x7C
  store buf start 0x7C

/-- The body of both `for`s: a frame with the character at `j`, and a wait. -/
def frame (curchar : Byte) (j : Nat) (buf : Mem) : List Act × Mem :=
  let buf := forLoop (loopmax - startloop) (fun i buf => store buf (startloop + i) 0x20) buf
  let buf := store buf j curchar
  ([.wrote (puts buf), .waited], buf)

/-- "Move out": the last `n` rounds of the loop upwards. -/
def moveOut (curchar : Byte) : Nat → Mem → List Act × Mem
  | 0, buf => ([], buf)
  | n + 1, buf =>
      let (acts, buf) := frame curchar (loopmax - (n + 1)) buf
      let (rest, buf) := moveOut curchar n buf
      (acts ++ rest, buf)

/-- "Bounce back": the last `n` rounds of the loop downwards. -/
def bounceBack (curchar : Byte) : Nat → Mem → List Act × Mem
  | 0, buf => ([], buf)
  | n + 1, buf =>
      let (acts, buf) := frame curchar (startloop + n) buf
      let (rest, buf) := bounceBack curchar n buf
      (acts ++ rest, buf)

/-- The letter after a round. -/
def nextChar (curchar : Byte) : Byte := if curchar = endchar then startchar else curchar + 1

/-- The first `rounds` rounds of the `while (1)`. -/
def rounds : Nat → Byte → Mem → List Act
  | 0, _, _ => []
  | n + 1, curchar, buf =>
      let (out, buf) := moveOut curchar (loopmax - startloop) buf
      let (back, buf) := bounceBack curchar (loopmax - startloop) buf
      out ++ back ++ rounds n (nextChar curchar) buf

/-- `main`, on the uninitialised `buf`, as far as `n` rounds go. -/
def main (n : Nat) (buf : Mem) : List Act :=
  .opened rtcName :: .setRate 32 :: rounds n startchar (walls buf)

end Zbiggie.Pingpong
