import Zbiggie.Kernel.Tasking

/-!
# Text output

The screen half of `lib.c`. The foreground terminal is written through
`video_mem`, the fourth page of the video table; a background terminal through
`map_video_mem`, the low address whose mapping follows the running process. All
stores go through the page tables (`kstore`), because which page is hit is the
whole point.

The hardware cursor (`cursor_loc`) is two port writes and no kernel variable; it
is left out.
-/

namespace Zbiggie

open Machine

/-- `video_mem`: always the video page. -/
def videoMem : Nat := bufferPage 3
/-- `map_video_mem`: whatever the low video entry maps to. -/
def mapVideoMem : Nat := offsetVideo

namespace Kernel

def setScreenX (k : Kernel) (t : Term) (x : Int) : Kernel :=
  { k with screen := { k.screen with screenX := Function.update k.screen.screenX t x } }

def setScreenY (k : Kernel) (t : Term) (y : Int) : Kernel :=
  { k with screen := { k.screen with screenY := Function.update k.screen.screenY t y } }

def setBiggestY (k : Kernel) (t : Term) (y : Int) : Kernel :=
  { k with screen := { k.screen with biggestY := Function.update k.screen.biggestY t y } }

def setWriteX (k : Kernel) (t : Term) (x : Int) : Kernel :=
  { k with term := { k.term with writeX := Function.update k.term.writeX t x } }

def setWriteY (k : Kernel) (t : Term) (y : Int) : Kernel :=
  { k with term := { k.term with writeY := Function.update k.term.writeY t y } }

end Kernel

/-! ## Cells -/

/-- `(int)(base + ((NUM_COLS*y + x) << 1))`. -/
def cellAddr (base : Nat) (x y : Int) : Int := int32 (base + 2 * (numCols * y + x))

/-- A character and its attribute at the cursor, if the address passes the guard. -/
def putCell (L : Layout) (base : Nat) (attr : Byte) (x y : Int) (c : Byte) (k : Kernel) : Kernel :=
  let cond := cellAddr base x y
  if 0 < cond ∧ cond < base + offset4K - 1 then
    kstore L (kstore L k (BitVec.ofInt 32 cond) c) (BitVec.ofInt 32 (cond + 1)) attr
  else k

/-- The address of cell `(x, y)` in the loops that never leave the screen. -/
def cellWord (base x y : Nat) : Word := BitVec.ofNat 32 (base + 2 * (numCols * y + x))

/-- The row-copying loops of `scroll` and `mt_scroll`: each row takes the one below it. -/
def scrollRows (L : Layout) (base : Nat) (k : Kernel) : Kernel :=
  forLoop (numRows - 1) (fun y k => forLoop numCols (fun x k =>
      let k := kstore L k (cellWord base x y) (kload L k (cellWord base x (y + 1)))
      kstore L k (cellWord base x y + 1) (kload L k (cellWord base x (y + 1) + 1))) k) k

/-- Their last loop: row `y` blank, in the terminal's colour. -/
def blankRow (L : Layout) (base y : Nat) (attr : Byte) (k : Kernel) : Kernel :=
  forLoop numCols (fun x k =>
    kstore L (kstore L k (cellWord base x y) 0) (cellWord base x y + 1) attr) k

/-! ## Scrolling and characters -/

/-- `scroll()`. -/
def scroll (L : Layout) (k : Kernel) : Kernel :=
  let t := k.page.currentTerminal
  let k := scrollRows L videoMem k
  let k := (k.setBiggestY t (numRows - 1)).setScreenY t (numRows - 1)
  let k := blankRow L videoMem (numRows - 1) (attribs t) k
  let k := k.setScreenX t 0
  k.setWriteY t (k.term.writeY t - 1)

/-- `mt_scroll()`. -/
def mtScroll (L : Layout) (k : Kernel) : Kernel :=
  let a := k.task.currentActiveProcess
  if a = k.page.currentTerminal then scroll L k
  else
    let k := scrollRows L mapVideoMem k
    let k := (k.setBiggestY a (numRows - 1)).setScreenY a (numRows - 1)
    let k := blankRow L mapVideoMem (numRows - 1) (attribs a) k
    k.setScreenX a 0

/-- The cursor of `t` to the start of the next row. -/
def nextRow (t : Term) (k : Kernel) : Kernel :=
  let k := k.setScreenY t (k.screen.screenY t + 1)
  let k := k.setBiggestY t (k.screen.biggestY t + 1)
  k.setScreenX t 0

/-- The first half of `putc` and `mt_putc`: a line break, or the character at the cursor. -/
def putChar (L : Layout) (base : Nat) (t : Term) (c : Byte) (k : Kernel) : Kernel :=
  if c = 0x0A ∨ c = 0x0D then nextRow t k
  else
    let k := putCell L base (attribs t) (k.screen.screenX t) (k.screen.screenY t) c k
    k.setScreenX t (k.screen.screenX t + 1)

/-- `putc(c)`: a character to the foreground terminal. -/
def putc (L : Layout) (c : Byte) (k : Kernel) : Kernel :=
  let t := k.page.currentTerminal
  let k := putChar L videoMem t c k
  let k := if k.screen.screenX t ≥ numCols then nextRow t k else k
  if k.screen.screenY t ≥ numRows then scroll L k else k

/--
`mt_putc(c)`: a character to the terminal of the running process. The column
tested for the wrap is the *foreground* terminal's.
-/
def mtPutc (L : Layout) (c : Byte) (k : Kernel) : Kernel :=
  let a := k.task.currentActiveProcess
  if a = k.page.currentTerminal then putc L c k
  else
    let k := putChar L mapVideoMem a c k
    let k := if k.screen.screenX k.page.currentTerminal ≥ numCols then nextRow a k else k
    if k.screen.screenY a ≥ numRows then mtScroll L k else k

/-! ## The keyboard's side of the screen -/

/-- `clear()`. -/
def clear (L : Layout) (k : Kernel) : Kernel :=
  let t := k.page.currentTerminal
  let k := forLoop (numRows * numCols) (fun i k =>
    kstore L (kstore L k (BitVec.ofNat 32 (videoMem + 2 * i)) 0x20)
      (BitVec.ofNat 32 (videoMem + 2 * i + 1)) (attribs t)) k
  ((k.setBiggestY t 0).setScreenY t 0).setScreenX t 0

/-- `set_pos(x, y)`. -/
def setPos (x y : Int) (k : Kernel) : Kernel :=
  (k.setScreenX k.page.currentTerminal x).setScreenY k.page.currentTerminal y

/-- `set_x(x)`. -/
def setX (x : Int) (k : Kernel) : Kernel := k.setScreenX k.page.currentTerminal x

/-- `move_right()`. -/
def moveRight (k : Kernel) : Kernel :=
  let t := k.page.currentTerminal
  if k.screen.screenX t < numCols - 1 then k.setScreenX t (k.screen.screenX t + 1)
  else if k.screen.screenY t < numRows - 1 then
    (k.setScreenX t 0).setScreenY t (k.screen.screenY t + 1)
  else k

/-- `move_left()`. -/
def moveLeft (k : Kernel) : Kernel :=
  let t := k.page.currentTerminal
  if k.screen.screenX t > 0 then k.setScreenX t (k.screen.screenX t - 1)
  else if k.screen.screenY t > 0 then
    (k.setScreenX t (numCols - 1)).setScreenY t (k.screen.screenY t - 1)
  else k

/-- The backspace branch of `putc_kb`. -/
def putcKbBackspace (L : Layout) (k : Kernel) : Kernel :=
  let t := k.page.currentTerminal
  if k.screen.screenY t = 0 ∧ k.screen.screenX t = 0 then
    putCell L videoMem (attribs t) (k.screen.screenX t) (k.screen.screenY t) 0x20 k
  else
    let k := k.setScreenX t (k.screen.screenX t - 1)
    let k :=
      if k.screen.screenX t < 0 then
        let k := (k.setScreenX t (numCols - 1)).setScreenY t (k.screen.screenY t - 1)
        let k := k.setBiggestY t (k.screen.biggestY t - 1)
        if k.screen.screenY t < 0 then (k.setScreenY t 0).setBiggestY t 0 else k
      else k
    putCell L videoMem (attribs t) (k.screen.screenX t) (k.screen.screenY t) 0x20 k

/-- `putc_kb(c)`: a typed character to the foreground terminal. -/
def putcKb (L : Layout) (c : Byte) (k : Kernel) : Kernel :=
  let t := k.page.currentTerminal
  let k :=
    if c = 0x0A ∨ c = 0x0D then (k.setScreenY t (k.screen.screenY t + 1)).setScreenX t 0
    else if c = 0x08 then putcKbBackspace L k
    else
      let k := if k.screen.screenX t ≥ numCols then nextRow t k else k
      let k := putCell L videoMem (attribs t) (k.screen.screenX t) (k.screen.screenY t) c k
      k.setScreenX t (k.screen.screenX t + 1)
  let k := if k.screen.screenX t ≥ numCols then nextRow t k else k
  if k.screen.screenY t ≥ numRows then scroll L k else k

/-- One cell of `scoot_text`: the character from `src`, the attribute the terminal's. -/
def scootCell (L : Layout) (t : Term) (dst src : Int) (k : Kernel) : Kernel :=
  let k := kstore L k (BitVec.ofInt 32 (videoMem + 2 * dst))
    (kload L k (BitVec.ofInt 32 (videoMem + 2 * src)))
  kstore L k (BitVec.ofInt 32 (videoMem + 2 * dst + 1)) (attribs t)

/--
`scoot_text()`: every character from the cursor on moves one cell right. Both
loops run downwards, from the last row and from the last column.
-/
def scootText (L : Layout) (k : Kernel) : Kernel :=
  let t := k.page.currentTerminal
  let y0 := k.screen.screenY t
  let x0 := k.screen.screenX t
  let k := forLoop (numRows - 1 - y0).toNat (fun j k =>
    let y : Int := numRows - 1 - j
    let k := scootCell L t (numCols * y) (numCols * (y - 1) + numCols - 1) k
    forLoop (numCols - 1) (fun i k =>
      let x : Int := numCols - 1 - i
      scootCell L t (numCols * y + x) (numCols * y + x - 1) k) k) k
  forLoop (numCols - 1 - x0).toNat (fun i k =>
    let x : Int := numCols - 1 - i
    scootCell L t (numCols * y0 + x) (numCols * y0 + x - 1) k) k

end Zbiggie
