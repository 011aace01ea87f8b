import Zbiggie.Kernel.Screen

/-!
# The terminals and the keyboard

`terminal.c`, `switch_video` of `page.c` and `key_handler` of `idt_funcs.c`. Every
routine the keyboard reaches works on the foreground terminal; `term_write` works
on the terminal of the running process.

`term_read` is not one step. It spins until Enter is typed, and although it then
masks interrupts, the `putc('\n')` it makes next ends in `sti`, so the loop that
copies the line runs with interrupts on. Its steps are taken apart at the end of
this file.
-/

namespace Zbiggie

open Machine

def startPos : Int := 10

/-! ## Switching terminals -/

/-- `switch_video(term_num)`. -/
def switchVideo (L : Layout) (u : Term) (k : Kernel) : Kernel :=
  if k.page.currentTerminal = u then k
  else
    let k := kmemcpy L (BitVec.ofNat 32 (bufferPage k.page.currentTerminal))
      (BitVec.ofNat 32 (bufferPage 3)) offset4K k
    let k := { k with page := { k.page with currentTerminal := u } }
    let k := kmemcpy L (BitVec.ofNat 32 (bufferPage 3)) (BitVec.ofNat 32 (bufferPage u)) offset4K k
    switchContext k.task.currentProcess k

/-- `term_switch()`. -/
def termSwitch (k : Kernel) : Kernel :=
  setPos (k.screen.screenX k.page.currentTerminal) (k.screen.screenY k.page.currentTerminal) k

/-! ## The line editor -/

namespace Kernel

/-- The address of `buffer[t][i]`. -/
def lineAddr (t : Term) (i : Int) : Int := bufSize * (t : Nat) + i

/-- `buffer[t][i]`. -/
def line (k : Kernel) (t : Term) (i : Int) : Byte := k.term.buffer (lineAddr t i)

def setLine (k : Kernel) (t : Term) (i : Int) (b : Byte) : Kernel :=
  { k with term := { k.term with buffer := Function.update k.term.buffer (lineAddr t i) b } }

def setCurPos (k : Kernel) (t : Term) (n : Int) : Kernel :=
  { k with term := { k.term with curPos := Function.update k.term.curPos t n } }

def setCurSize (k : Kernel) (t : Term) (n : Int) : Kernel :=
  { k with term := { k.term with curSize := Function.update k.term.curSize t n } }

def setPrevSize (k : Kernel) (t : Term) (n : Int) : Kernel :=
  { k with term := { k.term with prevSize := Function.update k.term.prevSize t n } }

def setWaitForNl (k : Kernel) (t : Term) (b : Bool) : Kernel :=
  { k with term := { k.term with waitForNl := Function.update k.term.waitForNl t b } }

/-! What each setter leaves of the terminals' variables. -/

@[simp] theorem setLine_term (k : Kernel) (t : Term) (i : Int) (b : Byte) :
    (k.setLine t i b).term
      = { k.term with buffer := Function.update k.term.buffer (lineAddr t i) b } := rfl
@[simp] theorem setCurPos_term (k : Kernel) (t : Term) (n : Int) :
    (k.setCurPos t n).term = { k.term with curPos := Function.update k.term.curPos t n } := rfl
@[simp] theorem setCurSize_term (k : Kernel) (t : Term) (n : Int) :
    (k.setCurSize t n).term = { k.term with curSize := Function.update k.term.curSize t n } := rfl
@[simp] theorem setPrevSize_term (k : Kernel) (t : Term) (n : Int) :
    (k.setPrevSize t n).term
      = { k.term with prevSize := Function.update k.term.prevSize t n } := rfl
@[simp] theorem setWaitForNl_term (k : Kernel) (t : Term) (b : Bool) :
    (k.setWaitForNl t b).term
      = { k.term with waitForNl := Function.update k.term.waitForNl t b } := rfl
@[simp] theorem setWriteX_term (k : Kernel) (t : Term) (x : Int) :
    (k.setWriteX t x).term = { k.term with writeX := Function.update k.term.writeX t x } := rfl
@[simp] theorem setWriteY_term (k : Kernel) (t : Term) (y : Int) :
    (k.setWriteY t y).term = { k.term with writeY := Function.update k.term.writeY t y } := rfl

@[simp] theorem setLine_page (k : Kernel) (t : Term) (i : Int) (b : Byte) :
    (k.setLine t i b).page = k.page := rfl
@[simp] theorem setCurPos_page (k : Kernel) (t : Term) (n : Int) :
    (k.setCurPos t n).page = k.page := rfl
@[simp] theorem setCurSize_page (k : Kernel) (t : Term) (n : Int) :
    (k.setCurSize t n).page = k.page := rfl

/-- `history[t][row][i]`. -/
def hist (k : Kernel) (t : Term) (row i : Int) : Byte :=
  k.term.history ((histSize * (t : Nat) + row) * bufSize + i)

def setHistIndex (k : Kernel) (t : Term) (n : Int) : Kernel :=
  { k with term := { k.term with histIndeces := Function.update k.term.histIndeces t n } }

end Kernel

/-- `term_init()`. -/
def termInit (k : Kernel) : Kernel :=
  let t := k.page.currentTerminal
  let k := forLoop bufSize (fun i k => k.setLine t i 0) k
  (((k.setCurPos t 0).setCurSize t 0).setWriteX t 0).setWriteY t 0

/-- The Enter branch of `term_putc`. -/
def termEnter (k : Kernel) : Kernel :=
  let t := k.page.currentTerminal
  let k := k.setLine t (k.term.curSize t) 0x0A
  let k := k.setCurPos t 0
  let k := k.setPrevSize t (k.term.curSize t)
  let k := k.setCurSize t 0
  let k := (k.setWriteX t 0).setWriteY t 0
  k.setWaitForNl t false

/-- The cursor is past the last position a program wrote to. -/
def pastWrite (k : Kernel) (t : Term) : Prop :=
  k.screen.screenY t > k.term.writeY t ∨
    (k.screen.screenY t = k.term.writeY t ∧ k.screen.screenX t > k.term.writeX t)

instance (k : Kernel) (t : Term) : Decidable (pastWrite k t) := by
  unfold pastWrite; infer_instance

/-- The backspace branch of `term_putc`. -/
def termBackspace (L : Layout) (k : Kernel) : Kernel :=
  let t := k.page.currentTerminal
  let atEnd := k.term.curPos t ≥ k.term.curSize t - 1
  let bsChar : Byte := if atEnd then 0 else 0x20
  let k := if atEnd then k.setCurSize t (k.term.curSize t - 1) else k
  if k.term.curPos t > 0 then
    let k := if pastWrite k t then moveLeft (putcKb L bsChar (moveLeft k)) else k
    let k := k.setCurPos t (k.term.curPos t - 1)
    k.setLine t (k.term.curPos t) bsChar
  else
    let k := k.setLine t (k.term.curPos t) bsChar
    if pastWrite k t then moveLeft (putc L bsChar k) else k

/-- `buffer[i] = buffer[i-1]` for `i` from `cur_size` down to `cur_pos + 1`. -/
def shiftLine (t : Term) (k : Kernel) : Kernel :=
  let size := k.term.curSize t
  forLoop (size - k.term.curPos t).toNat (fun j k =>
    let i : Int := size - j
    k.setLine t i (k.line t (i - 1))) k

/-- The branch of `term_putc` for an ordinary character with room in the buffer. -/
def termInsert (L : Layout) (c : Byte) (k : Kernel) : Kernel :=
  let t := k.page.currentTerminal
  let k := if k.term.curPos t < k.term.curSize t then shiftLine t (scootText L k) else k
  let k := putcKb L c k
  let k := k.setLine t (k.term.curPos t) c
  let k := k.setCurPos t (k.term.curPos t + 1)
  k.setCurSize t (k.term.curSize t + 1)

/-- `term_putc(c)`. -/
def termPutc (L : Layout) (c : Byte) (k : Kernel) : Kernel :=
  let t := k.page.currentTerminal
  if c = 0x0A ∨ c = 0x0D then termEnter k
  else if c = 0x08 then termBackspace L k
  else if k.term.curPos t < bufSize - 1 ∧ k.term.curSize t < bufSize - 1 then termInsert L c k
  else k

/-- `term_clear()`. -/
def termClear (L : Layout) (k : Kernel) : Kernel := setPos 0 0 (clear L k)

/-- `term_move_left()`. -/
def termMoveLeft (k : Kernel) : Kernel :=
  let t := k.page.currentTerminal
  if k.term.curPos t > 0 ∧ pastWrite k t then
    let k := moveLeft k
    k.setCurPos t (k.term.curPos t - 1)
  else k

/-- `term_move_right()`. -/
def termMoveRight (k : Kernel) : Kernel :=
  let t := k.page.currentTerminal
  if k.term.curPos t < k.term.curSize t then
    let k := moveRight k
    k.setCurPos t (k.term.curPos t + 1)
  else k

/-! ## History -/

/-- The copying loop of `save_hist`, on what is left of the command. -/
def saveHistCopy (row : Int) : List Byte → Nat → (Int → Byte) → (Int → Byte)
  | [], _, h => h
  | c :: cs, i, h =>
      if c ≠ 0x0A ∧ c ≠ 0 then saveHistCopy row cs (i + 1) (Function.update h (row + i) c) else h

/-- `save_hist(buf)`: only every other row is used. -/
def saveHist (cmd : List Byte) (k : Kernel) : Kernel :=
  let t := k.page.currentTerminal
  let bottom := (k.term.histBottomIndeces t + 1) % histSize
  let row := (histSize * (t : Nat) + bottom) * bufSize
  let cleared : Int → Byte :=
    forLoop bufSize (fun i h => Function.update h (row + i) 0) k.term.history
  let bottom := (bottom + 1) % histSize
  { k with term := { k.term with
      history := saveHistCopy row cmd 0 cleared
      histBottomIndeces := Function.update k.term.histBottomIndeces t bottom
      histIndeces := Function.update k.term.histIndeces t bottom } }

/-- `hist_indeces[t]--`, wrapping below zero. -/
def histUp (t : Term) (k : Kernel) : Kernel :=
  let k := k.setHistIndex t (k.term.histIndeces t - 1)
  if k.term.histIndeces t < 0 then k.setHistIndex t (histSize - 1) else k

/-- `hist_indeces[t]++`, modulo `HIST_SIZE`. -/
def histDown (t : Term) (k : Kernel) : Kernel :=
  k.setHistIndex t ((k.term.histIndeces t + 1) % histSize)

/-- Skip empty rows, at most `fuel` of them. -/
def histSkip (move : Term → Kernel → Kernel) (t : Term) : Nat → Kernel → Kernel
  | 0, k => k
  | fuel + 1, k =>
      if k.hist t (k.term.histIndeces t) 0 = 0 then histSkip move t fuel (move t k) else k

/--
`putc('\0')` while `i` is within the width cleared or the row goes on. The array
of rows is the bound on how far a row can go on.
-/
def histErase (L : Layout) (t : Term) : Nat → Nat → Kernel → Kernel
  | 0, _, k => k
  | fuel + 1, i, k =>
      if (i : Int) < numCols - startPos - 1 ∨ k.hist t (k.term.histIndeces t) i ≠ 0 then
        histErase L t fuel (i + 1) (putc L 0 k)
      else k

/-- The loop that copies the row into the line buffer and onto the screen. -/
def histCopy (L : Layout) (t : Term) : Nat → Nat → Kernel → Kernel
  | 0, _, k => k
  | fuel + 1, i, k =>
      if k.hist t (k.term.histIndeces t) i ≠ 0 then
        let k := k.setLine t i (k.hist t (k.term.histIndeces t) i)
        let k := putc L (k.line t i) k
        let k := k.setCurPos t (k.term.curPos t + 1)
        histCopy L t fuel (i + 1) (k.setCurSize t (k.term.curSize t + 1))
      else k

/-- Bytes in the whole history array. -/
def histBytes : Nat := 3 * histSize * bufSize

/-- What `up_hist` and `down_hist` share once a row is chosen; `reset` clears the counters. -/
def histRecall (L : Layout) (t : Term) (reset : Bool) (k : Kernel) : Kernel :=
  let k := setPos (k.term.writeX t) (k.term.writeY t) k
  let k := if reset then (k.setCurPos t 0).setCurSize t 0 else k
  let k := histErase L t histBytes 0 k
  let k := setPos (k.term.writeX t) (k.term.writeY t) k
  histCopy L t histBytes 0 k

/-- Move to a row, skip the empty ones, and recall it if there is one. -/
def histStep (L : Layout) (move : Term → Kernel → Kernel) (reset : Bool) (k : Kernel) : Kernel :=
  let t := k.page.currentTerminal
  let k := move t k
  let k := histSkip move t histSize k
  if k.hist t (k.term.histIndeces t) 0 = 0 then k else histRecall L t reset k

/-- `up_hist()`. -/
def upHist (L : Layout) (k : Kernel) : Kernel := histStep L histUp true k

/-- `down_hist()`, which does not clear `cur_pos` and `cur_size`. -/
def downHist (L : Layout) (k : Kernel) : Kernel := histStep L histDown false k

/-! ## Output -/

/-- The last act of `term_write`: remember where output ended. -/
def saveWritePos (k : Kernel) : Kernel :=
  let a := k.task.currentActiveProcess
  (k.setWriteX a (k.screen.screenX a)).setWriteY a (k.screen.screenY a)

/-- `term_write(f, buf, cnt)`. -/
def termWrite (L : Layout) (buf : List Byte) (k : Kernel) : Kernel :=
  saveWritePos (buf.foldl (fun k c => mtPutc L c k) k)

/-! ## The keyboard -/

/-- `scan2ASCII`. -/
def scan2Ascii : List Nat :=
  [0x00, 0x00, 0x31, 0x32, 0x33, 0x34, 0x35, 0x36, 0x37, 0x38, 0x39, 0x30,
   0x2D, 0x3D, 0x08, 0x09, 0x71, 0x77, 0x65, 0x72, 0x74, 0x79, 0x75, 0x69,
   0x6F, 0x70, 0x5B, 0x5D, 0x0A, 0xFF, 0x61, 0x73, 0x64, 0x66, 0x67, 0x68,
   0x6A, 0x6B, 0x6C, 0x3B, 0x27, 0x60, 0xFF, 0x5C, 0x7A, 0x78, 0x63, 0x76,
   0x62, 0x6E, 0x6D, 0x2C, 0x2E, 0x2F, 0xFF, 0x2A, 0xFF, 0x20, 0xFF]

/-- `shift2ASCII`. -/
def shift2Ascii : List Nat :=
  [0x00, 0x00, 0x21, 0x40, 0x23, 0x24, 0x25, 0x5E, 0x26, 0x2A, 0x28, 0x29,
   0x5F, 0x2B, 0x08, 0x09, 0x71, 0x77, 0x65, 0x72, 0x74, 0x79, 0x75, 0x69,
   0x6F, 0x70, 0x7B, 0x7D, 0x0A, 0xFF, 0x61, 0x73, 0x64, 0x66, 0x67, 0x68,
   0x6A, 0x6B, 0x6C, 0x3A, 0x22, 0x7E, 0xFF, 0x7C, 0x7A, 0x78, 0x63, 0x76,
   0x62, 0x6E, 0x6D, 0x3C, 0x3E, 0x3F, 0xFF, 0x2A, 0xFF, 0x20, 0xFF]

/-- `notPrintableArray`; the array's unset elements are zero. -/
def notPrintableArray : List Nat :=
  [0x0F, 0x37, 0x3E, 0x3F, 0x40, 0x41, 0x42, 0x43, 0x44, 0x46, 0x47, 0x49,
   0x4A, 0x4E, 0x4F, 0x52, 0x51, 0x71, 0x52, 0x53, 0x57, 0x58, 0x00]

/-- What a printable scancode does with Alt and the function keys out of the way. -/
def keyChar (L : Layout) (inp : Nat) (k : Kernel) : Kernel :=
  let t := k.page.currentTerminal
  let plain := scan2Ascii.getD inp 0
  let isALetter := 96 < plain ∧ plain < 123
  let shift := k.keys.shiftRFlag t || k.keys.shiftLFlag t
  if plain = 0x6C ∧ k.keys.ctrlFlag t then termInit (termClear L k)
  else if isALetter ∧ (shift ^^ k.keys.capsLockFlag) then
    termPutc L (BitVec.ofNat 8 (plain - 32)) k
  else if shift then termPutc L (BitVec.ofNat 8 (shift2Ascii.getD inp 0)) k
  else termPutc L (BitVec.ofNat 8 plain) k

/-- `switch_video(u); term_switch()`. -/
def switchTo (L : Layout) (u : Term) (k : Kernel) : Kernel := termSwitch (switchVideo L u k)

/-- Set one of the per-terminal modifier flags of the foreground terminal. -/
def setFlag (flags : Term → Bool) (k : Kernel) (b : Bool) : Term → Bool :=
  Function.update flags k.page.currentTerminal b

/-- `key_handler()` on the scancode read from the keyboard port. -/
def keyHandler (L : Layout) (inp : Byte) (k : Kernel) : Kernel :=
  let c := inp.toNat
  if c ∈ notPrintableArray then k
  else if c = 0x50 then downHist L k
  else if c = 0x48 then upHist L k
  else if c = 0x4B then termMoveLeft k
  else if c = 0x4D then termMoveRight k
  else if c = 0x38 then { k with keys := { k.keys with altFlag := true } }
  else if c = 0x1D then
    { k with keys := { k.keys with ctrlFlag := setFlag k.keys.ctrlFlag k true } }
  else if c = 0x2A then
    { k with keys := { k.keys with shiftLFlag := setFlag k.keys.shiftLFlag k true } }
  else if c = 0x36 then
    { k with keys := { k.keys with shiftRFlag := setFlag k.keys.shiftRFlag k true } }
  else if c = 0x3A then { k with keys := { k.keys with capsLockFlag := !k.keys.capsLockFlag } }
  else if c = 0x9D then
    { k with keys := { k.keys with ctrlFlag := setFlag k.keys.ctrlFlag k false } }
  else if c = 0xAA then
    { k with keys := { k.keys with shiftLFlag := setFlag k.keys.shiftLFlag k false } }
  else if c = 0xB6 then
    { k with keys := { k.keys with shiftRFlag := setFlag k.keys.shiftRFlag k false } }
  else if c = 0xB8 then { k with keys := { k.keys with altFlag := false } }
  -- `isPrintable`: the signed scancode lies strictly between 1 and 123
  else if 1 < c ∧ c < 123 then
    if c = 0x3B ∧ k.keys.altFlag then switchTo L 0 k
    else if c = 0x3C ∧ k.keys.altFlag then switchTo L 1 k
    else if c = 0x3D ∧ k.keys.altFlag then switchTo L 2 k
    else keyChar L c k
  else k

/-! ## `term_read`, taken apart

A reader is at one of three points: spinning on `wait_for_nl`, or in the copying
loop about to load `buffer[current_terminal][i]`, or between that load and the
store that clears the byte. `buf` is the caller's buffer. -/

/-- Where a call of `term_read` with `numbytes = n` stands. -/
inductive Reader where
  | spinning (n : Int) (buf : Mem)
  | loading (n : Int) (i : Nat) (buf : Mem)
  | clearing (n : Int) (i : Nat) (buf : Mem)
  | returned (i : Nat) (buf : Mem)

/-- The start of `term_read(f, buf, numbytes)`: `t` is its `this_read_terminal`. -/
def termReadCall (t : Term) (n : Int) (buf : Mem) (k : Kernel) : Reader × Kernel :=
  (.spinning n buf, k.setWaitForNl t true)

/-- One step of a reader: the line is taken from the *foreground* terminal. -/
def termReadStep (L : Layout) (t : Term) (r : Reader) (k : Kernel) : Reader × Kernel :=
  match r with
  | .spinning n buf =>
      if k.term.waitForNl t then (.spinning n buf, k)
      else (.loading n 0 buf, putc L 0x0A (setX startPos k))
  | .loading n i buf =>
      if (i : Int) < n then (.clearing n i (store buf i (k.line k.page.currentTerminal i)), k)
      else (.returned i buf, k)
  | .clearing n i buf =>
      let k := k.setLine k.page.currentTerminal i 0
      if buf i = 0x0A ∨ buf i = 0 then
        (.returned (i + 1) (store (store buf i 0x0A) (i + 1) 0), k)
      else (.loading n (i + 1) buf, k)
  | .returned i buf => (.returned i buf, k)

end Zbiggie
