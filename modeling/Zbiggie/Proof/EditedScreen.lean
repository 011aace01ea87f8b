import Zbiggie.Proof.Background
import Zbiggie.Proof.LineEditor
import Zbiggie.Proof.ScreenCells

/-!
# The line on the screen

What is typed is kept twice, in the line buffer and on the screen, and each keeps it by
its own code. `OnScreen` is what the screen is to show: the line from where output ended,
and the cursor as far into it as the position says.

The reference is a `Strip`, a line and the cell it starts in. The machine follows it
(`Showing`) as long as each key is `Ok` for it, and each key that is not takes the screen
away from the line: a character typed before the end of a line that goes on in another
row loses the first character of that row, unless the row above happens to end in the
same one; it loses the last character of a line that fills the screen; and there the
cursor cannot be moved behind the line.
-/

namespace Zbiggie.Proof

open Zbiggie Machine

/-! ## The reference -/

/-- A line, and the cell it starts in. -/
structure Strip where
  base : Int
  line : Line

namespace Strip

/-- The cell behind the line. -/
def stop (s : Strip) : Int := s.base + s.line.text.length

/-- Where the line goes on in another row behind the cursor, it does so with the same character. -/
def Seamless (s : Strip) : Prop :=
  ∀ i, i < s.line.text.length → s.line.cursor < i → (s.base + i) % 80 = 0 →
    s.line.text.getD i 0 = s.line.text.getD (i - 1) 0

instance instDecidableSeamless (s : Strip) : Decidable s.Seamless :=
  inferInstanceAs (Decidable (∀ i, i < s.line.text.length → s.line.cursor < i →
    (s.base + i) % 80 = 0 → s.line.text.getD i 0 = s.line.text.getD (i - 1) 0))

/-- A key the screen keeps up with. -/
def Ok (s : Strip) : Edit → Prop
  | .char _ => s.line.cursor < s.line.text.length → s.line.text.length < 127 →
      s.stop < 2000 ∧ s.Seamless
  | .left => True
  | .right => s.line.cursor < s.line.text.length → s.base + s.line.cursor < 1999

instance instDecidableOk (s : Strip) (e : Edit) : Decidable (s.Ok e) :=
  match e with
  | .char _ => inferInstanceAs (Decidable (s.line.cursor < s.line.text.length →
      s.line.text.length < 127 → s.stop < 2000 ∧ s.Seamless))
  | .left => inferInstanceAs (Decidable True)
  | .right => inferInstanceAs (Decidable (s.line.cursor < s.line.text.length →
      s.base + s.line.cursor < 1999))

/-- What a key makes of it. A character in the last cell takes it up by a row. -/
def step (s : Strip) : Edit → Strip
  | .char c => ⟨if s.line.text.length < 127 ∧ s.base + s.line.cursor = 1999 then s.base - 80
      else s.base, s.line.insert c⟩
  | .left => ⟨s.base, s.line.left⟩
  | .right => ⟨s.base, s.line.right⟩

/-- Keys the screen keeps up with, one after the other. -/
def Steady : Strip → List Edit → Prop
  | _, [] => True
  | s, e :: es => s.Ok e ∧ (s.step e).Steady es

instance instDecidableSteady : ∀ (s : Strip) (es : List Edit), Decidable (s.Steady es)
  | _, [] => inferInstanceAs (Decidable True)
  | s, e :: es =>
      have := instDecidableSteady (s.step e) es
      inferInstanceAs (Decidable (s.Ok e ∧ (s.step e).Steady es))

end Strip

/-- A printable character, or an arrow. -/
def Edit.Printable : Edit → Prop
  | .char c => 0x20 ≤ c.toNat ∧ c.toNat < 0x7F
  | .left => True
  | .right => True

/-- A printable character is no line break, no Backspace and no NUL. -/
theorem printable_ne {c : Byte} (h : (Edit.char c).Printable) {n : Nat} (hn : n < 0x20) :
    c ≠ BitVec.ofNat 8 n := by
  rintro rfl
  have h20 : 0x20 ≤ n % 2 ^ 8 := by
    rw [← BitVec.toNat_ofNat]
    exact h.1
  omega

theorem Edit.Printable.plain {e : Edit} (h : e.Printable) : e.Plain := by
  cases e with
  | char c => exact ⟨printable_ne h (n := 0x0A) (by decide), printable_ne h (n := 0x0D) (by decide),
      printable_ne h (n := 0x08) (by decide)⟩
  | left => trivial
  | right => trivial

/-! ## The machine -/

/-- The cell output ended in. -/
def writeCell (k : Kernel) (t : Term) : Int := numCols * k.term.writeY t + k.term.writeX t

/-- **The screen shows the line being edited**, from where output ended, and its cursor. -/
structure OnScreen (k : Kernel) (t : Term) : Prop where
  cursor : cursorCell k t = writeCell k t + k.term.curPos t
  fits : writeCell k t + k.term.curSize t ≤ 2000
  cells : ∀ i : Nat, (i : Int) < k.term.curSize t → cell k (writeCell k t + i) = k.line t i

/-- The screen shows the line after each of a sequence of keys. -/
def ShownAlong (L : Layout) (k : Kernel) (t : Term) (es : List Edit) : Prop :=
  ∀ pre, pre <+: es → OnScreen (pre.foldl (termEdit L) k) t

/-- The machine follows a strip. -/
structure Showing (L : Layout) (k : Kernel) (t : Term) (s : Strip) : Prop where
  mapped : Mapped L k videoMem offsetVideo
  shown : k.page.currentTerminal = t
  inside : CursorIn k t
  column : 0 ≤ k.term.writeX t ∧ k.term.writeX t < 80
  start : writeCell k t = s.base
  start0 : 0 ≤ s.base
  edits : Edits k t s.line
  plain : (0 : Byte) ∉ s.line.text
  cursor : cursorCell k t = s.base + s.line.cursor
  fits : s.stop ≤ 2000
  cells : ∀ i, i < s.line.text.length → cell k (s.base + i) = s.line.text.getD i 0

section Steps

variable {L : Layout} {k : Kernel} {t : Term} {s : Strip}

theorem Showing.onScreen (h : Showing L k t s) : OnScreen k t := by
  refine ⟨?_, ?_, ?_⟩
  · rw [h.cursor, h.start, h.edits.pos]
  · rw [h.start, h.edits.size]
    exact h.fits
  · intro i hi
    rw [h.edits.size] at hi
    rw [h.start, h.cells i (by omega), h.edits.bytes i (by omega)]

/-- The same text, and the cursor in another place. -/
theorem Showing.moved (h : Showing L k t s) {k' : Kernel} {z : Line} (hpage : k'.page = k.page)
    (hram : k'.ram = k.ram) (hx : k'.term.writeX = k.term.writeX)
    (hy : k'.term.writeY = k.term.writeY) (hin : CursorIn k' t) (hedits : Edits k' t z)
    (htext : z.text = s.line.text) (hcursor : cursorCell k' t = s.base + z.cursor) :
    Showing L k' t ⟨s.base, z⟩ where
  mapped := h.mapped.of_page hpage
  shown := (congrArg Paging.currentTerminal hpage).trans h.shown
  inside := hin
  column := by rw [hx]; exact h.column
  start := by unfold writeCell; rw [hx, hy]; exact h.start
  start0 := h.start0
  edits := hedits
  plain := by rw [htext]; exact h.plain
  cursor := hcursor
  fits := by unfold Strip.stop; rw [htext]; exact h.fits
  cells := fun i hi => by
    rw [htext] at hi ⊢
    unfold cell
    rw [hram]
    exact h.cells i hi

/-- **Left.** The guard on the screen agrees with the position. -/
theorem showing_left (h : Showing L k t s) : Showing L (termMoveLeft k) t (s.step .left) := by
  have hpos := h.edits.pos
  unfold Strip.step
  by_cases hz : s.line.cursor = 0
  · have hstay : termMoveLeft k = k := by
      unfold termMoveLeft
      dsimp only
      rw [h.shown, hpos, if_neg (by omega)]
    rw [hstay, Zipper.left_start hz]
    exact h
  · have hcell := h.cursor
    have hstart := h.start
    obtain ⟨h1, h2, h3, h4⟩ := h.inside
    obtain ⟨hw0, hw1⟩ := h.column
    -- behind the start of the line, the cursor is behind where output ended
    have hpast : pastWrite k t := by
      simp only [cursorCell, writeCell, numCols] at hcell hstart
      unfold pastWrite
      omega
    obtain ⟨hin, hback, hram, hterm⟩ := moveLeft_cursor h.shown h.inside (by
      have := h.start0
      omega)
    have hedits := edits_left h.edits h.shown
    rw [h.shown, decide_eq_true hpast] at hedits
    have hmove : termMoveLeft k = (moveLeft k).setCurPos t ((moveLeft k).term.curPos t - 1) := by
      unfold termMoveLeft
      dsimp only
      rw [h.shown, if_pos ⟨by omega, hpast⟩]
    rw [hmove] at hedits ⊢
    refine h.moved (Shows.moveLeft h.shown).page hram ?_ ?_ ⟨hin.x0, hin.x1, hin.y0, hin.y1⟩ hedits
      s.line.left_text ?_
    · rw [← hterm]
      rfl
    · rw [← hterm]
      rfl
    · rw [Zipper.left_cursor]
      refine hback.trans ?_
      omega

/-- What `term_move_right` does before the end of the line. -/
theorem termMoveRight_move (h : Showing L k t s) (hlt : s.line.cursor < s.line.text.length) :
    termMoveRight k = (moveRight k).setCurPos t ((moveRight k).term.curPos t + 1) := by
  have hpos := h.edits.pos
  have hsize := h.edits.size
  unfold termMoveRight
  dsimp only
  rw [h.shown, if_pos (by omega)]

/-- **Right**, short of the last cell. -/
theorem showing_right (h : Showing L k t s) (hok : s.Ok .right) :
    Showing L (termMoveRight k) t (s.step .right) := by
  have hpos := h.edits.pos
  have hsize := h.edits.size
  unfold Strip.step
  by_cases hlt : s.line.cursor < s.line.text.length
  · have hroom : s.base + s.line.cursor < 1999 := hok hlt
    obtain ⟨hin, hon, hram, hterm⟩ := moveRight_cursor h.shown h.inside
    have hedits := edits_right h.edits h.shown
    have hcursor : s.line.right.cursor = s.line.cursor + 1 := by
      rw [Zipper.right_cursor]
      exact Nat.min_eq_left hlt
    rw [termMoveRight_move h hlt] at hedits ⊢
    refine h.moved (Shows.moveRight h.shown).page hram ?_ ?_ ⟨hin.x0, hin.x1, hin.y0, hin.y1⟩ hedits
      s.line.right_text ?_
    · rw [← hterm]
      rfl
    · rw [← hterm]
      rfl
    · rw [hcursor]
      refine hon.trans ?_
      rw [h.cursor, if_pos hroom]
      omega
  · have hstay : termMoveRight k = k := by
      unfold termMoveRight
      dsimp only
      rw [h.shown, hpos, hsize, if_neg (by omega)]
    rw [hstay, Zipper.right_end (by omega)]
    exact h

/-- In the last cell the cursor stays where it is, and the position does not. -/
theorem right_ok_of_onScreen (h : Showing L k t s) (hon : OnScreen (termMoveRight k) t) :
    s.Ok .right := by
  intro hlt
  obtain ⟨-, hcell, -, hterm⟩ := moveRight_cursor h.shown h.inside
  have hcursor := hon.cursor
  rw [termMoveRight_move h hlt] at hcursor
  have hwrite : writeCell ((moveRight k).setCurPos t ((moveRight k).term.curPos t + 1)) t
      = writeCell k t := by
    unfold writeCell
    simp [hterm]
  have hposition : ((moveRight k).setCurPos t ((moveRight k).term.curPos t + 1)).term.curPos t
      = k.term.curPos t + 1 := by
    simp [hterm]
  have hscreen : cursorCell ((moveRight k).setCurPos t ((moveRight k).term.curPos t + 1)) t
      = cursorCell (moveRight k) t := rfl
  rw [hwrite, hposition, hscreen, hcell, h.start, h.edits.pos, h.cursor] at hcursor
  by_contra hlast
  rw [if_neg hlast] at hcursor
  omega

/-! Typing. -/

/-- Room for a character, on the screen and in the line. -/
def roomFor (L : Layout) (t : Term) (k : Kernel) : Kernel :=
  if k.term.curPos t < k.term.curSize t then shiftLine t (scootText L k) else k

theorem roomFor_only (L : Layout) (t : Term) (k : Kernel) :
    ∃ m b, roomFor L t k = { withRam k m with term := { k.term with buffer := b } } := by
  unfold roomFor
  split
  · obtain ⟨m, hm⟩ := scootText_only L k
    obtain ⟨b, hb⟩ := shiftLine_only t (scootText L k)
    rw [hm] at hb ⊢
    exact ⟨m, b, hb⟩
  · exact ⟨k.ram, k.term.buffer, rfl⟩

theorem termInsert_roomFor (hcur : k.page.currentTerminal = t) (c : Byte) :
    ∃ i p n, termInsert L c k
      = (((putcKb L c (roomFor L t k)).setLine t i c).setCurPos t p).setCurSize t n := by
  subst hcur
  exact ⟨_, _, _, rfl⟩

/-- The cursor and the page are where they were. -/
theorem roomFor_kept (h : Showing L k t s) :
    Mapped L (roomFor L t k) videoMem offsetVideo ∧ (roomFor L t k).page.currentTerminal = t ∧
      CursorIn (roomFor L t k) t ∧ cursorCell (roomFor L t k) t = cursorCell k t ∧
      (roomFor L t k).term.writeX = k.term.writeX ∧
      (roomFor L t k).term.writeY = k.term.writeY := by
  obtain ⟨m, b, hroom⟩ := roomFor_only L t k
  obtain ⟨h1, h2, h3, h4⟩ := h.inside
  rw [hroom]
  exact ⟨h.mapped.of_page rfl, h.shown, ⟨h1, h2, h3, h4⟩, rfl, rfl, rfl⟩

/-- **A character short of the last cell**, on the screen. -/
theorem termInsert_inside (h : Showing L k t s) {c : Byte} (hc : (Edit.char c).Plain)
    (hlt : cursorCell k t < 1999) :
    CursorIn (termInsert L c k) t ∧ cursorCell (termInsert L c k) t = cursorCell k t + 1 ∧
      (termInsert L c k).term.writeX = k.term.writeX ∧
      (termInsert L c k).term.writeY = k.term.writeY ∧
      ∀ i, 0 ≤ i → cell (termInsert L c k) i
        = if i = cursorCell k t then c else cell (roomFor L t k) i := by
  obtain ⟨hmap, hcur, hin, hcell, hx, hy⟩ := roomFor_kept h
  obtain ⟨i, p, n, hins⟩ := termInsert_roomFor (L := L) h.shown c
  obtain ⟨h1, h2, h3, h4⟩ := putcKb_inside hmap hcur hin (not_or.mpr ⟨hc.1, hc.2.1⟩) hc.2.2
    (hcell.trans_lt hlt)
  rw [hcell] at h2 h4
  rw [hins]
  refine ⟨⟨h1.x0, h1.x1, h1.y0, h1.y1⟩, h2, ?_, ?_, h4⟩
  · rw [← hx, ← h3]
    rfl
  · rw [← hy, ← h3]
    rfl

/-- **A character in the last cell**, on the screen. -/
theorem termInsert_corner (h : Showing L k t s) {c : Byte} (hc : (Edit.char c).Plain)
    (heq : cursorCell k t = 1999) :
    CursorIn (termInsert L c k) t ∧ cursorCell (termInsert L c k) t = 1920 ∧
      (termInsert L c k).term.writeX = k.term.writeX ∧
      (termInsert L c k).term.writeY t = k.term.writeY t - 1 ∧
      ∀ i, 0 ≤ i → i < 2000 → cell (termInsert L c k) i =
        if i < 1920 then (if i + 80 = 1999 then c else cell (roomFor L t k) (i + 80)) else 0 := by
  obtain ⟨hmap, hcur, hin, hcell, hx, hy⟩ := roomFor_kept h
  obtain ⟨i, p, n, hins⟩ := termInsert_roomFor (L := L) h.shown c
  obtain ⟨h1, h2, h3, h4⟩ := putcKb_corner hmap hcur hin (not_or.mpr ⟨hc.1, hc.2.1⟩) hc.2.2
    (hcell.trans heq)
  have hup : (putcKb L c (roomFor L t k)).term.writeY t = k.term.writeY t - 1 := by
    rw [h3, ← hy]
    exact Function.update_self ..
  rw [hins]
  refine ⟨⟨h1.x0, h1.x1, h1.y0, h1.y1⟩, h2, ?_, hup, h4⟩
  show (putcKb L c (roomFor L t k)).term.writeX = _
  rw [h3, ← hx]

/-- With the cursor at the end there is no room to be made. -/
theorem roomFor_end (h : Showing L k t s) (hend : s.line.text.length ≤ s.line.cursor) :
    roomFor L t k = k := by
  unfold roomFor
  rw [h.edits.pos, h.edits.size, if_neg (by omega)]

/-- Short of it, the cells are those `scoot_text` leaves. -/
theorem roomFor_cell (h : Showing L k t s) (hlt : s.line.cursor < s.line.text.length) {i : Int}
    (hi0 : 0 ≤ i) (hi : i < 2000) :
    cell (roomFor L t k) i =
      if i ≤ s.base + s.line.cursor then cell k i
      else if i < 80 * (k.screen.screenY t + 1) then cell k (i - 1)
      else cell k (scootSource i) := by
  obtain ⟨b, hb⟩ := shiftLine_only t (scootText L k)
  have hcell := scootText_cell (L := L) h.mapped h.shown h.inside hi0 hi
  have hroom : cell (roomFor L t k) i = cell (scootText L k) i := by
    unfold roomFor
    rw [h.edits.pos, h.edits.size, if_pos (by omega), hb]
    rfl
  rw [hroom, hcell, h.cursor]

/-- What lies before the cursor stays. -/
theorem roomFor_before (h : Showing L k t s) {i : Nat} (hi : i < s.line.cursor) :
    cell (roomFor L t k) (s.base + i) = s.line.text.getD i 0 := by
  have hle := s.line.cursor_le
  have h0 := h.start0
  have hfits := h.fits
  unfold Strip.stop at hfits
  by_cases hlt : s.line.cursor < s.line.text.length
  · rw [roomFor_cell h hlt (by omega) (by omega), if_pos (by omega), h.cells i (by omega)]
  · rw [roomFor_end h (by omega), h.cells i (by omega)]

/-- **What lies behind it moves on by one**, where the line is seamless. -/
theorem roomFor_behind (h : Showing L k t s) (hstop : s.stop < 2000) (hseam : s.Seamless) {i : Nat}
    (hci : s.line.cursor ≤ i) (hi : i < s.line.text.length) :
    cell (roomFor L t k) (s.base + i + 1) = s.line.text.getD i 0 := by
  have h0 := h.start0
  have hcursor := h.cursor
  simp only [cursorCell, numCols] at hcursor
  obtain ⟨hx0, hx1, hy0, hy1⟩ := h.inside
  unfold Strip.stop at hstop
  rw [roomFor_cell h (by omega) (by omega) (by omega), if_neg (by omega)]
  by_cases hrow : s.base + i + 1 < 80 * (k.screen.screenY t + 1)
  · rw [if_pos hrow, Int.add_sub_cancel, h.cells i hi]
  · rw [if_neg hrow]
    unfold scootSource
    by_cases hseg : (s.base + i + 1) % 80 = 1
    · -- the second column: the cell two before, which holds the same character
      have hsame := hseam i hi (by omega) (by omega)
      rw [if_pos hseg, hsame, ← h.cells (i - 1) (by omega)]
      congr 1
      omega
    · rw [if_neg hseg, Int.add_sub_cancel, h.cells i hi]

/-- The counters after a character that was taken, and the line. -/
theorem termPutc_taken (h : Showing L k t s) {c : Byte} (hc : (Edit.char c).Plain)
    (hroom : s.line.text.length < 127) : termPutc L c k = termInsert L c k := by
  have hle := s.line.cursor_le
  have hsize : (bufSize : Int) - 1 = 127 := rfl
  rw [termPutc_plain hc, h.shown, h.edits.pos, h.edits.size, hsize, if_pos (by omega)]

theorem printable_not_mem (h : Showing L k t s) {c : Byte} (hc : (Edit.char c).Printable) :
    (0 : Byte) ∉ (s.line.insert c).text := by
  intro hmem
  rcases Zipper.mem_insert hmem with heq | hold
  · exact printable_ne hc (n := 0) (by decide) heq.symm
  · exact h.plain hold

/-- What a character that is taken leaves alone. -/
theorem termInsert_page (h : Showing L k t s) (c : Byte) : (termInsert L c k).page = k.page :=
  (termInsert_spec (L := L) c k h.shown).page

/-- **In the last cell**, with the cursor at the end: everything goes up. -/
theorem showing_corner (h : Showing L k t s) {c : Byte} (hc : (Edit.char c).Printable)
    (hroom : s.line.text.length < 127) (hend : s.line.text.length ≤ s.line.cursor)
    (hlast : s.base + s.line.cursor = 1999) :
    Showing L (termInsert L c k) t ⟨s.base - 80, s.line.insert c⟩ := by
  have hle := s.line.cursor_le
  have hpage := termInsert_page h c
  have hedits := edits_insert (L := L) h.edits h.shown hc.plain
  rw [termPutc_taken h hc.plain hroom] at hedits
  obtain ⟨h1, h2, h3, h4, h5⟩ := termInsert_corner h hc.plain (h.cursor.trans hlast)
  rw [roomFor_end h hend] at h5
  refine ⟨h.mapped.of_page hpage, (congrArg Paging.currentTerminal hpage).trans h.shown, h1,
    by rw [h3]; exact h.column, ?_, by dsimp only; omega, hedits, printable_not_mem h hc, ?_, ?_,
    ?_⟩
  -- the screen and the place where output ended go up together
  · have hstart := h.start
    simp only [writeCell, numCols] at hstart ⊢
    rw [h3, h4]
    omega
  · dsimp only
    rw [h2, Zipper.insert_cursor hroom]
    omega
  · unfold Strip.stop
    dsimp only
    rw [Zipper.insert_length hroom]
    omega
  · intro i hi
    dsimp only at hi ⊢
    rw [Zipper.insert_length hroom] at hi
    rw [h5 _ (by omega) (by omega), if_pos (by omega), Zipper.insert_getD hroom]
    by_cases hin : i < s.line.cursor
    · rw [if_neg (by omega), if_pos hin, ← h.cells i (by omega)]
      congr 1
      omega
    · rw [if_pos (by omega), if_neg hin, if_pos (by omega)]

/-- **Anywhere else**: what is behind the cursor has moved on, and the character is in its place. -/
theorem showing_inside (h : Showing L k t s) {c : Byte} (hc : (Edit.char c).Printable)
    (hroom : s.line.text.length < 127) (hlast : s.base + s.line.cursor < 1999)
    (hok : s.Ok (.char c)) : Showing L (termInsert L c k) t ⟨s.base, s.line.insert c⟩ := by
  have hle := s.line.cursor_le
  have h0 := h.start0
  have hpage := termInsert_page h c
  have hedits := edits_insert (L := L) h.edits h.shown hc.plain
  rw [termPutc_taken h hc.plain hroom] at hedits
  obtain ⟨h1, h2, h3, h4, h5⟩ := termInsert_inside h hc.plain (h.cursor.trans_lt hlast)
  rw [h.cursor] at h2 h5
  -- with text behind the cursor there has to be a cell for its last character
  have hstop : s.base + s.line.text.length < 2000 := by
    by_cases hin : s.line.cursor < s.line.text.length
    · exact (hok hin hroom).1
    · omega
  refine ⟨h.mapped.of_page hpage, (congrArg Paging.currentTerminal hpage).trans h.shown, h1,
    by rw [h3]; exact h.column, ?_, h0, hedits, printable_not_mem h hc, ?_, ?_, ?_⟩
  · unfold writeCell
    rw [h3, h4]
    exact h.start
  · dsimp only
    rw [h2, Zipper.insert_cursor hroom]
    omega
  · unfold Strip.stop
    dsimp only
    rw [Zipper.insert_length hroom]
    omega
  · intro i hi
    dsimp only at hi ⊢
    rw [Zipper.insert_length hroom] at hi
    rw [h5 _ (by omega), Zipper.insert_getD hroom]
    -- before the cursor nothing moved; behind it everything did
    rcases Nat.lt_trichotomy i s.line.cursor with hbefore | hat | hbehind
    · rw [if_neg (by omega), if_pos hbefore, roomFor_before h hbefore]
    · rw [if_pos (by omega), if_neg (by omega), if_pos hat]
    · have hin : s.line.cursor < s.line.text.length := by omega
      rw [if_neg (by omega), if_neg (by omega), if_neg (by omega),
        ← roomFor_behind h hstop (hok hin hroom).2 (i := i - 1) (by omega) (by omega)]
      congr 1
      omega

/-- **A character the screen keeps up with.** -/
theorem showing_char (h : Showing L k t s) {c : Byte} (hc : (Edit.char c).Printable)
    (hok : s.Ok (.char c)) : Showing L (termPutc L c k) t (s.step (.char c)) := by
  have hle := s.line.cursor_le
  have hfits := h.fits
  have hrange := h.inside.range.2
  have hcursor := h.cursor
  unfold Strip.stop at hfits
  unfold Strip.step
  dsimp only
  by_cases hroom : s.line.text.length < 127
  · rw [termPutc_taken h hc.plain hroom]
    by_cases hlast : s.base + s.line.cursor = 1999
    · rw [if_pos ⟨hroom, hlast⟩]
      refine showing_corner h hc hroom ?_ hlast
      -- text behind the cursor would be past the last cell
      by_contra hlt
      have hstop := (hok (by omega) hroom).1
      unfold Strip.stop at hstop
      omega
    · rw [if_neg fun hc => hlast hc.2]
      exact showing_inside h hc hroom (by omega) hok
  · have hsize : (bufSize : Int) - 1 = 127 := rfl
    rw [if_neg fun hc => hroom hc.1, Zipper.insert_full (by omega), termPutc_plain hc.plain,
      h.shown, h.edits.pos, h.edits.size, hsize, if_neg (by omega)]
    exact h

/-- **A character the screen does not keep up with** is not where it belongs, or another is not. -/
theorem char_ok_of_onScreen (h : Showing L k t s) {c : Byte} (hc : (Edit.char c).Printable)
    (hon : OnScreen (termPutc L c k) t) : s.Ok (.char c) := by
  intro hlt hroom
  have hle := s.line.cursor_le
  have h0 := h.start0
  have hfits := h.fits
  have hstart := h.start
  have hedits := edits_insert (L := L) h.edits h.shown hc.plain
  rw [termPutc_taken h hc.plain hroom] at hon hedits
  have hshown : ∀ i : Nat, i < s.line.text.length + 1 → s.line.cursor < i →
      cell (termInsert L c k) (writeCell (termInsert L c k) t + i)
        = s.line.text.getD (i - 1) 0 := by
    intro i hi hci
    have hsize := hedits.size
    have hbyte := hedits.bytes i (by rw [Zipper.insert_length hroom]; exact hi)
    rw [Zipper.insert_length hroom] at hsize
    rw [Zipper.insert_getD hroom, if_neg (by omega), if_neg (by omega)] at hbyte
    rw [hon.cells i (by omega), hbyte]
  have hcursor := h.cursor
  unfold Strip.stop at hfits
  by_cases hlast : s.base + s.line.cursor = 1999
  · -- the screen goes up, and the last row is blank where the last character should be
    obtain ⟨-, -, h3, h4, h5⟩ := termInsert_corner h hc.plain (hcursor.trans hlast)
    have hblank := hshown s.line.text.length (by omega) hlt
    have hwrite : writeCell (termInsert L c k) t = s.base - 80 := by
      simp only [writeCell, numCols] at hstart ⊢
      rw [h3, h4]
      omega
    rw [hwrite, h5 _ (by omega) (by omega), if_neg (by omega),
      List.getD_eq_getElem _ _ (by omega)] at hblank
    refine absurd ?_ h.plain
    rw [hblank]
    exact List.getElem_mem _
  · have hrange := h.inside.range.2
    obtain ⟨-, -, h3, h4, h5⟩ := termInsert_inside h hc.plain (by omega)
    have hwrite : writeCell (termInsert L c k) t = s.base := by
      unfold writeCell
      rw [h3, h4]
      exact hstart
    have hsize := hedits.size
    have hfits' := hon.fits
    rw [Zipper.insert_length hroom] at hsize
    rw [hwrite, hsize] at hfits'
    refine ⟨by unfold Strip.stop; omega, ?_⟩
    intro i hi hci hseg
    -- the second column of the row, where the character of the row above is
    have hcell := hshown (i + 1) (by omega) (by omega)
    simp only [cursorCell, numCols] at hcursor
    obtain ⟨hx0, hx1, hy0, hy1⟩ := h.inside
    have hsource : scootSource (s.base + (i + 1 : Nat)) = s.base + (i - 1 : Nat) := by
      unfold scootSource
      rw [if_pos (by omega)]
      omega
    rw [hwrite, h5 _ (by omega), if_neg (by simp only [cursorCell, numCols]; omega),
      roomFor_cell h hlt (by omega) (by omega), if_neg (by omega), if_neg (by omega), hsource,
      h.cells (i - 1) (by omega), Nat.add_sub_cancel] at hcell
    exact hcell.symm

/-- **One key.** The screen still shows the line after it exactly when it is `Ok`. -/
theorem showing_step (h : Showing L k t s) {e : Edit} (he : e.Printable) :
    (OnScreen (termEdit L k e) t → s.Ok e) ∧
      (s.Ok e → Showing L (termEdit L k e) t (s.step e)) := by
  cases e with
  | char c => exact ⟨char_ok_of_onScreen h he, showing_char h he⟩
  | left => exact ⟨fun _ => trivial, fun _ => showing_left h⟩
  | right => exact ⟨right_ok_of_onScreen h, showing_right h⟩

/-- **A sequence of keys.** The screen shows the line all along exactly when each is `Ok`. -/
theorem showing_run (es : List Edit) : ∀ {k : Kernel} {s : Strip}, Showing L k t s →
    (∀ e ∈ es, e.Printable) →
    (ShownAlong L k t es ↔ s.Steady es) := by
  induction es with
  | nil =>
      intro k s h _
      refine ⟨fun _ => trivial, ?_⟩
      intro _ pre hpre
      rw [List.prefix_nil.mp hpre]
      exact h.onScreen
  | cons e es ih =>
      intro k s h hes
      obtain ⟨hbreaks, hkeeps⟩ := showing_step h (hes e List.mem_cons_self)
      have hrest : ∀ e' ∈ es, e'.Printable := fun e' he' => hes e' (List.mem_cons_of_mem e he')
      refine ⟨?_, ?_⟩
      · intro hall
        have hok := hbreaks (hall [e] (List.cons_prefix_cons.mpr ⟨rfl, List.nil_prefix⟩))
        refine ⟨hok, (ih (hkeeps hok) hrest).mp ?_⟩
        intro pre hpre
        exact hall (e :: pre) (List.cons_prefix_cons.mpr ⟨rfl, hpre⟩)
      · intro hsteady pre hpre
        obtain ⟨hok, hsteady'⟩ := hsteady
        rcases List.prefix_cons_iff.mp hpre with rfl | ⟨pre', rfl, hpre'⟩
        · exact h.onScreen
        · exact (ih (hkeeps hok) hrest).mpr hsteady' pre' hpre'

end Steps

/-! ## After output -/

section Output

variable {L : Layout} {k : Kernel} {t : Term}

/-- Output ends where the cursor is. -/
theorem termWrite_cursor (hactive : k.task.currentActiveProcess = t) (buf : List Byte) :
    (termWrite L buf k).term.writeX t = (termWrite L buf k).screen.screenX t ∧
      (termWrite L buf k).term.writeY t = (termWrite L buf k).screen.screenY t := by
  have hbuf : (buf.foldl (fun k c => mtPutc L c k) k).task.currentActiveProcess = t := by
    rw [(Shows.output (L := L) hactive buf).task]
    exact hactive
  unfold termWrite saveWritePos
  dsimp only
  rw [hbuf]
  simp [Kernel.setWriteX, Kernel.setWriteY]

theorem showing_start (hmapped : Mapped L k videoMem offsetVideo)
    (hcur : k.page.currentTerminal = t) (hactive : k.task.currentActiveProcess = t)
    (hpos : k.term.curPos t = 0) (hsize : k.term.curSize t = 0) (buf : List Byte)
    (hin : CursorIn (termWrite L buf k) t) :
    Showing L (termWrite L buf k) t ⟨writeCell (termWrite L buf k) t, .empty⟩ := by
  have hshows := Shows.termWrite (L := L) hactive buf
  obtain ⟨hx, hy⟩ := termWrite_cursor (L := L) hactive buf
  have hcell : cursorCell (termWrite L buf k) t = writeCell (termWrite L buf k) t := by
    unfold cursorCell writeCell
    rw [hx, hy]
  have hrange := hin.range
  refine ⟨hmapped.of_page hshows.page, hshows.current.trans hcur, hin, ?_, rfl, ?_, ?_,
    List.not_mem_nil, ?_, ?_, fun i hi => absurd hi (Nat.not_lt_zero i)⟩
  · rw [hx]
    exact ⟨hin.x0, hin.x1⟩
  · dsimp only
    omega
  · exact ⟨by rw [hshows.curPos]; exact hpos, by rw [hshows.curSize]; exact hsize,
      fun i hi => absurd hi (Nat.not_lt_zero i)⟩
  · dsimp only
    rw [hcell]
    exact (Int.add_zero _).symm
  · unfold Strip.stop
    dsimp only
    show writeCell (termWrite L buf k) t + 0 ≤ 2000
    omega

end Output

/--
**The screen shows the line being edited** after every one of a sequence of printable
characters and arrow keys, from output on the terminal on display on, exactly when the
sequence is steady for a line that starts where output ended.
-/
theorem edited_screen_iff (L : Layout) {k : Kernel} {t : Term} {es : List Edit} (buf : List Byte)
    (hmapped : Mapped L k videoMem offsetVideo) (hcur : k.page.currentTerminal = t)
    (hactive : k.task.currentActiveProcess = t) (hpos : k.term.curPos t = 0)
    (hsize : k.term.curSize t = 0) (hin : CursorIn (termWrite L buf k) t)
    (hes : ∀ e ∈ es, e.Printable) :
    ShownAlong L (termWrite L buf k) t es ↔
      Strip.Steady ⟨writeCell (termWrite L buf k) t, .empty⟩ es :=
  showing_run es (showing_start hmapped hcur hactive hpos hsize buf hin) hes

/-- Nothing written yet, and the cursor in column `x` of the first row. -/
def blankPrompt (x : Int) : Kernel := emptyFront someLayout 0 x 0

theorem blankPrompt_mapped (x : Int) : Mapped someLayout (blankPrompt x) videoMem offsetVideo :=
  (twin_empty someLayout 0 x 0 (by decide) (by decide)).front

theorem blankPrompt_cursor {x : Int} (h0 : 0 ≤ x) (h1 : x < 80) :
    CursorIn (termWrite someLayout [] (blankPrompt x)) 0 :=
  ⟨h0, h1, Int.le_refl 0, (by decide : (0 : Int) < 25)⟩

theorem blankPrompt_start (x : Int) :
    writeCell (termWrite someLayout [] (blankPrompt x)) 0 = x := by
  show (80 : Int) * 0 + x = x
  omega

/-- "ac", left, and "b" between them, from column `7`. -/
theorem edited_screen_abc :
    ShownAlong someLayout (termWrite someLayout [] (blankPrompt 7)) 0
      [.char 0x61, .char 0x63, .left, .char 0x62] := by
  have hes : ∀ e ∈ [Edit.char 0x61, .char 0x63, .left, .char 0x62], e.Printable := by
    intro e he
    simp only [List.mem_cons, List.not_mem_nil, or_false] at he
    rcases he with rfl | rfl | rfl | rfl
    · exact ⟨by decide, by decide⟩
    · exact ⟨by decide, by decide⟩
    · trivial
    · exact ⟨by decide, by decide⟩
  have hsteady : Strip.Steady ⟨7, .empty⟩ [.char 0x61, .char 0x63, .left, .char 0x62] := by decide
  have hiff := edited_screen_iff someLayout (t := 0) [] (blankPrompt_mapped 7) rfl rfl rfl rfl
    (blankPrompt_cursor (by decide) (by decide)) hes
  rw [blankPrompt_start] at hiff
  exact hiff.mpr hsteady

/--
"abc" from column `78`, two places left, and a character: the row below starts with "bb",
and "c" is gone from the screen.
-/
theorem edited_screen_row_end :
    let k := termWrite someLayout [] (blankPrompt 78)
    let es := [Edit.char 0x61, .char 0x62, .char 0x63, .left, .left]
    ShownAlong someLayout k 0 es ∧
      ¬ OnScreen ((es ++ [Edit.char 0x78]).foldl (termEdit someLayout) k) 0 := by
  intro k es
  have hstart := showing_start (t := 0) (blankPrompt_mapped 78) rfl rfl rfl rfl []
    (blankPrompt_cursor (by decide) (by decide))
  rw [blankPrompt_start] at hstart
  have hx : ∀ e ∈ es ++ [Edit.char 0x78], e.Printable := by
    intro e he
    simp only [es, List.cons_append, List.nil_append, List.mem_cons, List.not_mem_nil,
      or_false] at he
    rcases he with rfl | rfl | rfl | rfl | rfl | rfl
    · exact ⟨by decide, by decide⟩
    · exact ⟨by decide, by decide⟩
    · exact ⟨by decide, by decide⟩
    · trivial
    · trivial
    · exact ⟨by decide, by decide⟩
  have hbefore : ShownAlong someLayout k 0 es :=
    (showing_run es hstart fun e he => hx e (List.mem_append_left _ he)).mpr (by decide)
  refine ⟨hbefore, ?_⟩
  intro hlast
  -- were the last key shown too, the whole sequence would be steady
  have hsteady := (showing_run (es ++ [Edit.char 0x78]) hstart hx).mp fun pre hpre => by
    rcases List.prefix_concat_iff.mp hpre with rfl | hpre
    · exact hlast
    · exact hbefore pre hpre
  exact absurd hsteady (by decide)

end Zbiggie.Proof
