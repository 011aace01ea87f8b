import Zbiggie.Proof.Lines
import Zbiggie.Proof.TermView

/-!
# The screen as one strip of cells

What is typed runs along the rows, so the editor's side of the screen is easier seen as
a strip: 2000 cells numbered from the upper left, a cursor that is one of them, and the
characters in them. A typed character goes into the cursor's cell and the cursor goes
one on; in the last cell that moves the whole strip up by a row.

`scoot_text` is to move what is behind the cursor on by one cell. Row by row, from the
last, it does so from right to left, but fills the first column before it gets to the
second: so the second column of every row it moves as a whole takes the character that
was last in the row above, and the one that was first in the row is gone.
-/

namespace Zbiggie.Proof

open Zbiggie Machine

/-- The character in cell `i`. -/
def cell (k : Kernel) (i : Int) : Byte := k.ram (offsetVideo + (2 * i).toNat)

/-- The cell the cursor of `t` is in. -/
def cursorCell (k : Kernel) (t : Term) : Int := numCols * k.screen.screenY t + k.screen.screenX t

/-- The cursor is on the screen. -/
structure CursorIn (k : Kernel) (t : Term) : Prop where
  x0 : 0 ≤ k.screen.screenX t
  x1 : k.screen.screenX t < 80
  y0 : 0 ≤ k.screen.screenY t
  y1 : k.screen.screenY t < 25

theorem CursorIn.range {k : Kernel} {t : Term} (h : CursorIn k t) :
    0 ≤ cursorCell k t ∧ cursorCell k t < 2000 := by
  obtain ⟨h1, h2, h3, h4⟩ := h
  simp only [cursorCell, numCols]
  omega

theorem CursorIn.of_screen {k k' : Kernel} {t : Term} (h : CursorIn k t)
    (hs : k'.screen = k.screen) : CursorIn k' t := by
  refine ⟨?_, ?_, ?_, ?_⟩
  · rw [hs]
    exact h.x0
  · rw [hs]
    exact h.x1
  · rw [hs]
    exact h.y0
  · rw [hs]
    exact h.y1

/-! ## Moving -/

section Moving

variable {k : Kernel} {t : Term}

/-- One cell back, short of the first. -/
theorem moveLeft_cursor (hcur : k.page.currentTerminal = t) (hin : CursorIn k t)
    (hpos : 0 < cursorCell k t) :
    CursorIn (moveLeft k) t ∧ cursorCell (moveLeft k) t = cursorCell k t - 1 ∧
      (moveLeft k).ram = k.ram ∧ (moveLeft k).term = k.term := by
  obtain ⟨h1, h2, h3, h4⟩ := hin
  simp only [cursorCell, numCols] at hpos
  unfold moveLeft
  dsimp only
  rw [hcur]
  by_cases hx : k.screen.screenX t > 0
  · rw [if_pos hx]
    refine ⟨⟨?_, ?_, ?_, ?_⟩, ?_, rfl, rfl⟩ <;>
      simp [cursorCell, Kernel.setScreenX, numCols] <;> omega
  · rw [if_neg hx, if_pos (by omega)]
    refine ⟨⟨?_, ?_, ?_, ?_⟩, ?_, rfl, rfl⟩ <;>
      simp [cursorCell, Kernel.setScreenX, Kernel.setScreenY, numCols] <;> omega

/-- One cell on, short of the last, where it stays. -/
theorem moveRight_cursor (hcur : k.page.currentTerminal = t) (hin : CursorIn k t) :
    CursorIn (moveRight k) t ∧
      cursorCell (moveRight k) t = (if cursorCell k t < 1999 then cursorCell k t + 1
        else cursorCell k t) ∧
      (moveRight k).ram = k.ram ∧ (moveRight k).term = k.term := by
  obtain ⟨h1, h2, h3, h4⟩ := hin
  unfold moveRight
  dsimp only
  rw [hcur]
  have hcell : cursorCell k t = 80 * k.screen.screenY t + k.screen.screenX t := rfl
  by_cases hx : k.screen.screenX t < numCols - 1
  · have hx' : k.screen.screenX t < 79 := hx
    rw [if_pos hx, if_pos (by omega)]
    refine ⟨⟨?_, ?_, ?_, ?_⟩, ?_, rfl, rfl⟩ <;>
      simp [cursorCell, Kernel.setScreenX, numCols] <;> omega
  · have hx' : ¬ k.screen.screenX t < 79 := hx
    rw [if_neg hx]
    by_cases hy : k.screen.screenY t < numRows - 1
    · have hy' : k.screen.screenY t < 24 := hy
      rw [if_pos hy, if_pos (by omega)]
      refine ⟨⟨?_, ?_, ?_, ?_⟩, ?_, rfl, rfl⟩ <;>
        simp [cursorCell, Kernel.setScreenX, Kernel.setScreenY, numCols] <;> omega
    -- the last cell of the last row
    · have hy' : ¬ k.screen.screenY t < 24 := hy
      rw [if_neg hy, if_neg (by omega)]
      exact ⟨⟨h1, h2, h3, h4⟩, rfl, rfl, rfl⟩

end Moving

/-! ## A typed character -/

/-- One character in memory, seen from the cells. -/
theorem cellPut_cell (attr c : Byte) {ℓ : Int} (h0 : 0 ≤ ℓ) (h1 : ℓ < 2000) (m : Mem) {i : Int}
    (hi : 0 ≤ i) : cellPut offsetVideo attr (2 * ℓ) c m (offsetVideo + (2 * i).toNat)
      = if i = ℓ then c else m (offsetVideo + (2 * i).toNat) := by
  unfold cellPut
  rw [if_pos (by simp only [offset4K]; omega), store_of_ne (by omega)]
  by_cases he : i = ℓ
  · rw [if_pos he, he, store_self]
  · rw [if_neg he, store_of_ne (by omega)]

/-- A scroll, seen from the cells: a row up, and the last row empty. -/
theorem scrolled_cell (attr : Byte) (m : Mem) {i : Int} (h0 : 0 ≤ i) (h1 : i < 2000) :
    scrolled offsetVideo attr m (offsetVideo + (2 * i).toNat)
      = if i < 1920 then m (offsetVideo + (2 * (i + 80)).toNat) else 0 := by
  unfold scrolled blanked shifted
  by_cases hi : i < 1920
  · rw [if_neg (by omega), if_pos (by omega), if_pos hi,
      show offsetVideo + (2 * i).toNat + 160 = offsetVideo + (2 * (i + 80)).toNat by omega]
  · rw [if_pos (by omega), if_neg hi, if_pos (by omega)]

section Typing

variable {L : Layout} {k : Kernel} {t : Term} {c : Byte}

/-- `scroll()`, computed. -/
theorem scroll_mapped (h : Mapped L k videoMem offsetVideo) (hcur : k.page.currentTerminal = t) :
    scroll L k = ((((withRam k (scrolled offsetVideo (attribs t) k.ram)).setBiggestY t
      (numRows - 1)).setScreenY t (numRows - 1)).setScreenX t 0).setWriteY t
        (k.term.writeY t - 1) := by
  have hrows : Mapped L (((withRam k (shifted offsetVideo 1920 k.ram)).setBiggestY t
      (numRows - 1)).setScreenY t (numRows - 1)) videoMem offsetVideo := h.of_page rfl
  unfold scroll
  dsimp only
  rw [hcur, scrollRows_mapped h, blankRow_mapped hrows]
  rfl

/-- **What a scroll leaves**: the rows one up, the cursor at the start of the last one. -/
theorem scroll_effect (h : Mapped L k videoMem offsetVideo) (hcur : k.page.currentTerminal = t) :
    (scroll L k).page = k.page ∧
      (scroll L k).term
        = { k.term with writeY := Function.update k.term.writeY t (k.term.writeY t - 1) } ∧
      (scroll L k).ram = scrolled offsetVideo (attribs t) k.ram ∧
      (scroll L k).screen.screenX t = 0 ∧ (scroll L k).screen.screenY t = 24 := by
  rw [scroll_mapped h hcur]
  unfold Kernel.setWriteY Kernel.setScreenX Kernel.setScreenY Kernel.setBiggestY withRam
  refine ⟨rfl, rfl, rfl, ?_, ?_⟩
  · simp
  · simp [numRows]

theorem nextRow_cursor (t : Term) (k : Kernel) : (nextRow t k).screen.screenX t = 0 ∧
    (nextRow t k).screen.screenY t = k.screen.screenY t + 1 := by
  simp [nextRow, Kernel.setScreenX, Kernel.setScreenY, Kernel.setBiggestY]

/-- What the first half of `putc_kb` does with a character that is only that. -/
def printed (t : Term) (c : Byte) (k : Kernel) : Kernel :=
  (withRam k (cellPut offsetVideo (attribs t) (2 * cursorCell k t) c k.ram)).setScreenX t
    (k.screen.screenX t + 1)

/-- And the second: a wrap, and a scroll. -/
def inserted (L : Layout) (t : Term) (c : Byte) (k : Kernel) : Kernel :=
  let k' := if k.screen.screenX t + 1 ≥ 80 then nextRow t (printed t c k) else printed t c k
  if k'.screen.screenY t ≥ 25 then scroll L k' else k'

theorem putcKb_printed (h : Mapped L k videoMem offsetVideo) (hcur : k.page.currentTerminal = t)
    (hin : CursorIn k t) (hbreak : ¬ IsBreak c) (hbs : c ≠ 0x08) :
    putcKb L c k = inserted L t c k := by
  obtain ⟨h1, h2, h3, h4⟩ := hin
  have hput := putCell_mapped h (attribs t) c h1 h3 (by simp only [cellOff, numCols]; omega)
  have hx : ¬ k.screen.screenX t ≥ (numCols : Int) := not_le.mpr h2
  have hplain : ¬ (c = 0x0A ∨ c = 0x0D) := hbreak
  unfold putcKb
  dsimp only
  rw [hcur, if_neg hplain, if_neg hbs, if_neg hx, hput]
  have hprinted : (withRam k (cellPut offsetVideo (attribs t)
      (cellOff (k.screen.screenX t) (k.screen.screenY t)) c k.ram)).setScreenX t
        ((withRam k (cellPut offsetVideo (attribs t)
          (cellOff (k.screen.screenX t) (k.screen.screenY t)) c k.ram)).screen.screenX t + 1)
      = printed t c k := rfl
  have hcol : (printed t c k).screen.screenX t = k.screen.screenX t + 1 := Function.update_self ..
  rw [hprinted, hcol]
  rfl

/-- `putc` does the same, and Backspace is a character to it. -/
theorem putc_printed (h : Mapped L k videoMem offsetVideo) (hcur : k.page.currentTerminal = t)
    (hin : CursorIn k t) (hbreak : ¬ IsBreak c) : putc L c k = inserted L t c k := by
  obtain ⟨h1, h2, h3, h4⟩ := hin
  have hput := putCell_mapped h (attribs t) c h1 h3 (by simp only [cellOff, numCols]; omega)
  have hplain : ¬ (c = 0x0A ∨ c = 0x0D) := hbreak
  have hprinted : putChar L videoMem t c k = printed t c k := by
    unfold putChar
    dsimp only
    rw [if_neg hplain, hput]
    rfl
  have hcol : (printed t c k).screen.screenX t = k.screen.screenX t + 1 := Function.update_self ..
  unfold putc
  dsimp only
  rw [hcur, hprinted, hcol]
  rfl

theorem printed_cell (hin : CursorIn k t) (i : Int) (hi : 0 ≤ i) :
    cell (printed t c k) i = if i = cursorCell k t then c else cell k i :=
  cellPut_cell (attribs t) c hin.range.1 hin.range.2 k.ram hi

/-- Where a character short of the last cell leaves the cursor. -/
theorem inserted_inside (L : Layout) (hin : CursorIn k t) (hlt : cursorCell k t < 1999) :
    CursorIn (inserted L t c k) t ∧ cursorCell (inserted L t c k) t = cursorCell k t + 1 ∧
      (inserted L t c k).term = k.term ∧ (inserted L t c k).ram = (printed t c k).ram := by
  obtain ⟨h1, h2, h3, h4⟩ := hin
  have hrange : cursorCell k t = 80 * k.screen.screenY t + k.screen.screenX t := rfl
  have hy : (printed t c k).screen.screenY t = k.screen.screenY t := rfl
  unfold inserted
  dsimp only
  by_cases hx : k.screen.screenX t + 1 ≥ 80
  -- the row is full, but it is not the last one
  · obtain ⟨hcol, hrow⟩ := nextRow_cursor t (printed t c k)
    rw [if_pos hx, hrow, if_neg (by omega)]
    refine ⟨⟨by omega, by omega, by omega, by omega⟩, ?_, rfl, rfl⟩
    unfold cursorCell
    rw [hrow, hcol]
    simp only [numCols]
    omega
  · have hcol : (printed t c k).screen.screenX t = k.screen.screenX t + 1 := Function.update_self ..
    rw [if_neg hx, hy, if_neg (by omega)]
    refine ⟨⟨by omega, by omega, by omega, by omega⟩, ?_, rfl, rfl⟩
    unfold cursorCell
    rw [hy, hcol]
    omega

/-- And one in the last cell: the screen goes up by a row, and what was written with it. -/
theorem inserted_corner (h : Mapped L k videoMem offsetVideo) (hcur : k.page.currentTerminal = t)
    (hin : CursorIn k t) (heq : cursorCell k t = 1999) :
    CursorIn (inserted L t c k) t ∧ cursorCell (inserted L t c k) t = 1920 ∧
      (inserted L t c k).term
        = { k.term with writeY := Function.update k.term.writeY t (k.term.writeY t - 1) } ∧
      (inserted L t c k).ram = scrolled offsetVideo (attribs t) (printed t c k).ram := by
  obtain ⟨h1, h2, h3, h4⟩ := hin
  have hrange : cursorCell k t = 80 * k.screen.screenY t + k.screen.screenX t := rfl
  have hy : (printed t c k).screen.screenY t = k.screen.screenY t := rfl
  obtain ⟨-, hrow⟩ := nextRow_cursor t (printed t c k)
  have hm : Mapped L (nextRow t (printed t c k)) videoMem offsetVideo := h.of_page rfl
  obtain ⟨-, hterm, hram, hcol, hlast⟩ := scroll_effect hm hcur
  unfold inserted
  dsimp only
  rw [if_pos (show k.screen.screenX t + 1 ≥ 80 by omega), hrow, if_pos (by omega)]
  refine ⟨⟨by omega, by omega, by omega, by omega⟩, ?_, hterm, hram⟩
  unfold cursorCell
  rw [hcol, hlast]
  rfl

/-- **A character short of the last cell.** -/
theorem putcKb_inside (h : Mapped L k videoMem offsetVideo) (hcur : k.page.currentTerminal = t)
    (hin : CursorIn k t) (hbreak : ¬ IsBreak c) (hbs : c ≠ 0x08) (hlt : cursorCell k t < 1999) :
    CursorIn (putcKb L c k) t ∧ cursorCell (putcKb L c k) t = cursorCell k t + 1 ∧
      (putcKb L c k).term = k.term ∧
      ∀ i, 0 ≤ i → cell (putcKb L c k) i = if i = cursorCell k t then c else cell k i := by
  obtain ⟨hin', hcursor, hterm, hram⟩ := inserted_inside (c := c) L hin hlt
  rw [putcKb_printed h hcur hin hbreak hbs]
  refine ⟨hin', hcursor, hterm, ?_⟩
  intro i hi
  exact (congrFun hram _).trans (printed_cell hin i hi)

/-- **A character in the last cell.** -/
theorem putcKb_corner (h : Mapped L k videoMem offsetVideo) (hcur : k.page.currentTerminal = t)
    (hin : CursorIn k t) (hbreak : ¬ IsBreak c) (hbs : c ≠ 0x08) (heq : cursorCell k t = 1999) :
    CursorIn (putcKb L c k) t ∧ cursorCell (putcKb L c k) t = 1920 ∧
      (putcKb L c k).term
        = { k.term with writeY := Function.update k.term.writeY t (k.term.writeY t - 1) } ∧
      ∀ i, 0 ≤ i → i < 2000 → cell (putcKb L c k) i =
        if i < 1920 then (if i + 80 = 1999 then c else cell k (i + 80)) else 0 := by
  obtain ⟨hin', hcursor, hterm, hram⟩ := inserted_corner (c := c) h hcur hin heq
  rw [putcKb_printed h hcur hin hbreak hbs]
  refine ⟨hin', hcursor, hterm, ?_⟩
  intro i h0 h1'
  have hup := scrolled_cell (attribs t) (printed t c k).ram h0 h1'
  have hold := printed_cell (c := c) hin (i + 80) (by omega)
  rw [heq] at hold
  refine ((congrFun hram _).trans hup).trans ?_
  by_cases hi : i < 1920
  · rw [if_pos hi, if_pos hi]
    exact hold
  · rw [if_neg hi, if_neg hi]

end Typing

/-! ## Making room -/

section Scooting

variable {L : Layout} {k : Kernel} {t : Term}

theorem scootCell_mapped (h : Mapped L k videoMem offsetVideo) {dst src : Int} (hd0 : 0 ≤ dst)
    (hd : dst < 2000) (hs0 : 0 ≤ src) (hs : src < 2000) :
    scootCell L t dst src k = withRam k (store (store k.ram (offsetVideo + (2 * dst).toNat)
      (cell k src)) (offsetVideo + ((2 * dst).toNat + 1)) (attribs t)) := by
  have hword : ∀ i : Int, 0 ≤ i →
      BitVec.ofInt 32 ((videoMem : Int) + i) = BitVec.ofNat 32 (videoMem + i.toNat) := by
    intro i hi
    rw [← BitVec.ofInt_natCast]
    congr 1
    omega
  have hnext : (2 * dst + 1).toNat = (2 * dst).toNat + 1 := by omega
  have hroom : (2 * dst).toNat + 1 < offset4K := by
    simp only [offset4K]
    omega
  have hload : kload L k (BitVec.ofInt 32 ((videoMem : Int) + 2 * src)) = cell k src := by
    rw [hword _ (by omega), h.kload (by simp only [offset4K]; omega)]
    rfl
  unfold scootCell
  dsimp only
  rw [hload, hword _ (by omega), Int.add_assoc, hword _ (by omega), hnext, h.kstore_pair hroom]

/-- **One cell takes the character of another.** -/
theorem scootCell_cell (h : Mapped L k videoMem offsetVideo) {dst src : Int} (hd0 : 0 ≤ dst)
    (hd : dst < 2000) (hs0 : 0 ≤ src) (hs : src < 2000) {i : Int} (hi : 0 ≤ i) :
    cell (scootCell L t dst src k) i = if i = dst then cell k src else cell k i := by
  rw [scootCell_mapped h hd0 hd hs0 hs]
  unfold cell
  rw [withRam_ram, store_of_ne (by omega)]
  by_cases he : i = dst
  · rw [if_pos he, he, store_self]
  · rw [if_neg he, store_of_ne (by omega)]

/-- A loop of them leaves the page where it was. -/
theorem scootCell_page (t : Term) (dst src : Int) (k : Kernel) :
    (scootCell L t dst src k).page = k.page := (Shows.scootCell t t dst src k).page

/-- **The last `n` columns of a row**, from the right. -/
theorem scootRow_cell (h : Mapped L k videoMem offsetVideo) {y : Int} (hy0 : 0 ≤ y) (hy : y < 25)
    {n : Nat} (hn : n ≤ 79) {k' : Kernel}
    (hk' : k' = forLoop n (fun i k =>
      scootCell L t (numCols * y + (numCols - 1 - i)) (numCols * y + (numCols - 1 - i) - 1) k) k) :
    k'.page = k.page ∧ ∀ i, 0 ≤ i → cell k' i =
      if 80 * y + 79 - n < i ∧ i ≤ 80 * y + 79 then cell k (i - 1) else cell k i := by
  subst hk'
  refine forLoop_inv (P := fun m (k' : Kernel) => k'.page = k.page ∧ ∀ i, 0 ≤ i → cell k' i =
    if 80 * y + 79 - m < i ∧ i ≤ 80 * y + 79 then cell k (i - 1) else cell k i)
    ⟨rfl, fun i _ => by rw [if_neg (by omega)]⟩ n ?_
  intro m k' hm ih
  obtain ⟨hpage, hcell⟩ := ih
  refine ⟨(scootCell_page ..).trans hpage, ?_⟩
  intro i hi
  simp only [numCols]
  rw [scootCell_cell (h.of_page hpage) (by omega) (by omega) (by omega) (by omega) hi,
    hcell _ (by omega), hcell i hi]
  -- the cell before the one just filled has not been touched yet
  by_cases he : i = 80 * y + (80 - 1 - m)
  · rw [if_pos (by omega), if_neg (by omega), if_pos (by omega)]
    congr 1
    omega
  · rw [if_neg (by omega)]
    by_cases hin : 80 * y + 79 - m < i ∧ i ≤ 80 * y + 79
    · rw [if_pos hin, if_pos (by omega)]
    · rw [if_neg hin, if_neg (by omega)]

/-- Nothing but memory changes. -/
theorem scootCell_only (t : Term) (dst src : Int) (k : Kernel) :
    ∃ m, scootCell L t dst src k = withRam k m := by
  have hstore : ∀ (k : Kernel) v b, ∃ m, kstore L k v b = withRam k m := by
    intro k v b
    unfold kstore
    split
    · exact ⟨_, rfl⟩
    · exact ⟨k.ram, rfl⟩
  obtain ⟨m, hm⟩ := hstore k _ (kload L k (BitVec.ofInt 32 (videoMem + 2 * src)))
  obtain ⟨m', hm'⟩ := hstore (withRam k m) (BitVec.ofInt 32 (videoMem + 2 * dst + 1)) (attribs t)
  refine ⟨m', ?_⟩
  unfold scootCell
  dsimp only
  rw [hm, hm']
  rfl

theorem scootText_only (L : Layout) (k : Kernel) : ∃ m, scootText L k = withRam k m := by
  have hstep : ∀ {k1 : Kernel} (u : Term) (dst src : Int), (∃ m, k1 = withRam k m) →
      ∃ m, scootCell L u dst src k1 = withRam k m := by
    rintro k1 u dst src ⟨m, rfl⟩
    obtain ⟨m', hm'⟩ := scootCell_only (L := L) u dst src (withRam k m)
    exact ⟨m', hm'⟩
  have hloop : ∀ {k1 : Kernel} {n : Nat} {body : Nat → Kernel → Kernel}, (∃ m, k1 = withRam k m) →
      (∀ i k2, (∃ m, k2 = withRam k m) → ∃ m, body i k2 = withRam k m) →
      ∃ m, forLoop n body k1 = withRam k m :=
    fun h0 hbody => forLoop_inv (P := fun _ (k' : Kernel) => ∃ m, k' = withRam k m) h0 _
      (fun i k2 _ h => hbody i k2 h)
  refine hloop (hloop ⟨k.ram, rfl⟩ ?_) (fun i k2 h => hstep _ _ _ h)
  intro j k2 h
  exact hloop (hstep _ _ _ h) (fun i k3 h' => hstep _ _ _ h')

/-- Where a cell of a row that is moved as a whole gets its character from. -/
def scootSource (i : Int) : Int := if i % 80 = 1 then i - 2 else i - 1

/-- **A whole row**: the first column before the others. -/
theorem scootWhole_cell (h : Mapped L k videoMem offsetVideo) {y : Int} (hy0 : 0 < y) (hy : y < 25)
    {k' : Kernel}
    (hk' : k' = forLoop (numCols - 1) (fun i k =>
      scootCell L t (numCols * y + (numCols - 1 - i)) (numCols * y + (numCols - 1 - i) - 1) k)
        (scootCell L t (numCols * y) (numCols * (y - 1) + numCols - 1) k)) :
    k'.page = k.page ∧ ∀ i, 0 ≤ i → cell k' i =
      if 80 * y ≤ i ∧ i ≤ 80 * y + 79 then cell k (scootSource i) else cell k i := by
  have hfirst : ∀ i, 0 ≤ i →
      cell (scootCell L t (numCols * y) (numCols * (y - 1) + numCols - 1) k) i
        = if i = 80 * y then cell k (80 * y - 1) else cell k i := by
    intro i hi
    simp only [numCols]
    rw [scootCell_cell h (by omega) (by omega) (by omega) (by omega) hi]
    by_cases he : i = 80 * y
    · rw [if_pos (by omega), if_pos he]
      congr 1
      omega
    · rw [if_neg (by omega), if_neg he]
  obtain ⟨hpage, hcell⟩ := scootRow_cell (h.of_page (scootCell_page ..)) (by omega) hy
    (Nat.le_refl 79) hk'
  refine ⟨hpage.trans (scootCell_page ..), ?_⟩
  intro i hi
  unfold scootSource
  rw [hcell i hi]
  by_cases hin : 80 * y + 79 - (79 : Nat) < i ∧ i ≤ 80 * y + 79
  · rw [if_pos hin, hfirst _ (by omega)]
    -- the second column takes the first after that one has been filled
    by_cases hsecond : i = 80 * y + 1
    · rw [if_pos (by omega), if_pos (by omega), if_pos (by omega)]
      congr 1
      omega
    · rw [if_neg (by omega), if_pos (by omega), if_neg (by omega)]
  · rw [if_neg hin, hfirst i hi]
    by_cases he : i = 80 * y
    · rw [if_pos he, if_pos (by omega), if_neg (by omega), he]
    · rw [if_neg he, if_neg (by omega)]

/-- **Rows from the last one up.** -/
theorem scootRows_cell (h : Mapped L k videoMem offsetVideo) {n : Nat} (hn : n ≤ 24) {k' : Kernel}
    (hk' : k' = forLoop n (fun j k =>
      forLoop (numCols - 1) (fun i k => scootCell L t
        (numCols * (numRows - 1 - j : Int) + (numCols - 1 - i))
        (numCols * (numRows - 1 - j : Int) + (numCols - 1 - i) - 1) k)
        (scootCell L t (numCols * (numRows - 1 - j : Int))
          (numCols * ((numRows - 1 - j : Int) - 1) + numCols - 1) k)) k) :
    k'.page = k.page ∧ ∀ i, 0 ≤ i → i < 2000 →
      cell k' i = if 80 * (25 - n) ≤ i then cell k (scootSource i) else cell k i := by
  subst hk'
  refine forLoop_inv (P := fun m (k' : Kernel) => k'.page = k.page ∧ ∀ i, 0 ≤ i → i < 2000 →
    cell k' i = if 80 * (25 - m) ≤ i then cell k (scootSource i) else cell k i)
    ⟨rfl, fun i _ _ => by rw [if_neg (by omega)]⟩ n ?_
  intro m k' hm ih
  obtain ⟨hpage, hcell⟩ := ih
  have hrows : (numRows : Int) - 1 - m = 24 - m := by
    simp only [numRows]
    omega
  have hy : (0 : Int) < numRows - 1 - m ∧ (numRows : Int) - 1 - m < 25 := by omega
  obtain ⟨hpage', hcell'⟩ := scootWhole_cell (L := L) (t := t) (h.of_page hpage) hy.1 hy.2 rfl
  refine ⟨hpage'.trans hpage, ?_⟩
  intro i hi0 hi
  rw [hcell' i hi0, hrows]
  by_cases hrow : 80 * (24 - (m : Int)) ≤ i ∧ i ≤ 80 * (24 - (m : Int)) + 79
  · -- what the row takes is still above the rows that were moved
    have hsrc : 0 ≤ scootSource i ∧ scootSource i < 80 * (25 - m) := by
      unfold scootSource
      split <;> omega
    rw [if_pos hrow, hcell _ hsrc.1 (by omega), if_neg (by omega), if_pos (by omega)]
  · rw [if_neg hrow, hcell i hi0 hi]
    by_cases hbelow : 80 * (25 - (m : Int)) ≤ i
    · rw [if_pos hbelow, if_pos (by omega)]
    · rw [if_neg hbelow, if_neg (by omega)]

/--
**`scoot_text`.** Behind the cursor, each cell takes the character of the one before it,
except for the second column of the rows below the cursor's.
-/
theorem scootText_cell (h : Mapped L k videoMem offsetVideo) (hcur : k.page.currentTerminal = t)
    (hin : CursorIn k t) {i : Int} (hi0 : 0 ≤ i) (hi : i < 2000) :
    cell (scootText L k) i =
      if i ≤ cursorCell k t then cell k i
      else if i < 80 * (k.screen.screenY t + 1) then cell k (i - 1)
      else cell k (scootSource i) := by
  obtain ⟨h1, h2, h3, h4⟩ := hin
  have hcell : cursorCell k t = 80 * k.screen.screenY t + k.screen.screenX t := rfl
  have hn : (24 - k.screen.screenY t).toNat ≤ 24 := by omega
  have hm : (79 - k.screen.screenX t).toNat ≤ 79 := by omega
  obtain ⟨hpage, hrows⟩ := scootRows_cell (L := L) (t := t) h hn rfl
  obtain ⟨-, hrow⟩ := scootRow_cell (L := L) (t := t) (h.of_page hpage) h3 h4 hm rfl
  unfold scootText
  dsimp only
  rw [hcur]
  refine (hrow i hi0).trans ?_
  -- the rows below were moved first, and not the one of the cursor
  by_cases hlast : 80 * k.screen.screenY t + k.screen.screenX t < i ∧
      i ≤ 80 * k.screen.screenY t + 79
  · rw [if_pos (by omega), hrows _ (by omega) (by omega), if_neg (by omega), if_neg (by omega),
      if_pos (by omega)]
  · rw [if_neg (by omega), hrows i hi0 hi]
    by_cases hbefore : i ≤ cursorCell k t
    · rw [if_neg (by omega), if_pos hbefore]
    · rw [if_pos (by omega), if_neg hbefore, if_neg (by omega)]

end Scooting

end Zbiggie.Proof
