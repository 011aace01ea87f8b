import Zbiggie.Proof.ScreenPage

/-!
# A terminal as a cursor and a page

What a terminal is for: a cursor, and a page of cells that output fills, wraps and
scrolls. `TermView` is that, and `TermView.put` is the one thing that happens to it,
with the decision to wrap left as a parameter — because that is the one thing
`putc` and `mt_putc` do not agree on.

Each routine of `lib.c` is shown to be its counterpart on the view of the terminal
it writes to, and to touch nothing that belongs to another terminal (`Touches`).
-/

namespace Zbiggie.Proof

open Zbiggie Machine

/-- A terminal: the cursor and the bytes of its page. -/
@[ext] structure TermView where
  x : Int
  y : Int
  cells : Fin 4096 → Byte

namespace TermView

/-- The cursor to the start of the next row. -/
def nextRow (v : TermView) : TermView := { v with x := 0, y := v.y + 1 }

/-- A character and its attribute at the cursor, if the page has room for them. -/
def putCell (attr c : Byte) (v : TermView) : TermView :=
  { v with cells := fun i =>
      if cellOff v.x v.y < 4095 ∧ (i : Int) = cellOff v.x v.y then c
      else if cellOff v.x v.y < 4095 ∧ (i : Int) = cellOff v.x v.y + 1 then attr
      else v.cells i }

/-- A line break, or a character and one column on. -/
def char (attr c : Byte) (v : TermView) : TermView :=
  if c = 0x0A ∨ c = 0x0D then v.nextRow
  else { putCell attr c v with x := v.x + 1 }

/-- The rows of a page moved up by one, the last one blank. -/
def scrollCells (attr : Byte) (cells : Fin 4096 → Byte) : Fin 4096 → Byte := fun i =>
  if h : i.val < 3840 then cells ⟨i.val + 160, by omega⟩
  else if i.val < 4000 then (if i.val % 2 = 0 then 0 else attr)
  else cells i

/-- Up by one row, the cursor at the start of the last. -/
def scroll (attr : Byte) (v : TermView) : TermView := ⟨0, 24, scrollCells attr v.cells⟩

/-- Output of one character; `wrap` decides whether the column it left asks for a new row. -/
def put (attr : Byte) (wrap : Int → Bool) (c : Byte) (v : TermView) : TermView :=
  let v := v.char attr c
  let v := if wrap v.x then v.nextRow else v
  if v.y ≥ numRows then v.scroll attr else v

end TermView

/-! ## One character on a view -/

/-- `c` breaks the line. -/
def IsBreak (c : Byte) : Prop := c = 0x0A ∨ c = 0x0D

instance (c : Byte) : Decidable (IsBreak c) := inferInstanceAs (Decidable (_ ∨ _))

namespace TermView

variable {attr c : Byte} {v : TermView}

theorem char_break (h : IsBreak c) : v.char attr c = v.nextRow := if_pos h

theorem char_plain (h : ¬ IsBreak c) : v.char attr c = { putCell attr c v with x := v.x + 1 } :=
  if_neg h

/-- The wrap test is put to one column only. -/
theorem put_congr {wrap wrap' : Int → Bool} (h : wrap (v.char attr c).x = wrap' (v.char attr c).x) :
    v.put attr wrap c = v.put attr wrap' c := by
  unfold put
  dsimp only
  rw [h]

/-- The cursor after a character that did not wrap. -/
theorem put_stay {wrap : Int → Bool} (hy : v.y < 25) (hw : wrap (v.char attr c).x = false) :
    (v.put attr wrap c).x = (if IsBreak c then 0 else v.x + 1) ∧
      (v.put attr wrap c).y
        = (if IsBreak c then (if v.y + 1 ≥ 25 then 24 else v.y + 1) else v.y) := by
  unfold put
  dsimp only
  rw [hw]
  by_cases hb : IsBreak c
  · simp only [char_break hb, nextRow, Bool.false_eq_true, if_false, if_pos hb]
    by_cases hs : v.y + 1 ≥ 25
    · rw [if_pos (show v.y + 1 ≥ ((numRows : Nat) : Int) from hs), if_pos hs]
      exact ⟨rfl, rfl⟩
    · rw [if_neg (show ¬ v.y + 1 ≥ ((numRows : Nat) : Int) from hs), if_neg hs]
      exact ⟨rfl, rfl⟩
  · simp only [char_plain hb, Bool.false_eq_true, if_false, if_neg hb]
    rw [if_neg (show ¬ (putCell attr c v).y ≥ ((numRows : Nat) : Int) from not_le.mpr hy)]
    exact ⟨rfl, rfl⟩

/-- The cursor after a character that wrapped. -/
theorem put_wrap {wrap : Int → Bool} (hw : wrap (v.char attr c).x = true) :
    (v.put attr wrap c).x = 0 ∧
      (v.put attr wrap c).y = (if (if IsBreak c then v.y + 2 else v.y + 1) ≥ 25 then 24
        else (if IsBreak c then v.y + 2 else v.y + 1)) := by
  have hrow : ((v.char attr c).nextRow).y = (if IsBreak c then v.y + 2 else v.y + 1) := by
    by_cases hb : IsBreak c
    · rw [char_break hb, if_pos hb]
      show v.y + 1 + 1 = v.y + 2
      omega
    · rw [char_plain hb, if_neg hb]
      rfl
  unfold put
  simp only [hw, if_true]
  rw [← hrow]
  by_cases hs : ((v.char attr c).nextRow).y ≥ 25
  · rw [if_pos (show ((v.char attr c).nextRow).y ≥ ((numRows : Nat) : Int) from hs), if_pos hs]
    exact ⟨rfl, rfl⟩
  · rw [if_neg (show ¬ ((v.char attr c).nextRow).y ≥ ((numRows : Nat) : Int) from hs), if_neg hs]
    exact ⟨rfl, rfl⟩

theorem char_x : (v.char attr c).x = if IsBreak c then 0 else v.x + 1 := by
  by_cases hb : IsBreak c
  · rw [char_break hb, if_pos hb]; rfl
  · rw [char_plain hb, if_neg hb]

/-- Output never leaves the cursor off the screen's rows. -/
theorem put_rows {wrap : Int → Bool} (hy0 : 0 ≤ v.y) (hy : v.y < 25) :
    0 ≤ (v.put attr wrap c).y ∧ (v.put attr wrap c).y < 25 := by
  cases hw : wrap (v.char attr c).x with
  | false =>
      rw [(put_stay hy hw).2]
      split <;> [split; skip] <;> omega
  | true =>
      rw [(put_wrap hw).2]
      split <;> split at * <;> omega

/-- Nor its column more than one further. -/
theorem put_x {wrap : Int → Bool} (hx0 : 0 ≤ v.x) (hy : v.y < 25) :
    0 ≤ (v.put attr wrap c).x ∧ (v.put attr wrap c).x ≤ v.x + 1 := by
  cases hw : wrap (v.char attr c).x with
  | false =>
      rw [(put_stay hy hw).1]
      split <;> omega
  | true =>
      rw [(put_wrap hw).1]
      omega

end TermView

/-! ## The view of a machine -/

/-- Terminal `a`, whose page is `P`. -/
def viewOf (k : Kernel) (a : Term) (P : Nat) : TermView where
  x := k.screen.screenX a
  y := k.screen.screenY a
  cells := fun o => k.ram (P + o)

/-- Nothing changed but terminal `a`'s cursors and the page `P`. -/
structure Touches (a : Term) (P : Nat) (k k' : Kernel) : Prop where
  page : k'.page = k.page
  task : k'.task = k.task
  ram : ∀ i, i < P ∨ P + offset4K ≤ i → k'.ram i = k.ram i
  screenX : ∀ t, t ≠ a → k'.screen.screenX t = k.screen.screenX t
  screenY : ∀ t, t ≠ a → k'.screen.screenY t = k.screen.screenY t
  writeX : ∀ t, t ≠ a → k'.term.writeX t = k.term.writeX t
  writeY : ∀ t, t ≠ a → k'.term.writeY t = k.term.writeY t
  /-- The line editor's state is not output's. -/
  term : k'.term = { k.term with writeX := k'.term.writeX, writeY := k'.term.writeY }

namespace Touches

variable {a : Term} {P : Nat} {k k' k'' : Kernel}

theorem trans (h : Touches a P k k') (h' : Touches a P k' k'') : Touches a P k k'' where
  page := h'.page.trans h.page
  task := h'.task.trans h.task
  ram := fun i hi => (h'.ram i hi).trans (h.ram i hi)
  screenX := fun t ht => (h'.screenX t ht).trans (h.screenX t ht)
  screenY := fun t ht => (h'.screenY t ht).trans (h.screenY t ht)
  writeX := fun t ht => (h'.writeX t ht).trans (h.writeX t ht)
  writeY := fun t ht => (h'.writeY t ht).trans (h.writeY t ht)
  term := by rw [h'.term, h.term]

theorem mapped {L : Layout} {base Q : Nat} (h : Touches a P k k') (hm : Mapped L k base Q) :
    Mapped L k' base Q := hm.of_page h.page

/-- Memory that differs inside the page only. -/
theorem withRam {m : Mem} (h : ∀ i, i < P ∨ P + offset4K ≤ i → m i = k.ram i) :
    Touches a P k (withRam k m) :=
  ⟨rfl, rfl, h, fun _ _ => rfl, fun _ _ => rfl, fun _ _ => rfl, fun _ _ => rfl, rfl⟩

theorem setScreenX (a : Term) (P : Nat) (k : Kernel) (x : Int) : Touches a P k (k.setScreenX a x) :=
  ⟨rfl, rfl, fun _ _ => rfl, fun _ ht => Function.update_of_ne ht _ _, fun _ _ => rfl,
    fun _ _ => rfl, fun _ _ => rfl, rfl⟩

theorem setScreenY (a : Term) (P : Nat) (k : Kernel) (y : Int) : Touches a P k (k.setScreenY a y) :=
  ⟨rfl, rfl, fun _ _ => rfl, fun _ _ => rfl, fun _ ht => Function.update_of_ne ht _ _,
    fun _ _ => rfl, fun _ _ => rfl, rfl⟩

theorem setBiggestY (a : Term) (P : Nat) (k : Kernel) (y : Int) :
    Touches a P k (k.setBiggestY a y) :=
  ⟨rfl, rfl, fun _ _ => rfl, fun _ _ => rfl, fun _ _ => rfl, fun _ _ => rfl, fun _ _ => rfl, rfl⟩

theorem setWriteX (a : Term) (P : Nat) (k : Kernel) (x : Int) : Touches a P k (k.setWriteX a x) :=
  ⟨rfl, rfl, fun _ _ => rfl, fun _ _ => rfl, fun _ _ => rfl,
    fun _ ht => Function.update_of_ne ht _ _, fun _ _ => rfl, rfl⟩

theorem setWriteY (a : Term) (P : Nat) (k : Kernel) (y : Int) : Touches a P k (k.setWriteY a y) :=
  ⟨rfl, rfl, fun _ _ => rfl, fun _ _ => rfl, fun _ _ => rfl, fun _ _ => rfl,
    fun _ ht => Function.update_of_ne ht _ _, rfl⟩

end Touches

/-! ## The routines -/

section Routines

variable {L : Layout} {k : Kernel} {base P : Nat} {a : Term}

theorem nextRow_view (a : Term) (P : Nat) (k : Kernel) :
    viewOf (nextRow a k) a P = (viewOf k a P).nextRow ∧ Touches a P k (nextRow a k) := by
  constructor
  · ext
    · simp [viewOf, nextRow, TermView.nextRow, Kernel.setScreenX]
    · simp [viewOf, nextRow, TermView.nextRow, Kernel.setScreenX, Kernel.setBiggestY,
        Kernel.setScreenY]
    · rfl
  · exact ((Touches.setScreenY a P k _).trans (Touches.setBiggestY a P _ _)).trans
      (Touches.setScreenX a P _ _)

/-- The page after a cell has been put. -/
theorem cellPut_cells (P : Nat) (attr c : Byte) {x y : Int} (ho : 0 ≤ cellOff x y) (m : Mem) :
    (fun i : Fin 4096 => cellPut P attr (cellOff x y) c m (P + i))
      = (TermView.putCell attr c ⟨x, y, fun i => m (P + i)⟩).cells := by
  funext i
  unfold cellPut TermView.putCell
  generalize cellOff x y = o at *
  dsimp only
  have hlim : o < (offset4K : Int) - 1 ↔ o < 4095 := by
    simp only [offset4K]; omega
  by_cases hroom : o < 4095
  · rw [if_pos (hlim.mpr hroom)]
    by_cases h1 : (i : Int) = o + 1
    · rw [if_neg (by omega), if_pos ⟨hroom, h1⟩, show P + i.val = P + (o.toNat + 1) by omega,
        store_self]
    · rw [store_of_ne (by omega)]
      by_cases h0 : (i : Int) = o
      · rw [if_pos ⟨hroom, h0⟩, show P + i.val = P + o.toNat by omega, store_self]
      · rw [if_neg (fun h => h0 h.2), if_neg (fun h => h1 h.2), store_of_ne (by omega)]
  · rw [if_neg (fun h => hroom (hlim.mp h)), if_neg (fun h => hroom h.1),
      if_neg (fun h => hroom h.1)]

theorem cellPut_outside (P : Nat) (attr c : Byte) {o : Int} (ho : 0 ≤ o) (m : Mem) {i : Nat}
    (hi : i < P ∨ P + offset4K ≤ i) : cellPut P attr o c m i = m i := by
  unfold cellPut
  by_cases hroom : o < offset4K - 1
  · rw [if_pos hroom]
    simp only [offset4K] at hi hroom
    rw [store_of_ne (by omega), store_of_ne (by omega)]
  · rw [if_neg hroom]

/-- The cursor is on or beyond the screen, but not where an `int` would overflow. -/
structure CursorOk (k : Kernel) (a : Term) : Prop where
  x0 : 0 ≤ k.screen.screenX a
  x1 : k.screen.screenX a < 536870912
  y0 : 0 ≤ k.screen.screenY a
  y1 : k.screen.screenY a < 25

theorem CursorOk.off (h : CursorOk k a) :
    0 ≤ cellOff (k.screen.screenX a) (k.screen.screenY a) ∧
      cellOff (k.screen.screenX a) (k.screen.screenY a) < 2000000000 := by
  obtain ⟨h1, h2, h3, h4⟩ := h
  simp only [cellOff, numCols]
  omega

theorem putChar_view (h : Mapped L k base P) (hc : CursorOk k a) (c : Byte) :
    viewOf (putChar L base a c k) a P = (viewOf k a P).char (attribs a) c ∧
      Touches a P k (putChar L base a c k) := by
  unfold putChar TermView.char
  by_cases hnl : c = 0x0A ∨ c = 0x0D
  · rw [if_pos hnl, if_pos hnl]
    exact nextRow_view a P k
  · rw [if_neg hnl, if_neg hnl]
    dsimp only
    rw [putCell_mapped h (attribs a) c hc.x0 hc.y0 hc.off.2]
    constructor
    · ext1
      · simp [viewOf, Kernel.setScreenX, withRam]
      · rfl
      · exact cellPut_cells P (attribs a) c hc.off.1 k.ram
    · exact (Touches.withRam fun i hi => cellPut_outside P _ _ hc.off.1 k.ram hi).trans
        (Touches.setScreenX a P _ _)

/-- The page after a scroll. -/
theorem scrolled_cells (P : Nat) (attr : Byte) (m : Mem) :
    (fun i : Fin 4096 => scrolled P attr m (P + i))
      = TermView.scrollCells attr (fun i => m (P + i)) := by
  funext i
  unfold scrolled blanked shifted TermView.scrollCells
  by_cases h1 : i.val < 3840
  · rw [if_neg (by omega), if_pos (by omega), dif_pos h1, Nat.add_assoc]
  · rw [dif_neg h1]
    by_cases h2 : i.val < 4000
    · rw [if_pos (show P + 3840 ≤ P + i.val ∧ P + i.val < P + 3840 + 2 * 80 by omega), if_pos h2,
        Nat.add_sub_cancel_left]
    · rw [if_neg (by omega), if_neg (by omega), if_neg h2]

theorem scrolled_outside (P : Nat) (attr : Byte) (m : Mem) {i : Nat}
    (hi : i < P ∨ P + offset4K ≤ i) : scrolled P attr m i = m i := by
  unfold scrolled blanked shifted
  simp only [offset4K] at hi
  rw [if_neg (by omega), if_neg (by omega)]

/-- What `scroll` and `mt_scroll` have in common: the rows, the blank row and the cursor. -/
theorem scrollBody_view (h : Mapped L k base P) (a : Term) :
    viewOf ((blankRow L base (numRows - 1) (attribs a)
          (((scrollRows L base k).setBiggestY a (numRows - 1)).setScreenY a
            (numRows - 1))).setScreenX a 0) a P = (viewOf k a P).scroll (attribs a) ∧
      Touches a P k ((blankRow L base (numRows - 1) (attribs a)
          (((scrollRows L base k).setBiggestY a (numRows - 1)).setScreenY a
            (numRows - 1))).setScreenX a 0) := by
  rw [scrollRows_mapped h]
  have hm : Mapped L (((withRam k (shifted P 1920 k.ram)).setBiggestY a (numRows - 1)).setScreenY a
      (numRows - 1)) base P := h.of_page rfl
  rw [blankRow_mapped hm]
  constructor
  · ext1
    · simp [viewOf, Kernel.setScreenX, TermView.scroll]
    · simp [viewOf, Kernel.setScreenX, Kernel.setScreenY, withRam, TermView.scroll, numRows]
    · exact scrolled_cells P (attribs a) k.ram
  · refine ((?_ : Touches a P k (withRam (((withRam k (shifted P 1920 k.ram)).setBiggestY a
      (numRows - 1)).setScreenY a (numRows - 1)) (scrolled P (attribs a) k.ram))).trans
      (Touches.setScreenX a P _ _))
    exact ⟨rfl, rfl, fun i hi => scrolled_outside P (attribs a) k.ram hi, fun _ _ => rfl,
      fun _ ht => Function.update_of_ne ht _ _, fun _ _ => rfl, fun _ _ => rfl, rfl⟩

theorem viewOf_setWriteY (k : Kernel) (t : Term) (n : Int) (a : Term) (P : Nat) :
    viewOf (k.setWriteY t n) a P = viewOf k a P := rfl

theorem scroll_view (h : Mapped L k videoMem P) (ha : k.page.currentTerminal = a) :
    viewOf (scroll L k) a P = (viewOf k a P).scroll (attribs a) ∧ Touches a P k (scroll L k) := by
  obtain ⟨h1, h2⟩ := scrollBody_view h a
  unfold scroll
  dsimp only
  rw [ha, viewOf_setWriteY]
  exact ⟨h1, h2.trans (Touches.setWriteY a P _ _)⟩

theorem mtScroll_view (h : Mapped L k mapVideoMem P) (ha : k.task.currentActiveProcess = a)
    (hne : a ≠ k.page.currentTerminal) :
    viewOf (mtScroll L k) a P = (viewOf k a P).scroll (attribs a) ∧
      Touches a P k (mtScroll L k) := by
  unfold mtScroll
  dsimp only
  rw [ha, if_neg hne]
  exact scrollBody_view h a

/--
The second half of `putc` and of `mt_putc`: a new row if `wrap`, then a scroll if
the cursor has left the screen. `scr` is whichever of the two scrolls applies.
-/
theorem finish_view {k1 : Kernel} {w : TermView} (hv : viewOf k1 a P = w) (ht : Touches a P k k1)
    (wrap : Prop) [Decidable wrap] (scr : Kernel → Kernel)
    (hscr : ∀ k2, Touches a P k k2 →
      viewOf (scr k2) a P = (viewOf k2 a P).scroll (attribs a) ∧ Touches a P k2 (scr k2)) :
    viewOf (if (if wrap then nextRow a k1 else k1).screen.screenY a ≥ numRows then
          scr (if wrap then nextRow a k1 else k1) else if wrap then nextRow a k1 else k1) a P
        = (if (if wrap then w.nextRow else w).y ≥ numRows then
            (if wrap then w.nextRow else w).scroll (attribs a)
          else if wrap then w.nextRow else w) ∧
      Touches a P k (if (if wrap then nextRow a k1 else k1).screen.screenY a ≥ numRows then
          scr (if wrap then nextRow a k1 else k1) else if wrap then nextRow a k1 else k1) := by
  have hrow : viewOf (if wrap then nextRow a k1 else k1) a P = (if wrap then w.nextRow else w) ∧
      Touches a P k (if wrap then nextRow a k1 else k1) := by
    subst hv
    by_cases hw : wrap
    · rw [if_pos hw, if_pos hw]
      obtain ⟨hv, ht'⟩ := nextRow_view a P k1
      exact ⟨hv, ht.trans ht'⟩
    · rw [if_neg hw, if_neg hw]
      exact ⟨rfl, ht⟩
  obtain ⟨hv2, ht2⟩ := hrow
  generalize (if wrap then nextRow a k1 else k1) = k2 at hv2 ht2
  rw [← hv2]
  by_cases hs : k2.screen.screenY a ≥ numRows
  · rw [if_pos hs, if_pos (show (viewOf k2 a P).y ≥ numRows from hs)]
    obtain ⟨hv, ht'⟩ := hscr k2 ht2
    exact ⟨hv, ht2.trans ht'⟩
  · rw [if_neg hs, if_neg (show ¬ (viewOf k2 a P).y ≥ numRows from hs)]
    exact ⟨rfl, ht2⟩

/-- **`putc` on the foreground terminal.** -/
theorem putc_view (h : Mapped L k videoMem P) (ha : k.page.currentTerminal = a)
    (hc : CursorOk k a) (c : Byte) :
    viewOf (putc L c k) a P = (viewOf k a P).put (attribs a) (fun x => x ≥ numCols) c ∧
      Touches a P k (putc L c k) := by
  obtain ⟨hv, ht⟩ := putChar_view (a := a) h hc c
  have hx : ((viewOf k a P).char (attribs a) c).x
      = (putChar L videoMem a c k).screen.screenX a := by rw [← hv]; rfl
  have := finish_view hv ht ((putChar L videoMem a c k).screen.screenX a ≥ numCols) (scroll L)
    (fun k2 ht2 => scroll_view (ht2.mapped h) (by rw [ht2.page, ha]))
  unfold putc TermView.put
  dsimp only
  simp only [ha, hx, decide_eq_true_eq]
  exact this

/-- **`mt_putc` on a background terminal**: the wrap is decided by the foreground's column. -/
theorem mtPutc_view (h : Mapped L k mapVideoMem P) (ha : k.task.currentActiveProcess = a)
    (hne : a ≠ k.page.currentTerminal) (hc : CursorOk k a) (c : Byte) :
    viewOf (mtPutc L c k) a P = (viewOf k a P).put (attribs a)
        (fun _ => k.screen.screenX k.page.currentTerminal ≥ numCols) c ∧
      Touches a P k (mtPutc L c k) := by
  obtain ⟨hv, ht⟩ := putChar_view (a := a) h hc c
  have hfg : (putChar L mapVideoMem a c k).screen.screenX
      (putChar L mapVideoMem a c k).page.currentTerminal
      = k.screen.screenX k.page.currentTerminal := by
    rw [ht.page]
    exact ht.screenX _ (Ne.symm hne)
  have := finish_view hv ht (k.screen.screenX k.page.currentTerminal ≥ numCols) (mtScroll L)
    (fun k2 ht2 => mtScroll_view (ht2.mapped h) (by rw [ht2.task, ha])
      (by rw [ht2.page]; exact hne))
  unfold mtPutc TermView.put
  dsimp only
  simp only [ha, if_neg hne, hfg, decide_eq_true_eq]
  exact this

end Routines

end Zbiggie.Proof
