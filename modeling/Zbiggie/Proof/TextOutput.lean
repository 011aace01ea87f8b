import Mathlib.Data.List.GetD
import Zbiggie.Machine.TextRows
import Zbiggie.Proof.Background

/-!
# Text on a cleared screen

`putc` works cell by cell: it wraps when a row is full and scrolls when the screen is. What it
comes to is the text laid out as a whole, of which the screen shows the last 25 rows. `LaidAt`
says so of a view, for any number of rows that have gone off the top, and one character takes
a view laid out for a text to one laid out for one character more.
-/

namespace Zbiggie.Proof

open Zbiggie Machine

/-- The rows of a text. -/
def rowsOf (s : List Byte) : List (List Byte) := textRows (fun c => decide (IsBreak c)) 80 s

/-- What an unused cell of a row holds: the rows of the cleared screen come first. -/
def blankOf (row : Nat) : Byte := if row < 25 then 0x20 else 0

/-- Byte `i` of the page while `d` rows are gone off the top. -/
def pageByte (attr : Byte) (rows : List (List Byte)) (d i : Nat) : Byte :=
  if i % 2 = 1 then attr
  else (rows.getD (i / 160 + d) []).getD (i % 160 / 2) (blankOf (i / 160 + d))

/-- The rows `rs` and `r` on the page, `d` of them gone, and the cursor behind `r`. -/
structure LaidAt (attr : Byte) (rs : List (List Byte)) (r : List Byte) (d : Nat) (v : TermView) :
    Prop where
  x : v.x = r.length
  y : v.y = rs.length - d
  gone : d ≤ rs.length
  cells : ∀ i : Fin 4096, i.val < 4000 → v.cells i = pageByte attr (rs ++ [r]) d i

section Pages

variable {attr : Byte} {rs : List (List Byte)} {r : List Byte} {d : Nat} {v : TermView}

/-- A row that is empty is none. -/
theorem pageByte_nil (attr : Byte) (rows : List (List Byte)) (d i : Nat) :
    pageByte attr (rows ++ [[]]) d i = pageByte attr rows d i := by
  have hrow : ∀ n, (rows ++ [[]]).getD n [] = rows.getD n [] := by
    intro n
    by_cases hn : n < rows.length
    · exact List.getD_append _ _ _ _ hn
    · rw [List.getD_append_right _ _ _ _ (by omega), List.getD_eq_default rows _ (by omega)]
      rcases n - rows.length with _ | m <;> rfl
  unfold pageByte
  rw [hrow]

/-- One more character in the last row. -/
theorem pageByte_char (attr c : Byte) (rs : List (List Byte)) {r : List Byte} (hr : r.length < 80)
    {d : Nat} (hd : d ≤ rs.length) (i : Nat) : pageByte attr (rs ++ [r ++ [c]]) d i
      = if i = 2 * (80 * (rs.length - d) + r.length) then c else pageByte attr (rs ++ [r]) d i := by
  unfold pageByte
  by_cases hodd : i % 2 = 1
  · rw [if_pos hodd, if_neg (by omega), if_pos hodd]
  · rw [if_neg hodd, if_neg hodd]
    rcases Nat.lt_trichotomy (i / 160 + d) rs.length with hlt | heq | hgt
    · rw [List.getD_append _ _ _ _ hlt, List.getD_append _ _ _ _ hlt, if_neg (by omega)]
    · have hlast : ∀ q : List Byte, (rs ++ [q]).getD (i / 160 + d) [] = q := by
        intro q
        rw [heq, List.getD_append_right _ _ _ _ (Nat.le_refl _), Nat.sub_self]
        rfl
      rw [hlast, hlast]
      rcases Nat.lt_trichotomy (i % 160 / 2) r.length with hbefore | hat | hafter
      · rw [List.getD_append _ _ _ _ hbefore, if_neg (by omega)]
      · rw [hat, List.getD_append_right _ _ _ _ (Nat.le_refl _), Nat.sub_self, if_pos (by omega)]
        rfl
      · rw [List.getD_eq_default (r ++ [c]) _ (by simp; omega), List.getD_eq_default r _ (by omega),
          if_neg (by omega)]
    · have hbehind : ∀ q : List Byte, (rs ++ [q]).getD (i / 160 + d) [] = [] := by
        intro q
        refine List.getD_eq_default _ _ ?_
        rw [List.length_append, List.length_singleton]
        omega
      rw [hbehind, hbehind, if_neg (by omega)]

theorem LaidAt.nextRow (h : LaidAt attr rs r d v) : LaidAt attr (rs ++ [r]) [] d v.nextRow := by
  have hgone := h.gone
  refine ⟨rfl, ?_, by rw [List.length_append, List.length_singleton]; omega, ?_⟩
  · show v.y + 1 = _
    rw [h.y, List.length_append, List.length_singleton]
    omega
  · intro i hi
    rw [pageByte_nil]
    exact h.cells i hi

/-- A character at the cursor. -/
theorem LaidAt.char (h : LaidAt attr rs r d v) (hr : r.length < 80) (hy : v.y < 25) (c : Byte) :
    LaidAt attr rs (r ++ [c]) d { v.putCell attr c with x := v.x + 1 } := by
  have hcell : cellOff v.x v.y = 2 * (80 * (rs.length - d : Nat) + r.length) := by
    have hgone := h.gone
    rw [h.x, h.y]
    simp only [cellOff, numCols]
    omega
  have hsmall : cellOff v.x v.y < 4095 := by
    have hy' := h.y
    have hgone := h.gone
    omega
  refine ⟨?_, h.y, h.gone, ?_⟩
  · rw [List.length_append, List.length_singleton]
    show v.x + 1 = _
    rw [h.x]
    rfl
  · intro i hi
    rw [pageByte_char attr c rs hr h.gone]
    unfold TermView.putCell
    dsimp only
    simp only [hsmall, true_and]
    by_cases h0 : (i : Int) = cellOff v.x v.y
    · rw [if_pos h0, if_pos (by omega)]
    · rw [if_neg h0, if_neg (show ¬ i.val = _ by omega)]
      by_cases h1 : (i : Int) = cellOff v.x v.y + 1
      · rw [if_pos h1]
        unfold pageByte
        rw [if_pos (by omega)]
      · rw [if_neg h1]
        exact h.cells i hi

/-- The row that comes in at the bottom is empty. -/
theorem LaidAt.scroll (h : LaidAt attr rs [] d v) (hy : v.y = 25) :
    LaidAt attr rs [] (d + 1) (v.scroll attr) := by
  have hgone := h.gone
  have hrows := h.y
  refine ⟨rfl, ?_, by omega, ?_⟩
  · show (24 : Int) = _
    omega
  · intro i hi
    unfold TermView.scroll TermView.scrollCells
    dsimp only
    by_cases hup : i.val < 3840
    · rw [dif_pos hup, h.cells _ (by dsimp only; omega)]
      unfold pageByte
      dsimp only
      rw [show (i.val + 160) % 2 = i.val % 2 by omega,
        show (i.val + 160) / 160 + d = i.val / 160 + (d + 1) by omega,
        show (i.val + 160) % 160 = i.val % 160 by omega]
    · rw [dif_neg hup, if_pos hi, pageByte_nil]
      unfold pageByte blankOf
      rw [List.getD_eq_default rs _ (by omega), List.getD_nil, if_neg (show ¬ _ < 25 by omega)]
      by_cases heven : i.val % 2 = 0
      · rw [if_pos heven, if_neg (by omega)]
      · rw [if_neg heven, if_pos (by omega)]

/-- A view laid out for rows of which the screen shows the last 25. -/
def LaidOut (attr : Byte) (rows : List (List Byte)) (v : TermView) : Prop :=
  ∃ rs r, rows = rs ++ [r] ∧ LaidAt attr rs r (rows.length - 25) v

/-- A new row, and a scroll if the screen has no room for it. -/
theorem LaidAt.settle (h : LaidAt attr rs r (rs.length + 1 - 25) v) :
    LaidOut attr (rs ++ [r, []])
      (if v.nextRow.y ≥ numRows then v.nextRow.scroll attr else v.nextRow) := by
  have hnext := h.nextRow
  have hy : v.nextRow.y = v.y + 1 := rfl
  have hyrows := h.y
  have hlen : (rs ++ [r, []]).length = rs.length + 2 := by simp
  refine ⟨rs ++ [r], [], by simp, ?_⟩
  rw [hlen]
  by_cases hs : v.nextRow.y ≥ numRows
  · rw [if_pos hs]
    simp only [numRows] at hs
    have hscrolled := hnext.scroll (by omega)
    rwa [show rs.length + 1 - 25 + 1 = rs.length + 2 - 25 by omega] at hscrolled
  · rw [if_neg hs]
    simp only [numRows] at hs
    rwa [show rs.length + 1 - 25 = rs.length + 2 - 25 by omega] at hnext

end Pages

/-! ## One character more -/

/-- `putc`'s test for a full row. -/
def fullRow (x : Int) : Bool := x ≥ numCols

theorem fullRow_iff {x : Int} : fullRow x = true ↔ 80 ≤ x := decide_eq_true_iff

section Characters

variable {attr : Byte} {v : TermView} {s : List Byte}

theorem LaidAt.row_lt {rs : List (List Byte)} {r : List Byte}
    (h : LaidAt attr rs r (rs.length + 1 - 25) v) : v.y < 25 := by
  have hy := h.y
  have hgone := h.gone
  omega

/-- **One character**, on the view and in the layout. -/
theorem laidOut_put (h : LaidOut attr (rowsOf s) v) (c : Byte) :
    LaidOut attr (rowsOf (s ++ [c])) (v.put attr fullRow c) := by
  obtain ⟨rs, r, hrows, hr, hnext⟩ := textRows_snoc (fun c => decide (IsBreak c))
    (show 0 < 80 by decide) c s
  obtain ⟨rs', r', hrows', hlaid⟩ := h
  obtain ⟨rfl, hlast⟩ := List.append_inj' (hrows.symm.trans hrows') rfl
  obtain rfl : r = r' := by simpa using hlast
  rw [hrows', List.length_append, List.length_singleton] at hlaid
  have hy := hlaid.row_lt
  unfold rowsOf
  rw [hnext]
  unfold TermView.put
  dsimp only
  by_cases hc : IsBreak c
  · have hstart : ¬ fullRow v.nextRow.x = true := show ¬ fullRow 0 = true by decide
    rw [if_pos (decide_eq_true hc), TermView.char_break hc, if_neg hstart]
    exact hlaid.settle
  · rw [if_neg (by rw [decide_eq_true_eq]; exact hc), TermView.char_plain hc]
    have hput := hlaid.char hr hy c
    have hlen : (r ++ [c]).length = r.length + 1 := by
      rw [List.length_append, List.length_singleton]
    generalize ({ TermView.putCell attr c v with x := v.x + 1 } : TermView) = w at hput ⊢
    have hx := hput.x
    have hwy := hput.row_lt
    by_cases hfull : r.length + 1 = 80
    · rw [fillRows_full (by decide) (hlen.trans hfull), if_pos (fullRow_iff.mpr (by omega))]
      exact hput.settle
    · rw [fillRows_short (by omega), if_neg (fun h => absurd (fullRow_iff.mp h) (by omega)),
        if_neg (show ¬ w.y ≥ (numRows : Int) by simp only [numRows]; omega)]
      exact ⟨rs, r ++ [c], rfl, by rwa [List.length_append, List.length_singleton]⟩

end Characters

/-! ## A whole text -/

section Text

variable {L : Layout} {k : Kernel} {t : Term}

/-- The bytes of a cleared screen. -/
def clearedTo (P n : Nat) (attr : Byte) (m : Mem) : Mem := fun a =>
  if P ≤ a ∧ a < P + 2 * n then (if (a - P) % 2 = 1 then attr else 0x20) else m a

/-- **The loop of `clear`.** -/
theorem clearLoop_mapped {P : Nat} (h : Mapped L k videoMem P) (attr : Byte) :
    forLoop (numRows * numCols) (fun i k =>
      kstore L (kstore L k (BitVec.ofNat 32 (videoMem + 2 * i)) 0x20)
        (BitVec.ofNat 32 (videoMem + 2 * i + 1)) attr) k
      = withRam k (clearedTo P 2000 attr k.ram) := by
  refine forLoop_inv (P := fun n (k' : Kernel) => k' = withRam k (clearedTo P n attr k.ram)) ?_
    (numRows * numCols) ?_
  · have h0 : clearedTo P 0 attr k.ram = k.ram := by
      funext a
      unfold clearedTo
      rw [if_neg (by omega)]
    rw [h0, withRam_self]
  · intro n k' hn hk'
    have hn' : n < 2000 := hn
    have hm : Mapped L k' videoMem P := by
      rw [hk']
      exact h.of_page rfl
    rw [Nat.add_assoc, hm.kstore_pair (by simp only [offset4K]; omega), hk', withRam_ram,
      withRam_withRam]
    congr 1
    funext a
    by_cases ha1 : a = P + (2 * n + 1)
    · rw [ha1, store_self]
      unfold clearedTo
      rw [if_pos (by omega), if_pos (by omega)]
    · rw [store_of_ne ha1]
      by_cases ha0 : a = P + 2 * n
      · rw [ha0, store_self]
        unfold clearedTo
        rw [if_pos (by omega), if_neg (by omega)]
      · rw [store_of_ne ha0]
        unfold clearedTo
        by_cases hin : P ≤ a ∧ a < P + 2 * n
        · have hin' : P ≤ a ∧ a < P + 2 * (n + 1) := by omega
          rw [if_pos hin, if_pos hin']
        · rw [if_neg hin, if_neg (by omega)]

theorem rowsOf_nil : rowsOf [] = [[]] := by
  unfold rowsOf textRows
  rw [List.splitOnP_nil, List.flatMap_singleton, fillRows_short (by decide)]

/-- A cleared screen is laid out for no text. -/
theorem clear_laidOut (h : Mapped L k videoMem offsetVideo) (hcur : k.page.currentTerminal = t) :
    LaidOut (attribs t) (rowsOf []) (viewOf (clear L k) t offsetVideo) ∧
      Touches t offsetVideo k (clear L k) := by
  subst hcur
  unfold clear
  dsimp only
  rw [clearLoop_mapped h]
  refine ⟨⟨[], [], rowsOf_nil, ?_, ?_, ?_, ?_⟩, ?_⟩
  · exact Function.update_self ..
  · rw [rowsOf_nil]
    exact Function.update_self ..
  · rw [rowsOf_nil]
    exact Nat.le_refl 0
  · intro i hi
    show clearedTo offsetVideo 2000 _ k.ram (offsetVideo + i.val) = _
    rw [pageByte_nil, rowsOf_nil]
    unfold clearedTo pageByte blankOf
    rw [if_pos (by omega), Nat.add_sub_cancel_left, List.getD_nil, List.getD_nil,
      List.length_singleton, if_pos (show i.val / 160 + (1 - 25) < 25 by omega)]
  · refine (Touches.withRam ?_).trans (((Touches.setBiggestY _ _ _ 0).trans
      (Touches.setScreenY _ _ _ 0)).trans (Touches.setScreenX _ _ _ 0))
    intro a ha
    unfold clearedTo
    simp only [offset4K] at ha
    rw [if_neg (by omega)]

theorem LaidOut.cursorOk {P : Nat} {s : List Byte}
    (h : LaidOut (attribs t) (rowsOf s) (viewOf k t P)) :
    CursorOk k t := by
  obtain ⟨rs, r, hrows, hat⟩ := h
  -- the last row is short, whatever comes next
  obtain ⟨rs', r', hrows', hr, -⟩ := textRows_snoc (fun c => decide (IsBreak c))
    (show 0 < 80 by decide) (0 : Byte) s
  obtain ⟨rfl, hlast⟩ := List.append_inj' (hrows'.symm.trans hrows) rfl
  obtain rfl : r' = r := by simpa using hlast
  rw [hrows, List.length_append, List.length_singleton] at hat
  have hx : k.screen.screenX t = r'.length := hat.x
  have hy : k.screen.screenY t = rs'.length - (rs'.length + 1 - 25 : Nat) := hat.y
  have hgone := hat.gone
  exact ⟨by omega, by omega, by omega, hat.row_lt⟩

/-- **A text**, from a screen that is laid out. -/
theorem laidOut_text (h : Mapped L k videoMem offsetVideo) (hcur : k.page.currentTerminal = t)
    {s : List Byte} (hlaid : LaidOut (attribs t) (rowsOf s) (viewOf k t offsetVideo))
    (more : List Byte) :
    LaidOut (attribs t) (rowsOf (s ++ more))
      (viewOf (more.foldl (fun k c => putc L c k) k) t offsetVideo) := by
  induction more generalizing k s with
  | nil =>
      rw [List.append_nil]
      exact hlaid
  | cons c more ih =>
      obtain ⟨hview, htouch⟩ := putc_view h hcur hlaid.cursorOk c
      have hput : LaidOut (attribs t) (rowsOf (s ++ [c])) (viewOf (putc L c k) t offsetVideo) := by
        rw [hview]
        exact laidOut_put hlaid c
      have hrest := ih (htouch.mapped h) (by rw [htouch.page]; exact hcur) hput
      rw [List.append_assoc] at hrest
      exact hrest

/-- The rows of a text that are on the screen. -/
def shownRows (s : List Byte) : List (List Byte) := (rowsOf s).drop ((rowsOf s).length - 25)

/--
The screen of `t` shows the last rows of `s`, with the cursor behind the text. A cell that is
not used is a space in the rows of the cleared screen, and NUL in those that came in later.
-/
structure ShowsText (k : Kernel) (t : Term) (s : List Byte) : Prop where
  char : ∀ x y : Nat, x < 80 → y < 25 → k.ram (offsetVideo + 2 * (80 * y + x))
    = ((shownRows s).getD y []).getD x (blankOf (y + ((rowsOf s).length - 25)))
  attr : ∀ x y : Nat, x < 80 → y < 25 → k.ram (offsetVideo + (2 * (80 * y + x) + 1)) = attribs t
  screenX : k.screen.screenX t = ((shownRows s).getLastD []).length
  screenY : k.screen.screenY t = (shownRows s).length - 1

theorem LaidOut.showsText {s : List Byte}
    (h : LaidOut (attribs t) (rowsOf s) (viewOf k t offsetVideo)) :
    ShowsText k t s := by
  obtain ⟨rs, r, hrows, hat⟩ := h
  have hlen : (rowsOf s).length = rs.length + 1 := by
    rw [hrows, List.length_append, List.length_singleton]
  have hdrop : shownRows s = rs.drop ((rowsOf s).length - 25) ++ [r] := by
    unfold shownRows
    rw [hrows, List.drop_append_of_le_length (by rw [← hrows]; exact hat.gone)]
  have hcell : ∀ i, i < 4000 → k.ram (offsetVideo + i)
      = pageByte (attribs t) (rowsOf s) ((rowsOf s).length - 25) i := by
    intro i hi
    have hbyte := hat.cells ⟨i, by omega⟩ hi
    rw [← hrows] at hbyte
    exact hbyte
  refine ⟨?_, ?_, ?_, ?_⟩
  · intro x y hx hy
    have hrow : (shownRows s).getD y [] = (rowsOf s).getD (y + ((rowsOf s).length - 25)) [] := by
      unfold shownRows
      rw [List.getD_eq_getElem?_getD, List.getD_eq_getElem?_getD, List.getElem?_drop, Nat.add_comm]
    rw [hcell _ (by omega), hrow]
    unfold pageByte
    rw [if_neg (by omega), show 2 * (80 * y + x) / 160 = y by omega,
      show 2 * (80 * y + x) % 160 / 2 = x by omega]
  · intro x y hx hy
    rw [hcell _ (by omega)]
    unfold pageByte
    rw [if_pos (by omega)]
  · rw [hdrop, List.getLastD_concat]
    exact hat.x
  · rw [hdrop, List.length_append, List.length_singleton, List.length_drop]
    have hy : k.screen.screenY t = rs.length - ((rowsOf s).length - 25 : Nat) := hat.y
    have hgone := hat.gone
    omega

end Text

/--
**Text output.** Whatever the text, a screen that is cleared and given its characters one by
one shows the last 25 rows of it, laid out as a whole.
-/
theorem text_output_layout {L : Layout} {k : Kernel} {t : Term}
    (h : Mapped L k videoMem offsetVideo) (hcur : k.page.currentTerminal = t) (s : List Byte) :
    ShowsText (s.foldl (fun k c => putc L c k) (clear L k)) t s := by
  obtain ⟨hclear, htouch⟩ := clear_laidOut h hcur
  exact (laidOut_text (htouch.mapped h) (by rw [htouch.page]; exact hcur) hclear s).showsText

/-- "a", a line break and "b". -/
theorem text_output_lines :
    ShowsText ([0x61, 0x0A, 0x62].foldl (fun k c => putc someLayout c k)
      (clear someLayout (emptyFront someLayout 0 0 0))) 0 [0x61, 0x0A, 0x62] :=
  text_output_layout (twin_empty someLayout 0 0 0 (by decide) (by decide)).front rfl _

end Zbiggie.Proof
