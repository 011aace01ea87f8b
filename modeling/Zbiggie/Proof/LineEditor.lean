import Zbiggie.Machine.Zipper
import Zbiggie.Proof.Editing
import Zbiggie.Proof.Execute

/-!
# The line editor against a zipper

The line being typed is an array, a size and a position, and a character typed in the
middle shifts the rest of the array up by one. The reference is a `Zipper`: the same
text in two pieces. `Edits` says that the array holds the text of a zipper and the
counters its length and cursor, and each operation of the editor keeps it, the text of
the array behind the size being of no concern to anyone.

Moving left has a guard that looks at the screen. It is an input of the reference here;
what it comes to is the subject of `Proof/EditedScreen`.
-/

namespace Zbiggie.Proof

open Zbiggie Machine

/-! ## The simulation -/

/-- A line: at most 127 bytes, and room for the newline. -/
abbrev Line := Zipper Byte 127

/-- What the user does to it. -/
inductive Edit where
  | char (c : Byte)
  | left
  | right

/-- A character that is not Enter or Backspace. -/
def Edit.Plain : Edit → Prop
  | .char c => c ≠ 0x0A ∧ c ≠ 0x0D ∧ c ≠ 0x08
  | .left => True
  | .right => True

/-- What the terminal does with it. -/
def termEdit (L : Layout) (k : Kernel) : Edit → Kernel
  | .char c => termPutc L c k
  | .left => termMoveLeft k
  | .right => termMoveRight k

/-- What the reference does with it, `admits` being the answer of the guard on moving left. -/
def lineEdit (admits : Bool) (z : Line) : Edit → Line
  | .char c => z.insert c
  | .left => if admits then z.left else z
  | .right => z.right

/-- Both, one event after the other; the guard is asked on the machine. -/
def editBoth (L : Layout) (s : Kernel × Line) (es : List Edit) : Kernel × Line :=
  es.foldl (fun s e => (termEdit L s.1 e,
    lineEdit (decide (pastWrite s.1 s.1.page.currentTerminal)) s.2 e)) s

theorem editBoth_cons (L : Layout) (k : Kernel) (z : Line) (e : Edit) (es : List Edit) :
    editBoth L (k, z) (e :: es) = editBoth L (termEdit L k e,
      lineEdit (decide (pastWrite k k.page.currentTerminal)) z e) es := rfl

/-- The line of terminal `t` is the text of `z`, and its counters say so. -/
structure Edits (k : Kernel) (t : Term) (z : Line) : Prop where
  pos : k.term.curPos t = z.cursor
  size : k.term.curSize t = z.text.length
  bytes : ∀ i, i < z.text.length → k.line t i = z.text.getD i 0

/-- The line is `w`, with the position behind it. -/
structure LineIs (k : Kernel) (t : Term) (w : List Byte) : Prop where
  curPos : k.term.curPos t = w.length
  curSize : k.term.curSize t = w.length
  bytes : ∀ j : Nat, j < w.length → k.line t j = w.getD j 0

/-- The display stays with a terminal through every edit. -/
theorem termEdit_page (L : Layout) (k : Kernel) (e : Edit) : (termEdit L k e).page = k.page := by
  have hframe : EditFrame fun k k' => k'.page = k.page :=
    { refl := fun _ => rfl
      trans := fun h h' => h'.trans h
      setLine := fun _ _ _ _ => rfl
      setCurPos := fun _ _ _ => rfl
      setCurSize := fun _ _ _ => rfl
      setPrevSize := fun _ _ _ => rfl
      setWaitForNl := fun _ _ _ => rfl
      setWrite := fun _ _ _ _ => rfl
      histUp := fun t k => (browsed_histUp t k).unedited.page
      histDown := fun _ _ => rfl
      shows := fun h => h.page }
  cases e with
  | char c => exact hframe.termPutc c k
  | left => exact hframe.termMoveLeft k
  | right => exact hframe.termMoveRight k

section Simulation

variable {L : Layout} {k : Kernel} {t : Term} {z : Line}

/-- A character the line has no room for is dropped, and so it is by the reference. -/
theorem termPutc_plain {c : Byte} (hc : (Edit.char c).Plain) (k : Kernel) :
    termPutc L c k = if k.term.curPos k.page.currentTerminal < bufSize - 1 ∧
      k.term.curSize k.page.currentTerminal < bufSize - 1 then termInsert L c k else k := by
  obtain ⟨h1, h2, h3⟩ := hc
  unfold termPutc
  dsimp only
  rw [if_neg (not_or.mpr ⟨h1, h2⟩), if_neg h3]

theorem edits_insert (h : Edits k t z) (hcur : k.page.currentTerminal = t) {c : Byte}
    (hc : (Edit.char c).Plain) : Edits (termPutc L c k) t (z.insert c) := by
  have hle := z.cursor_le
  have hsize : (bufSize : Int) - 1 = 127 := rfl
  rw [termPutc_plain hc, hcur, h.pos, h.size, hsize]
  by_cases hroom : z.text.length < 127
  · rw [if_pos (by omega)]
    have hins := termInsert_spec (L := L) c k hcur
    refine ⟨?_, ?_, ?_⟩
    · rw [hins.curPos, Function.update_self, h.pos, Zipper.insert_cursor hroom]
      rfl
    · rw [hins.curSize, Function.update_self, h.size, Zipper.insert_length hroom]
      rfl
    · intro i hi
      rw [Zipper.insert_length hroom] at hi
      rw [hins.line, h.pos, h.size, Zipper.insert_getD hroom]
      rcases Nat.lt_trichotomy i z.cursor with hlt | heq | hgt
      · rw [if_neg (by omega), if_neg (by omega), if_pos hlt, h.bytes i (by omega)]
      · rw [if_pos (by omega), if_neg (by omega), if_pos heq]
      · rw [if_neg (by omega), if_pos (by omega), if_neg (by omega), if_neg (by omega),
          ← h.bytes (i - 1) (by omega), show ((i - 1 : Nat) : Int) = (i : Int) - 1 by omega]
  · rw [if_neg (by omega), Zipper.insert_full (by omega)]
    exact h

/-- The same text, and another cursor. -/
theorem Edits.move {k' : Kernel} {z' : Line} (h : Edits k t z)
    (hb : k'.term.buffer = k.term.buffer) (hs : k'.term.curSize = k.term.curSize)
    (ht : z'.text = z.text) (hp : k'.term.curPos t = z'.cursor) : Edits k' t z' := by
  refine ⟨hp, ?_, ?_⟩
  · rw [ht, hs]
    exact h.size
  · intro i hi
    rw [ht] at hi ⊢
    exact (congrFun hb _).trans (h.bytes i hi)

theorem edits_left (h : Edits k t z) (hcur : k.page.currentTerminal = t) :
    Edits (termMoveLeft k) t (lineEdit (decide (pastWrite k k.page.currentTerminal)) z .left) := by
  have hmove := termMoveLeft_spec k hcur
  have hp : (termMoveLeft k).term.curPos t = leftPos k t := by
    rw [hmove.curPos, Function.update_self]
  unfold leftPos at hp
  unfold lineEdit
  dsimp only
  rw [hcur]
  by_cases hguard : pastWrite k t
  · rw [decide_eq_true hguard, if_pos rfl]
    refine h.move hmove.buffer hmove.curSize z.left_text ?_
    rw [hp, Zipper.left_cursor, h.pos]
    by_cases hpos : (z.cursor : Int) > 0
    · rw [if_pos ⟨hpos, hguard⟩]
      omega
    · rw [if_neg fun hc => hpos hc.1]
      omega
  · rw [decide_eq_false hguard, if_neg (by decide)]
    refine h.move hmove.buffer hmove.curSize rfl ?_
    rw [hp, if_neg fun hc => hguard hc.2]
    exact h.pos

theorem edits_right (h : Edits k t z) (hcur : k.page.currentTerminal = t) :
    Edits (termMoveRight k) t z.right := by
  have hmove := termMoveRight_spec k hcur
  have hle := z.cursor_le
  have hmin : Nat.min (z.cursor + 1) z.text.length = Min.min (z.cursor + 1) z.text.length := rfl
  refine h.move hmove.buffer hmove.curSize z.right_text ?_
  rw [hmove.curPos, Function.update_self, Zipper.right_cursor, hmin]
  unfold rightPos
  rw [h.pos, h.size]
  by_cases hend : z.cursor < z.text.length
  · rw [if_pos (by omega)]
    omega
  · rw [if_neg (by omega)]
    omega

/-- **One event** takes the array where it takes the zipper. -/
theorem edits_step (h : Edits k t z) (hcur : k.page.currentTerminal = t) {e : Edit} (he : e.Plain) :
    Edits (termEdit L k e) t (lineEdit (decide (pastWrite k k.page.currentTerminal)) z e) := by
  cases e with
  | char c => exact edits_insert h hcur he
  | left => exact edits_left h hcur
  | right => exact edits_right h hcur

/-- **Any sequence of them.** -/
theorem edits_run (es : List Edit) : ∀ {k : Kernel} {z : Line}, Edits k t z →
    k.page.currentTerminal = t → (∀ e ∈ es, e.Plain) →
    Edits (editBoth L (k, z) es).1 t (editBoth L (k, z) es).2 ∧
      (editBoth L (k, z) es).1.page.currentTerminal = t := by
  induction es with
  | nil => intro k z h hcur _; exact ⟨h, hcur⟩
  | cons e es ih =>
      intro k z h hcur hes
      rw [editBoth_cons]
      refine ih (edits_step h hcur (hes e List.mem_cons_self)) ?_
        (fun e' he' => hes e' (List.mem_cons_of_mem e he'))
      rw [termEdit_page]
      exact hcur

/-- Enter closes the line behind its text. -/
theorem edits_enter (h : Edits k t z) (hcur : k.page.currentTerminal = t) :
    (∀ i, i < z.text.length → (termEnter k).line t i = z.text.getD i 0) ∧
      (termEnter k).line t z.text.length = 0x0A := by
  have hline := termEnter_line k
  rw [hcur, h.size] at hline
  refine ⟨?_, ?_⟩
  · intro i hi
    rw [hline, if_neg (by omega)]
    exact h.bytes i hi
  · rw [hline, if_pos rfl]

end Simulation

/--
**The line editor is a zipper.** From an empty line on the terminal on display, after
any sequence of characters and arrow keys, the buffer and its counters are the text and
the cursor of the reference; and Enter leaves the whole text with a newline behind it,
inside the buffer.
-/
theorem line_editor_is_zipper (L : Layout) {k : Kernel}
    (hpos : k.term.curPos k.page.currentTerminal = 0)
    (hsize : k.term.curSize k.page.currentTerminal = 0) {es : List Edit}
    (hes : ∀ e ∈ es, e.Plain) :
    let r := editBoth L (k, .empty) es
    Edits r.1 k.page.currentTerminal r.2 ∧
      (∀ i, i < r.2.text.length →
        (termPutc L 0x0A r.1).line k.page.currentTerminal i = r.2.text.getD i 0) ∧
      (termPutc L 0x0A r.1).line k.page.currentTerminal r.2.text.length = 0x0A ∧
      r.2.text.length ≤ 127 := by
  intro r
  have hempty : Edits k k.page.currentTerminal .empty :=
    ⟨hpos, hsize, fun i hi => absurd hi (Nat.not_lt_zero i)⟩
  obtain ⟨hedits, hcur⟩ := edits_run (L := L) es hempty rfl hes
  have henter : termPutc L 0x0A r.1 = termEnter r.1 := rfl
  obtain ⟨hbytes, hnl⟩ := edits_enter hedits hcur
  rw [henter]
  exact ⟨hedits, hbytes, hnl, r.2.text_length_le⟩

/-- On a fresh machine: "ac", left, and "b" between them. -/
theorem line_editor_abc :
    let r := editBoth someLayout (Kernel.zero, .empty) [.char 0x61, .char 0x63, .left, .char 0x62]
    Edits r.1 0 r.2 ∧ r.2.text.length ≤ 127 := by
  have hes : ∀ e ∈ [Edit.char 0x61, .char 0x63, .left, .char 0x62], e.Plain := by
    intro e he
    simp only [List.mem_cons, List.not_mem_nil, or_false] at he
    rcases he with rfl | rfl | rfl | rfl
    · exact ⟨by decide, by decide, by decide⟩
    · exact ⟨by decide, by decide, by decide⟩
    · trivial
    · exact ⟨by decide, by decide, by decide⟩
  have h := line_editor_is_zipper someLayout (k := Kernel.zero) rfl rfl hes
  exact ⟨h.1, h.2.2.2⟩

end Zbiggie.Proof
