import Zbiggie.Proof.ProcStep
import Zbiggie.Proof.TermView

/-!
# Background output against foreground output

`mt_putc` is a second copy of `putc` with every index renamed, but for one: the
column it tests for the line wrap is that of the terminal on display. So a
background terminal wraps when the *other* terminal's cursor stands past the last
column, and not when its own does.

The two write the same as long as the two tests agree. While the displayed cursor
is on the screen that means: no character of the string is put in the last
column. While it is past the last column every character wraps, and nothing but a
single character in the last column comes out right.
-/

namespace Zbiggie.Proof

open Zbiggie Machine

/-- The loop of `term_write` for a background terminal. -/
def writeBack (L : Layout) (s : List Byte) (k : Kernel) : Kernel :=
  s.foldl (fun k c => mtPutc L c k) k

/-- The same characters through `putc`, on the terminal on display. -/
def writeFront (L : Layout) (s : List Byte) (k : Kernel) : Kernel :=
  s.foldl (fun k c => putc L c k) k

/-! ## Twins -/

/--
One terminal in two machines: in the background of `kb`, in the foreground of `kf`,
with the same cursor and the same page. Its column is `x`; the terminal on display
in `kb` has its cursor in column `xf`.
-/
structure Twin (L : Layout) (a : Term) (x xf : Int) (kb kf : Kernel) : Prop where
  back : Mapped L kb mapVideoMem (bufferPage a)
  active : kb.task.currentActiveProcess = a
  hidden : a ≠ kb.page.currentTerminal
  displayed : kb.screen.screenX kb.page.currentTerminal = xf
  front : Mapped L kf videoMem offsetVideo
  shown : kf.page.currentTerminal = a
  same : viewOf kb a (bufferPage a) = viewOf kf a offsetVideo
  col : kb.screen.screenX a = x
  row0 : 0 ≤ kb.screen.screenY a
  row1 : kb.screen.screenY a < 25

/-- The same cursor and the same 80 by 25 cells. -/
structure SameOutcome (a : Term) (kb kf : Kernel) : Prop where
  x : kb.screen.screenX a = kf.screen.screenX a
  y : kb.screen.screenY a = kf.screen.screenY a
  cells : ∀ o, o < 2 * (numCols * numRows) → kb.ram (bufferPage a + o) = kf.ram (offsetVideo + o)

theorem sameOutcome_of_view {a : Term} {kb kf : Kernel}
    (h : viewOf kb a (bufferPage a) = viewOf kf a offsetVideo) : SameOutcome a kb kf where
  x := congrArg TermView.x h
  y := congrArg TermView.y h
  cells := fun o ho => by
    have ho' : o < 4096 := by simp only [numCols, numRows] at ho; omega
    exact congrFun (congrArg TermView.cells h) ⟨o, ho'⟩

namespace Twin

variable {L : Layout} {a : Term} {x xf : Int} {kb kf : Kernel}

theorem cursorBack (h : Twin L a x xf kb kf) (hx0 : 0 ≤ x) (hx : x < 80) : CursorOk kb a :=
  ⟨by rw [h.col]; exact hx0, by rw [h.col]; omega, h.row0, h.row1⟩

theorem cursorFront (h : Twin L a x xf kb kf) (hx0 : 0 ≤ x) (hx : x < 80) : CursorOk kf a := by
  have hc := h.cursorBack hx0 hx
  have hX : kb.screen.screenX a = kf.screen.screenX a := congrArg TermView.x h.same
  have hY : kb.screen.screenY a = kf.screen.screenY a := congrArg TermView.y h.same
  exact ⟨hX ▸ hc.x0, hX ▸ hc.x1, hY ▸ hc.y0, hY ▸ hc.y1⟩

/-- What one character does to each of the two. -/
theorem views (h : Twin L a x xf kb kf) (hx0 : 0 ≤ x) (hx : x < 80) (c : Byte) :
    viewOf (mtPutc L c kb) a (bufferPage a)
        = (viewOf kb a (bufferPage a)).put (attribs a) (fun _ => xf ≥ numCols) c ∧
      viewOf (putc L c kf) a offsetVideo
        = (viewOf kb a (bufferPage a)).put (attribs a) (fun x => x ≥ numCols) c := by
  obtain ⟨hb, _⟩ := mtPutc_view h.back h.active h.hidden (h.cursorBack hx0 hx) c
  obtain ⟨hf, _⟩ := putc_view h.front h.shown (h.cursorFront hx0 hx) c
  rw [h.displayed] at hb
  rw [← h.same] at hf
  exact ⟨hb, hf⟩

/-- **A character keeps twins twins when the two wrap tests agree on it.** -/
theorem step (h : Twin L a x xf kb kf) (hx0 : 0 ≤ x) (hx : x < 80) {c : Byte}
    (hagree : xf ≥ 80 ↔ (if IsBreak c then 0 else x + 1) ≥ 80) :
    Twin L a (if xf ≥ 80 then 0 else if IsBreak c then 0 else x + 1) xf
      (mtPutc L c kb) (putc L c kf) := by
  obtain ⟨_, htb⟩ := mtPutc_view h.back h.active h.hidden (h.cursorBack hx0 hx) c
  obtain ⟨_, htf⟩ := putc_view h.front h.shown (h.cursorFront hx0 hx) c
  obtain ⟨hb, hf⟩ := h.views hx0 hx c
  have hrows : 0 ≤ (viewOf kb a (bufferPage a)).y ∧ (viewOf kb a (bufferPage a)).y < 25 :=
    ⟨h.row0, h.row1⟩
  have hcol : (viewOf kb a (bufferPage a)).x = x := h.col
  have hput : 0 ≤ ((viewOf kb a (bufferPage a)).put (attribs a) (fun _ => xf ≥ numCols) c).y ∧
      ((viewOf kb a (bufferPage a)).put (attribs a) (fun _ => xf ≥ numCols) c).y < 25 :=
    TermView.put_rows hrows.1 hrows.2
  rw [← hb] at hput
  refine ⟨htb.mapped h.back, by rw [htb.task]; exact h.active, by rw [htb.page]; exact h.hidden,
    ?_, htf.mapped h.front, by rw [htf.page]; exact h.shown, ?_, ?_, hput.1, hput.2⟩
  · rw [htb.page, htb.screenX _ (Ne.symm h.hidden)]
    exact h.displayed
  · rw [hb, hf]
    refine TermView.put_congr ?_
    rw [TermView.char_x, hcol]
    exact decide_eq_decide.mpr hagree
  · have hx' : (mtPutc L c kb).screen.screenX a
        = ((viewOf kb a (bufferPage a)).put (attribs a) (fun _ => xf ≥ numCols) c).x :=
      congrArg TermView.x hb
    rw [hx']
    by_cases hw : xf ≥ 80
    · rw [if_pos hw]
      exact (TermView.put_wrap (decide_eq_true hw)).1
    · rw [if_neg hw, (TermView.put_stay hrows.2 (decide_eq_false hw)).1, hcol]

/-- They end up apart as soon as the tests do not: `x` tells. -/
theorem apart_column (h : Twin L a x xf kb kf) (hx0 : 0 ≤ x) (hx : x < 80) {c : Byte}
    (hc : ¬ IsBreak c) (hdis : ¬ (xf ≥ 80 ↔ x + 1 ≥ 80)) :
    ¬ SameOutcome a (mtPutc L c kb) (putc L c kf) := by
  intro hsame
  obtain ⟨hb, hf⟩ := h.views hx0 hx c
  have hcol : (viewOf kb a (bufferPage a)).x = x := h.col
  have hrow : (viewOf kb a (bufferPage a)).y < 25 := h.row1
  have hchar : ((viewOf kb a (bufferPage a)).char (attribs a) c).x = x + 1 := by
    rw [TermView.char_x, if_neg hc, hcol]
  have hX := hsame.x
  rw [show (mtPutc L c kb).screen.screenX a = _ from congrArg TermView.x hb,
    show (putc L c kf).screen.screenX a = _ from congrArg TermView.x hf] at hX
  by_cases hw : xf ≥ 80
  · have hn : ¬ x + 1 ≥ 80 := fun h => hdis ⟨fun _ => h, fun _ => hw⟩
    rw [(TermView.put_wrap (decide_eq_true hw)).1,
      (TermView.put_stay hrow (by rw [hchar]; exact decide_eq_false hn)).1, if_neg hc, hcol] at hX
    omega
  · have hn : x + 1 ≥ 80 := by
      by_contra hn
      exact hdis ⟨fun h => absurd h hw, fun h => absurd h hn⟩
    rw [(TermView.put_stay hrow (decide_eq_false hw)).1, if_neg hc, hcol,
      (TermView.put_wrap (by rw [hchar]; exact decide_eq_true hn)).1] at hX
    omega

/-- A line break while every character wraps: `y` tells, away from the bottom. -/
theorem apart_break (h : Twin L a x xf kb kf) (hx0 : 0 ≤ x) (hx : x < 80) {c : Byte}
    (hc : IsBreak c) (hw : xf ≥ 80) (hy : kb.screen.screenY a < 23) :
    ¬ SameOutcome a (mtPutc L c kb) (putc L c kf) := by
  intro hsame
  obtain ⟨hb, hf⟩ := h.views hx0 hx c
  have hrow : (viewOf kb a (bufferPage a)).y < 23 := hy
  have hchar : ((viewOf kb a (bufferPage a)).char (attribs a) c).x = 0 := by
    rw [TermView.char_x, if_pos hc]
  have hY := hsame.y
  rw [show (mtPutc L c kb).screen.screenY a = _ from congrArg TermView.y hb,
    show (putc L c kf).screen.screenY a = _ from congrArg TermView.y hf,
    (TermView.put_wrap (decide_eq_true hw)).2, if_pos hc, if_neg (by omega),
    (TermView.put_stay (by omega) (by rw [hchar]; decide)).2, if_pos hc, if_neg (by omega)] at hY
  omega

end Twin

/-! ## Strings -/

/-- No character of `s`, written from column `x` on, is put in the last column. -/
def fits : Int → List Byte → Bool
  | _, [] => true
  | x, c :: s => if IsBreak c then fits 0 s else x + 1 < 80 && fits (x + 1) s

/-- When the wrap tests agree at every character of `s`. -/
def WrapsAlike (x xf : Int) (s : List Byte) : Prop :=
  (xf < 80 ∧ fits x s = true) ∨ (xf ≥ 80 ∧ (s = [] ∨ (x = 79 ∧ ∃ c, s = [c] ∧ ¬ IsBreak c)))

section Strings

variable {L : Layout} {a : Term}

/-- A string that fits keeps twins twins. -/
theorem twin_fits {xf : Int} (hxf : xf < 80) : ∀ (s : List Byte) {x : Int} {kb kf : Kernel},
    Twin L a x xf kb kf → 0 ≤ x → x < 80 → fits x s = true →
    ∃ x', Twin L a x' xf (writeBack L s kb) (writeFront L s kf)
  | [], x, kb, kf, h, _, _, _ => ⟨x, h⟩
  | c :: s, x, kb, kf, h, hx0, hx, hfit => by
      rw [fits] at hfit
      by_cases hc : IsBreak c
      · rw [if_pos hc] at hfit
        have hstep := h.step hx0 hx (c := c) (by rw [if_pos hc]; omega)
        rw [if_neg (by omega), if_pos hc] at hstep
        exact twin_fits hxf s hstep (by omega) (by omega) hfit
      · rw [if_neg hc, Bool.and_eq_true, decide_eq_true_eq] at hfit
        have hstep := h.step hx0 hx (c := c) (by rw [if_neg hc]; omega)
        rw [if_neg (by omega), if_neg hc] at hstep
        exact twin_fits hxf s hstep (by omega) hfit.1 hfit.2

theorem fits_take {s s' : List Byte} (hp : s' <+: s) {x : Int} (h : fits x s = true) :
    fits x s' = true := by
  obtain ⟨r, rfl⟩ := hp
  induction s' generalizing x with
  | nil => rfl
  | cons c s' ih =>
      rw [List.cons_append, fits] at h
      rw [fits]
      by_cases hc : IsBreak c
      · rw [if_pos hc] at h ⊢
        exact ih h
      · rw [if_neg hc, Bool.and_eq_true] at h ⊢
        exact ⟨h.1, ih h.2⟩

/-- A string that does not fit takes them apart, at the character that fills the row. -/
theorem twin_apart {xf : Int} (hxf : xf < 80) : ∀ (s : List Byte) {x : Int} {kb kf : Kernel},
    Twin L a x xf kb kf → 0 ≤ x → x < 80 → fits x s = false →
    ∃ s', s' <+: s ∧ ¬ SameOutcome a (writeBack L s' kb) (writeFront L s' kf)
  | [], _, _, _, _, _, _, hfit => by cases hfit
  | c :: s, x, kb, kf, h, hx0, hx, hfit => by
      rw [fits] at hfit
      by_cases hc : IsBreak c
      · rw [if_pos hc] at hfit
        have hstep := h.step hx0 hx (c := c) (by rw [if_pos hc]; omega)
        rw [if_neg (by omega), if_pos hc] at hstep
        obtain ⟨s', hp, hs'⟩ := twin_apart hxf s hstep (by omega) (by omega) hfit
        exact ⟨c :: s', List.cons_prefix_cons.mpr ⟨rfl, hp⟩, hs'⟩
      · rw [if_neg hc, Bool.and_eq_false_iff] at hfit
        by_cases hlast : x + 1 < 80
        · have hstep := h.step hx0 hx (c := c) (by rw [if_neg hc]; omega)
          rw [if_neg (by omega), if_neg hc] at hstep
          obtain ⟨s', hp, hs'⟩ := twin_apart hxf s hstep (by omega) hlast
            (hfit.resolve_left (by simp [hlast]))
          exact ⟨c :: s', List.cons_prefix_cons.mpr ⟨rfl, hp⟩, hs'⟩
        · exact ⟨[c], List.cons_prefix_cons.mpr ⟨rfl, List.nil_prefix⟩,
            h.apart_column hx0 hx hc (by omega)⟩

/-! ## There are twins -/

/-- An empty memory, terminal `t` on display, a process of terminal `a` running. -/
def emptyScene (L : Layout) (a t : Term) (x y xf : Int) : Kernel :=
  let k := initTables L .zero
  { k with
    task := { k.task with currentActiveProcess := a }
    page := { k.page with currentTerminal := t }
    screen := { k.screen with screenX := fun u => if u = a then x else xf, screenY := fun _ => y } }

/-- Terminal `a` in the background of it. -/
def emptyBack (L : Layout) (a : Term) (x y xf : Int) : Kernel :=
  setVmemTable a (emptyScene L a (a + 1) x y xf)

/-- And in the foreground. -/
def emptyFront (L : Layout) (a : Term) (x y : Int) : Kernel := emptyScene L a a x y 0

theorem tables_emptyScene (L : Layout) (a t : Term) (x y xf : Int) :
    Tables (emptyScene L a t x y xf) := (tables_initTables L .zero).congr rfl rfl

theorem initTables_kernelPd (L : Layout) (k : Kernel) :
    (initTables L k).page.pageDirectories kernelPd = kernelPdRow L := by
  simp [initTables]

theorem selected_kernelPd {L : Layout} {k : Kernel} (h0 : k.page.cr3 = kernelPd)
    (hrow : k.page.pageDirectories kernelPd = kernelPdRow L) : Selected L k := by
  unfold Selected
  rw [h0, hrow]
  exact kernelDir_kernelPdRow L

theorem twin_empty (L : Layout) (a : Term) (x xf : Int) {y : Int} (hy0 : 0 ≤ y) (hy : y < 25) :
    Twin L a x xf (emptyBack L a x y xf) (emptyFront L a x y) where
  back := by
    have hrow : (emptyBack L a x y xf).page.lowMemoryTable videoEntry = bufferPte a := by
      unfold emptyBack
      rw [setVmemTable_video]
      exact if_neg (succ_ne a)
    refine ⟨(tables_emptyScene ..).setVmemTable a,
      selected_kernelPd rfl (initTables_kernelPd L .zero), .inl ⟨rfl, ?_⟩⟩
    unfold lowFrame
    rw [hrow, frame_bufferPte]
  active := rfl
  hidden := fun h => succ_ne a h.symm
  displayed := if_neg (fun h => succ_ne a h)
  front := ⟨tables_emptyScene .., selected_kernelPd rfl (initTables_kernelPd L .zero),
    .inr ⟨3, by decide, rfl, rfl⟩⟩
  shown := rfl
  same := by
    ext1
    · show (if a = a then x else xf) = (if a = a then x else 0)
      rw [if_pos rfl, if_pos rfl]
    · rfl
    · rfl
  col := if_pos rfl
  row0 := hy0
  row1 := hy

/-! ## When the two agree -/

/-- With the displayed cursor past the last column, two characters are always too many. -/
theorem twin_apart_wide {x xf : Int} (hxf : xf ≥ 80) (hx0 : 0 ≤ x) (hx : x < 80) {s : List Byte}
    (hs : ¬ WrapsAlike x xf s) {kb kf : Kernel} (h : Twin L a x xf kb kf)
    (hy : kb.screen.screenY a = 0) :
    ∃ s', s' <+: s ∧ ¬ SameOutcome a (writeBack L s' kb) (writeFront L s' kf) := by
  cases s with
  | nil => exact absurd (.inr ⟨hxf, .inl rfl⟩) hs
  | cons c s =>
      have hone : [c] <+: c :: s := List.cons_prefix_cons.mpr ⟨rfl, List.nil_prefix⟩
      by_cases hc : IsBreak c
      · exact ⟨[c], hone, h.apart_break hx0 hx hc hxf (by omega)⟩
      · by_cases h79 : x = 79
        · -- the first character comes out right; the second one does not
          subst h79
          have hstep := h.step hx0 hx (c := c) (by rw [if_neg hc]; omega)
          rw [if_pos hxf] at hstep
          have hrow : (mtPutc L c kb).screen.screenY a = 1 := by
            have hb := congrArg TermView.y (h.views hx0 hx c).1
            rw [(TermView.put_wrap (decide_eq_true hxf)).2, if_neg hc] at hb
            rw [show (viewOf kb a (bufferPage a)).y = 0 from hy] at hb
            exact hb
          cases s with
          | nil => exact absurd (.inr ⟨hxf, .inr ⟨rfl, c, rfl, hc⟩⟩) hs
          | cons d s =>
              refine ⟨[c, d], List.cons_prefix_cons.mpr
                ⟨rfl, List.cons_prefix_cons.mpr ⟨rfl, List.nil_prefix⟩⟩, ?_⟩
              by_cases hd : IsBreak d
              · exact hstep.apart_break (by omega) (by omega) hd hxf (by omega)
              · exact hstep.apart_column (by omega) (by omega) hd (by omega)
        · exact ⟨[c], hone, h.apart_column hx0 hx hc (by omega)⟩

/--
**When background output is foreground output.** For a terminal whose cursor is in
column `x` and a displayed cursor in column `xf`: the string `s` comes out the same
at every point, on every row and every page, if and only if the wrap tests agree
throughout it.
-/
theorem background_output_iff (L : Layout) (a : Term) {x : Int} (hx0 : 0 ≤ x) (hx : x < 80)
    (xf : Int) (s : List Byte) :
    (∀ kb kf, Twin L a x xf kb kf → ∀ s', s' <+: s →
        SameOutcome a (writeBack L s' kb) (writeFront L s' kf)) ↔ WrapsAlike x xf s := by
  constructor
  · intro hall
    by_contra hs
    have htwin := twin_empty L a x xf (y := 0) (by omega) (by omega)
    by_cases hxf : xf < 80
    · have hfit : fits x s = false := by
        cases hf : fits x s with
        | false => rfl
        | true => exact absurd (.inl ⟨hxf, hf⟩) hs
      obtain ⟨s', hp, hs'⟩ := twin_apart hxf s htwin hx0 hx hfit
      exact hs' (hall _ _ htwin s' hp)
    · obtain ⟨s', hp, hs'⟩ := twin_apart_wide (by omega) hx0 hx hs htwin rfl
      exact hs' (hall _ _ htwin s' hp)
  · rintro (⟨hxf, hfit⟩ | ⟨hxf, rfl | ⟨rfl, c, rfl, hc⟩⟩) kb kf h s' hp
    · obtain ⟨x', htwin⟩ := twin_fits hxf s' h hx0 hx (fits_take hp hfit)
      exact sameOutcome_of_view htwin.same
    · rw [List.prefix_nil.mp hp]
      exact sameOutcome_of_view h.same
    · rcases List.prefix_cons_iff.mp hp with rfl | ⟨t, rfl, ht⟩
      · exact sameOutcome_of_view h.same
      · rw [List.prefix_nil.mp ht]
        exact sameOutcome_of_view (h.step hx0 hx (c := c) (by rw [if_neg hc]; omega)).same

/-- Two characters from the left margin, nothing wrapping. -/
theorem background_output_short :
    (∀ kb kf, Twin someLayout 1 0 0 kb kf → ∀ s', s' <+: [0x68, 0x69] →
      SameOutcome 1 (writeBack someLayout s' kb) (writeFront someLayout s' kf)) ∧
      WrapsAlike 0 0 [0x68, 0x69] := by
  have hw : WrapsAlike 0 0 [0x68, 0x69] := .inl ⟨by decide, by decide⟩
  exact ⟨(background_output_iff someLayout 1 (by decide) (by decide) 0 _).mpr hw, hw⟩

/--
One character in the last column of terminal `1`, the displayed cursor at the left
margin: in the background the cursor stays on the row, one past its end.
-/
theorem background_output_last_column :
    Twin someLayout 1 79 0 (emptyBack someLayout 1 79 0 0) (emptyFront someLayout 1 79 0) ∧
      ¬ SameOutcome 1 (writeBack someLayout [0x41] (emptyBack someLayout 1 79 0 0))
        (writeFront someLayout [0x41] (emptyFront someLayout 1 79 0)) := by
  have h := twin_empty someLayout 1 79 0 (y := 0) (by decide) (by decide)
  exact ⟨h, h.apart_column (by decide) (by decide) (c := 0x41) (by decide) (by decide)⟩

end Strings

end Zbiggie.Proof
