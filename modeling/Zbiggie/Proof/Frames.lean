import Mathlib.Data.List.GetD
import Mathlib.Data.List.TakeWhile
import Zbiggie.Machine.TextLines
import Zbiggie.Proof.LampScreen
import Zbiggie.User.Frames

/-!
# The fish alternates between its two frames

`add_frames` is two files read in step, with two last-byte variables, two flags and a
pair of nested loops. What comes out of it is simple: the two files as lines, laid over
each other, and a blinking character at every place where either has something to show.

Together with the phase of a single character that says what the program is for. While
the frames fit on the screen, every cell shows the first frame for fifteen ticks, the
second for fifteen, and so on.
-/

namespace Zbiggie

open Machine

/-! ## One file -/

namespace FrameSide

/-- What the file still shows of its present line. -/
def line (f : FrameSide) : List Byte :=
  if f.c = 0x0A then [] else f.rest.takeWhile (!newline ·)

/-- The file at the end of its present line. -/
def ended (f : FrameSide) : FrameSide :=
  if f.c = 0x0A then f
  else
    match f.rest.dropWhile (!newline ·) with
    | [] => ⟨0x0A, true, []⟩
    | _ :: rest => ⟨0x0A, f.eof, rest⟩

/-- One read: the next byte of the line, or its end. -/
theorem read_spec (f : FrameSide) :
    f.read.c = f.line.headD 0x0A ∧ f.read.line = f.line.tail ∧ f.read.ended = f.ended ∧
      (f.line = [] → f.read = f.ended) := by
  obtain ⟨c, eof, rest⟩ := f
  by_cases hc : c = 10#8
  · simp [read, line, ended, hc]
  · cases rest with
    | nil => simp [read, line, ended, hc]
    | cons b rest =>
        by_cases hb : b = 10#8
        · simp [read, line, ended, hc, hb, newline]
        · simp [read, line, ended, hc, hb, newline]

theorem head_ne (f : FrameSide) {b : Byte} {l : List Byte} (h : f.line = b :: l) : b ≠ 0x0A := by
  unfold line at h
  split at h
  · cases h
  · intro hb
    have hmem : b ∈ f.rest.takeWhile (!newline ·) := by rw [h]; exact List.mem_cons_self
    have := List.mem_takeWhile_imp hmem
    simp [newline, hb] at this

/-- What the loop makes of the byte it read: blank once the line is over. -/
theorem shown_spec (f : FrameSide) :
    (if f.read.c = 0x0A then 0x20 else f.read.c) = f.line.headD 0x20 ∧
      ((f.read.c ≠ 0x20 ∧ f.read.c ≠ 0x0A) ↔ f.line.headD 0x20 ≠ 0x20) ∧
      (f.read.c = 0x0A ↔ f.line = []) := by
  rw [f.read_spec.1]
  cases hl : f.line with
  | nil => simp
  | cons b l =>
      have hb : b ≠ 10#8 := f.head_ne hl
      simp [hb]

end FrameSide

/-! ## One line of each -/

/-- The character asked for at a place, if the frames show one there. -/
def frameCell (blink : BlinkStruct) (row col : Nat) (c0 c1 : Byte) : Option BlinkStruct :=
  if c0 ≠ 0x20 ∨ c1 ≠ 0x20 then
    some { blink with
      onLength := 15, offLength := 15, onChar := c0, offChar := c1
      location := BitVec.ofNat 16 (row * 80 + col + frameOffset) }
  else none

/-- Two lines laid over each other, from a column on, the shorter one filled with blanks. -/
def overlay (blink : BlinkStruct) (row col : Nat) (l0 l1 : List Byte) : List BlinkStruct :=
  (List.range (max l0.length l1.length)).filterMap fun k =>
    frameCell blink row (col + k) (l0.getD k 0x20) (l1.getD k 0x20)

theorem overlay_step (blink : BlinkStruct) (row col : Nat) {l0 l1 : List Byte}
    (h : ¬ (l0 = [] ∧ l1 = [])) : overlay blink row col l0 l1 =
      (frameCell blink row col (l0.headD 0x20) (l1.headD 0x20)).toList ++
        overlay blink row (col + 1) l0.tail l1.tail := by
  have hlen : max l0.length l1.length = max l0.tail.length l1.tail.length + 1 := by
    rw [List.length_tail, List.length_tail]
    have : 0 < l0.length ∨ 0 < l1.length := by
      by_contra hno
      exact h ⟨List.length_eq_zero_iff.mp (by omega), List.length_eq_zero_iff.mp (by omega)⟩
    omega
  have hhead : ∀ l : List Byte, l.getD 0 0x20 = l.headD 0x20 := by
    intro l
    cases l <;> rfl
  have htail : ∀ (l : List Byte) (k : Nat), l.getD (k + 1) 0x20 = l.tail.getD k 0x20 := by
    intro l k
    cases l <;> rfl
  unfold overlay
  rw [hlen, List.range_succ_eq_map, List.filterMap_cons, List.filterMap_map, hhead, hhead,
    Nat.add_zero]
  have hrest : (fun k => frameCell blink row (col + k) (l0.getD k 0x20) (l1.getD k 0x20)) ∘ Nat.succ
      = fun k => frameCell blink row (col + 1 + k) (l0.tail.getD k 0x20) (l1.tail.getD k 0x20) := by
    funext k
    simp only [Function.comp_apply, Nat.succ_eq_add_one, htail]
    rw [Nat.add_assoc, Nat.add_comm 1 k]
  rw [hrest]
  cases frameCell blink row col (l0.headD 0x20) (l1.headD 0x20) <;> rfl

/-- **One line of each file.** The inner loop lays the two over each other. -/
theorem frameLine_eq (blink : BlinkStruct) (row : Nat) : ∀ {fuel col : Nat} {f0 f1 : FrameSide},
    max f0.line.length f1.line.length < fuel → frameLine blink row fuel col f0 f1 =
      some (overlay blink row col f0.line f1.line, f0.ended, f1.ended) := by
  intro fuel
  induction fuel with
  | zero => intro col f0 f1 h; omega
  | succ fuel ih =>
      intro col f0 f1 h
      obtain ⟨-, hl0, he0, hend0⟩ := f0.read_spec
      obtain ⟨-, hl1, he1, hend1⟩ := f1.read_spec
      obtain ⟨hs0, hb0, hn0⟩ := f0.shown_spec
      obtain ⟨hs1, hb1, hn1⟩ := f1.shown_spec
      rw [frameLine]
      dsimp only
      by_cases hboth : f0.line = [] ∧ f1.line = []
      · rw [if_pos ⟨hn0.mpr hboth.1, hn1.mpr hboth.2⟩, hend0 hboth.1, hend1 hboth.2, hboth.1,
          hboth.2]
        rfl
      · have hnot : ¬ (f0.read.c = 0x0A ∧ f1.read.c = 0x0A) := by rwa [hn0, hn1]
        have hshort : max f0.read.line.length f1.read.line.length < fuel := by
          rw [hl0, hl1, List.length_tail, List.length_tail]
          have : 0 < f0.line.length ∨ 0 < f1.line.length := by
            by_contra hno
            exact hboth ⟨List.length_eq_zero_iff.mp (by omega),
              List.length_eq_zero_iff.mp (by omega)⟩
          omega
        have hcell : (if (f0.read.c ≠ 0x20 ∧ f0.read.c ≠ 0x0A) ∨
              (f1.read.c ≠ 0x20 ∧ f1.read.c ≠ 0x0A) then
              [frameBlink blink row col f0.read.c f1.read.c] else []) =
            (frameCell blink row col (f0.line.headD 0x20) (f1.line.headD 0x20)).toList := by
          simp only [frameCell, frameBlink, hb0, hb1, hs0, hs1]
          split <;> rfl
        rw [if_neg hnot, hcell, ih hshort, Option.map_some, hl0, hl1, he0, he1,
          overlay_step blink row col hboth]


/-! ## All lines -/

/-- The file between two lines. -/
def FrameSide.AtLine (f : FrameSide) : Prop := f.c = if f.eof then 0x0A else 0x30

/-- The lines the file still has. -/
def FrameSide.lines (f : FrameSide) : List (List Byte) := if f.eof then [] else linesOf f.rest

theorem FrameSide.atLine_nextLine (f : FrameSide) : f.nextLine.AtLine := by
  unfold nextLine AtLine
  split <;> simp_all

/-- From one line to the next. -/
theorem FrameSide.lines_spec {f : FrameSide} (h : f.AtLine) :
    f.line = f.lines.headD [] ∧ f.ended.nextLine.lines = f.lines.tail := by
  obtain ⟨c, eof, rest⟩ := f
  cases eof with
  | true =>
      have hc : c = 10#8 := h
      simp [line, lines, ended, nextLine, hc]
  | false =>
      have hc : c = 48#8 := h
      subst hc
      have hdrop := List.takeWhile_append_dropWhile (p := (!newline ·)) (l := rest)
      rcases splitOnP_front newline rest with ⟨b, r, hrest, -, hsplit⟩ | ⟨hrest, hsplit⟩
      · have hd : rest.dropWhile (!newline ·) = b :: r :=
          List.append_cancel_left (hdrop.trans hrest)
        simp [line, lines, linesOf, ended, nextLine, hsplit, hd]
      · have hd : rest.dropWhile (!newline ·) = [] := by
          rw [hrest] at hdrop
          exact List.append_cancel_left (hdrop.trans (List.append_nil rest).symm)
        simp [line, lines, linesOf, ended, nextLine, hsplit, hd, hrest]

/-- Two files laid over each other, from a row on. -/
def overlays (blink : BlinkStruct) (row : Nat) (ls0 ls1 : List (List Byte)) : List BlinkStruct :=
  (List.range (max ls0.length ls1.length)).flatMap fun k =>
    overlay blink (row + k) 0 (ls0.getD k []) (ls1.getD k [])

theorem overlays_step (blink : BlinkStruct) (row : Nat) {ls0 ls1 : List (List Byte)}
    (h : ls0 ≠ [] ∨ ls1 ≠ []) : overlays blink row ls0 ls1 =
      overlay blink row 0 (ls0.headD []) (ls1.headD []) ++
        overlays blink (row + 1) ls0.tail ls1.tail := by
  have hlen : max ls0.length ls1.length = max ls0.tail.length ls1.tail.length + 1 := by
    rw [List.length_tail, List.length_tail]
    rcases h with h | h
    · have := List.length_pos_of_ne_nil h
      omega
    · have := List.length_pos_of_ne_nil h
      omega
  have hhead : ∀ l : List (List Byte), l.getD 0 [] = l.headD [] := by
    intro l
    cases l <;> rfl
  have htail : ∀ (l : List (List Byte)) (k : Nat), l.getD (k + 1) [] = l.tail.getD k [] := by
    intro l k
    cases l <;> rfl
  unfold overlays
  rw [hlen, List.range_succ_eq_map, List.flatMap_cons, hhead, hhead, Nat.add_zero,
    List.flatMap_map]
  simp only [Nat.succ_eq_add_one, htail]
  congr 2
  funext k
  rw [Nat.add_assoc, Nat.add_comm 1 k]

/-- **All lines of both files.** -/
theorem frameRows_eq (blink : BlinkStruct) {lineFuel : Nat} :
    ∀ {fuel row : Nat} {f0 f1 : FrameSide},
    f0.AtLine → f1.AtLine → max f0.lines.length f1.lines.length < fuel →
    (∀ l ∈ f0.lines, l.length < lineFuel) → (∀ l ∈ f1.lines, l.length < lineFuel) →
    frameRows blink lineFuel fuel row f0 f1 = some (overlays blink row f0.lines f1.lines) := by
  intro fuel
  induction fuel with
  | zero => intro row f0 f1 _ _ h; omega
  | succ fuel ih =>
      intro row f0 f1 ha0 ha1 hf hl0 hl1
      obtain ⟨hline0, hnext0⟩ := FrameSide.lines_spec ha0
      obtain ⟨hline1, hnext1⟩ := FrameSide.lines_spec ha1
      have hnil : ∀ f : FrameSide, f.eof = false ↔ f.lines ≠ [] := by
        intro f
        unfold FrameSide.lines
        cases f.eof with
        | true => simp
        | false => simp [linesOf, List.splitOnP_ne_nil]
      rw [frameRows]
      by_cases hmore : f0.eof = false ∨ f1.eof = false
      · have hne : f0.lines ≠ [] ∨ f1.lines ≠ [] := by rwa [hnil, hnil] at hmore
        -- one side may be at its end; a line of the other shows that there is fuel
        have hpos : 0 < lineFuel := by
          rcases hne with hne | hne
          · obtain ⟨l, ls, hls⟩ := List.exists_cons_of_ne_nil hne
            exact Nat.lt_of_le_of_lt (Nat.zero_le _) (hl0 l (by rw [hls]; exact List.mem_cons_self))
          · obtain ⟨l, ls, hls⟩ := List.exists_cons_of_ne_nil hne
            exact Nat.lt_of_le_of_lt (Nat.zero_le _) (hl1 l (by rw [hls]; exact List.mem_cons_self))
        have hhead : ∀ f : FrameSide, (∀ l ∈ f.lines, l.length < lineFuel) →
            (f.lines.headD []).length < lineFuel := by
          intro f hl
          cases hfl : f.lines with
          | nil => exact hpos
          | cons l ls => exact hl l (by rw [hfl]; exact List.mem_cons_self)
        have hshort : max f0.lines.tail.length f1.lines.tail.length < fuel := by
          rw [List.length_tail, List.length_tail]
          rcases hne with hne | hne
          · have := List.length_pos_of_ne_nil hne
            omega
          · have := List.length_pos_of_ne_nil hne
            omega
        have hnext := @ih (row + 1) _ _ f0.ended.atLine_nextLine f1.ended.atLine_nextLine
          (by rw [hnext0, hnext1]; exact hshort)
          (by rw [hnext0]; exact fun l hl => hl0 l (List.mem_of_mem_tail hl))
          (by rw [hnext1]; exact fun l hl => hl1 l (List.mem_of_mem_tail hl))
        rw [if_pos hmore, frameLine_eq blink row (Nat.max_lt.mpr
          ⟨by rw [hline0]; exact hhead f0 hl0, by rw [hline1]; exact hhead f1 hl1⟩),
          Option.bind_some]
        dsimp only
        rw [hnext, Option.map_some, hnext0, hnext1, hline0, hline1, overlays_step blink row hne]
      · have h0 : f0.lines = [] := by
          by_contra hne
          exact hmore (.inl ((hnil f0).mpr hne))
        have h1 : f1.lines = [] := by
          by_contra hne
          exact hmore (.inr ((hnil f1).mpr hne))
        rw [if_neg hmore, h0, h1]
        rfl

/-- **What `add_frames` adds**, and that it comes to an end. -/
theorem addFrames_eq (blink : BlinkStruct) (content0 content1 : List Byte) {fuel : Nat}
    (hf : max content0.length content1.length + 1 < fuel) :
    addFrames fuel blink content0 content1 =
      some (overlays blink 0 (linesOf content0) (linesOf content1)) := by
  have h0 := length_splitOnP_le newline content0
  have h1 := length_splitOnP_le newline content1
  refine @frameRows_eq blink _ _ _ (.opened content0) (.opened content1) rfl rfl ?_ ?_ ?_
  · exact Nat.max_lt.mpr ⟨Nat.lt_of_le_of_lt h0 (by omega), Nat.lt_of_le_of_lt h1 (by omega)⟩
  · intro l hl
    exact Nat.lt_of_le_of_lt (length_of_mem_splitOnP newline content0 l hl) (by omega)
  · intro l hl
    exact Nat.lt_of_le_of_lt (length_of_mem_splitOnP newline content1 l hl) (by omega)

/-! ## On the screen -/

/-- Twenty-five lines of at most forty characters, which is the right half of the screen, and
behind them nothing but empty ones, such as the one behind a newline at the end of the file. -/
def FitsScreen (content : List Byte) : Prop :=
  (∀ l ∈ linesOf content, l.length ≤ 40) ∧ ∀ l ∈ (linesOf content).drop 25, l = []

/-- The character of a file at a place. -/
def frameChar (content : List Byte) (row col : Nat) : Byte :=
  ((linesOf content).getD row []).getD col 0x20

/-- What is added at a place: the place itself, and the two characters there. -/
theorem frameCell_some {blink b : BlinkStruct} {row col : Nat} {c0 c1 : Byte}
    (h : frameCell blink row col c0 c1 = some b) (hr : row < 25) (hc : col < 40) :
    b.location.toNat = row * 80 + col + 40 ∧ b.onChar = c0 ∧ b.offChar = c1 ∧
      b.onLength = 15 ∧ b.offLength = 15 ∧ ¬ (c0 = 0x20 ∧ c1 = 0x20) := by
  unfold frameCell at h
  split at h
  · rename_i hne
    cases h
    refine ⟨?_, rfl, rfl, rfl, rfl, by tauto⟩
    show (BitVec.ofNat 16 (row * 80 + col + 40)).toNat = _
    rw [BitVec.toNat_ofNat, Nat.mod_eq_of_lt (by omega)]
  · cases h

/-- A place in a line of the file is a place of the right half. -/
theorem FitsScreen.place {content : List Byte} (h : FitsScreen content) {row col : Nat}
    (hcol : col < ((linesOf content).getD row []).length) : row < 25 ∧ col < 40 := by
  have hrow : row < (linesOf content).length := by
    by_contra hge
    rw [List.getD_eq_default _ _ (Nat.le_of_not_lt hge)] at hcol
    exact Nat.not_lt_zero _ hcol
  rw [List.getD_eq_getElem _ _ hrow] at hcol
  refine ⟨?_, Nat.lt_of_lt_of_le hcol (h.1 _ (List.getElem_mem hrow))⟩
  by_contra hge
  have hmem : (linesOf content)[row] ∈ (linesOf content).drop 25 :=
    List.mem_drop_iff_getElem.mpr ⟨row - 25, by omega, by congr 1; omega⟩
  rw [h.2 _ hmem] at hcol
  exact Nat.not_lt_zero _ hcol

/-- And so is a place in a line of either of two. -/
theorem FitsScreen.place_max {content0 content1 : List Byte} (h0 : FitsScreen content0)
    (h1 : FitsScreen content1) {row col : Nat}
    (hcol : col < max ((linesOf content0).getD row []).length
      ((linesOf content1).getD row []).length) : row < 25 ∧ col < 40 := by
  rcases lt_max_iff.mp hcol with hcol | hcol
  · exact h0.place hcol
  · exact h1.place hcol

/-- The characters added, place by place. -/
theorem mem_overlays {blink b : BlinkStruct} {content0 content1 : List Byte}
    (h0 : FitsScreen content0) (h1 : FitsScreen content1)
    (hb : b ∈ overlays blink 0 (linesOf content0) (linesOf content1)) :
    ∃ row col, row < 25 ∧ col < 40 ∧
      frameCell blink row col (frameChar content0 row col) (frameChar content1 row col)
        = some b := by
  obtain ⟨row, hrow, hb⟩ := List.mem_flatMap.mp hb
  obtain ⟨col, hcol, hb⟩ := List.mem_filterMap.mp hb
  rw [List.mem_range] at hcol
  rw [Nat.zero_add, Nat.zero_add] at hb
  obtain ⟨hr, hc⟩ := h0.place_max h1 hcol
  exact ⟨row, col, hr, hc, hb⟩

/-- And the other way round. -/
theorem overlays_mem {blink b : BlinkStruct} {content0 content1 : List Byte} {row col : Nat}
    (h : frameCell blink row col (frameChar content0 row col) (frameChar content1 row col)
      = some b) :
    b ∈ overlays blink 0 (linesOf content0) (linesOf content1) := by
  have hshown : ¬ (frameChar content0 row col = 0x20 ∧ frameChar content1 row col = 0x20) := by
    rintro ⟨hb0, hb1⟩
    simp [frameCell, hb0, hb1] at h
  have hin : ∀ content : List Byte, frameChar content row col ≠ 0x20 →
      row < (linesOf content).length ∧ col < ((linesOf content).getD row []).length := by
    intro content hne
    have hcol : col < ((linesOf content).getD row []).length := by
      by_contra hge
      exact hne (List.getD_eq_default _ _ (by omega))
    refine ⟨?_, hcol⟩
    by_contra hge
    rw [List.getD_eq_default _ _ (by omega)] at hcol
    exact Nat.not_lt_zero _ hcol
  refine List.mem_flatMap.mpr ⟨row, ?_, List.mem_filterMap.mpr ⟨col, ?_, ?_⟩⟩
  · rw [List.mem_range]
    by_cases hb0 : frameChar content0 row col = 0x20
    · have := (hin content1 fun hb1 => hshown ⟨hb0, hb1⟩).1
      omega
    · have := (hin content0 hb0).1
      omega
  · rw [List.mem_range]
    by_cases hb0 : frameChar content0 row col = 0x20
    · have := (hin content1 fun hb1 => hshown ⟨hb0, hb1⟩).2
      omega
    · have := (hin content0 hb0).2
      omega
  · rw [Nat.zero_add, Nat.zero_add]
    exact h

/-- They come in the order of their places, so no two share one. -/
theorem overlays_pairwise (blink : BlinkStruct) {content0 content1 : List Byte}
    (h0 : FitsScreen content0) (h1 : FitsScreen content1) :
    (overlays blink 0 (linesOf content0) (linesOf content1)).Pairwise
      fun b c => b.location.toNat < c.location.toNat := by
  have hcell : ∀ row col b,
      col < max ((linesOf content0).getD row []).length ((linesOf content1).getD row []).length →
      frameCell blink (0 + row) (0 + col) (((linesOf content0).getD row []).getD col 0x20)
        (((linesOf content1).getD row []).getD col 0x20) = some b →
      b.location.toNat = row * 80 + col + 40 ∧ col < 40 := by
    intro row col b hcol hb
    rw [Nat.zero_add, Nat.zero_add] at hb
    obtain ⟨hr, hc⟩ := h0.place_max h1 hcol
    exact ⟨(frameCell_some hb hr hc).1, hc⟩
  refine List.pairwise_flatMap.mpr ⟨?_, ?_⟩
  · intro row _
    refine List.pairwise_filterMap.mpr (List.pairwise_lt_range.imp_of_mem ?_)
    intro col col' hcol hcol' hlt b hb c hc
    rw [List.mem_range] at hcol hcol'
    have hloc := hcell row col b hcol hb
    have hloc' := hcell row col' c hcol' hc
    omega
  · refine List.pairwise_lt_range.imp_of_mem ?_
    intro row row' _ _ hlt b hb c hc
    obtain ⟨col, hcol, hb⟩ := List.mem_filterMap.mp hb
    obtain ⟨col', hcol', hc⟩ := List.mem_filterMap.mp hc
    rw [List.mem_range] at hcol hcol'
    have hloc := hcell row col b hcol hb
    have hloc' := hcell row' col' c hcol' hc
    omega

/-! ## The animation -/

/-- The requests of the program: every character of the frames, then so many ticks. -/
def frameOps (adds : List BlinkStruct) (n : Nat) : List FishOp :=
  adds.map .add ++ List.replicate n .tick

theorem ticks_frameOps (adds : List BlinkStruct) (n : Nat) : ticks (frameOps adds n) = n := by
  unfold frameOps
  induction adds with
  | nil =>
      induction n with
      | zero => rfl
      | succ n ih => exact congrArg (· + 1) ih
  | cons b adds ih => exact ih

theorem mem_frameOps {adds : List BlinkStruct} {n : Nat} {op : FishOp} (h : op ∈ frameOps adds n) :
    op = .tick ∨ ∃ b ∈ adds, op = .add b := by
  rcases List.mem_append.mp h with h | h
  · obtain ⟨b, hb, rfl⟩ := List.mem_map.mp h
    exact .inr ⟨b, hb, rfl⟩
  · exact .inl (List.eq_of_mem_replicate h)

/-- A run of requests lists no more lamps than it has requests. -/
theorem Lamps.length_runOps (m : Lamps) (adds : List BlinkStruct) :
    (m.runOps (adds.map .add)).2.lamps.length ≤ m.lamps.length + adds.length := by
  induction adds generalizing m with
  | nil => exact Nat.le_refl _
  | cons b adds ih =>
      have hone : (m.op (.add b)).2.lamps.length ≤ m.lamps.length + 1 := by
        simp only [op]
        split
        · exact Nat.le_succ _
        · exact Nat.le_refl _
      have := ih (m.op (.add b)).2
      rw [List.length_cons]
      show ((m.op (.add b)).2.runOps (adds.map .add)).2.lamps.length ≤ _
      omega

/-- One of many characters added at different places, some ticks later. -/
theorem Lamps.frameOps_screen (vmem : Mem) (pre post : List BlinkStruct) (b : BlinkStruct) (n : Nat)
    (hroom : pre.length < 2000) (hloc : b.location.toNat < 2000)
    (hpre : ∀ c ∈ pre, c.location ≠ b.location) (hpost : ∀ c ∈ post, c.location ≠ b.location) :
    (Lamps.runOps ⟨[], vmem⟩ (frameOps (pre ++ b :: post) n)).2.screen (2 * b.location.toNat) =
      if n % (span b.onLength + span b.offLength) < span b.onLength then b.onChar
      else b.offChar := by
  have hsplit : frameOps (pre ++ b :: post) n = pre.map .add ++ .add b :: frameOps post n := by
    simp [frameOps]
  have hlen := Lamps.length_runOps ⟨[], vmem⟩ pre
  have hnew : (Lamps.runOps ⟨[], vmem⟩ (pre.map .add)).2.at? b.location = none := by
    rw [Lamps.at?_eq_head?, Lamps.run_onAt]
    · rfl
    · intro op hop
      obtain ⟨c, hc, rfl⟩ := List.mem_map.mp hop
      exact hpre c hc
  rw [hsplit, Lamps.runOps_append]
  generalize (Lamps.runOps ⟨[], vmem⟩ (pre.map .add)).2 = m at hlen hnew
  have hadd : (m.op (.add b)).1.1 = 0 := by
    simp only [Lamps.op]
    rw [if_neg]
    rw [List.length_nil, Nat.zero_add] at hlen
    omega
  have hleaves : ∀ op ∈ frameOps post n, op.Leaves b.location := by
    intro op hop
    rcases mem_frameOps hop with rfl | ⟨c, hc, rfl⟩
    · exact trivial
    · exact hpost c hc
  have hshows := Lamps.add_screen hnew hadd hleaves
  rwa [ticks_frameOps] at hshows

/-- **No request fails** while there is room for the characters added. -/
theorem Lamps.frameOps_answers (n : Nat) : ∀ {adds : List BlinkStruct} {m : Lamps},
    m.lamps.length + adds.length ≤ 2000 → (∀ b ∈ adds, b.location.toNat < 2000) →
    ∀ r ∈ (m.runOps (frameOps adds n)).1, r = (0, none) := by
  intro adds
  induction adds with
  | nil =>
      intro m hroom hloc
      clear hroom hloc
      induction n generalizing m with
      | zero => exact fun r hr => absurd hr List.not_mem_nil
      | succ n ih =>
          intro r hr
          rcases List.mem_cons.mp hr with rfl | hr
          · rfl
          · exact ih r hr
  | cons b adds ih =>
      intro m hroom hloc r hr
      have hb := hloc b List.mem_cons_self
      rw [List.length_cons] at hroom
      have hadd : m.op (.add b) =
          ((0, none), ⟨b.fresh :: m.lamps, store m.screen b.fresh.cell b.onChar⟩) :=
        if_neg (by omega)
      rcases List.mem_cons.mp hr with rfl | hr
      · rw [hadd]
      · rw [hadd] at hr
        refine ih ?_ (fun c hc => hloc c (List.mem_cons_of_mem b hc)) r hr
        rw [List.length_cons]
        omega

/-- The places of the characters added are all different, so there is room for them. -/
theorem overlays_length (blink : BlinkStruct) {content0 content1 : List Byte}
    (h0 : FitsScreen content0) (h1 : FitsScreen content1) :
    (overlays blink 0 (linesOf content0) (linesOf content1)).length ≤ 2000 := by
  have hnd : ((overlays blink 0 (linesOf content0) (linesOf content1)).map
      fun b => b.location.toNat).Nodup := by
    refine List.pairwise_map.mpr ((overlays_pairwise blink h0 h1).imp ?_)
    intro b c hlt
    exact Nat.ne_of_lt hlt
  have hsub : List.Subperm _ (List.range 2000) := hnd.subperm <| by
    intro k hk
    obtain ⟨b, hb, rfl⟩ := List.mem_map.mp hk
    obtain ⟨row, col, hr, hc, hcell⟩ := mem_overlays h0 h1 hb
    rw [List.mem_range, (frameCell_some hcell hr hc).1]
    omega
  have hle := hsub.length_le
  rwa [List.length_map, List.length_range] at hle

/-- What is added lies on the screen, and not at location 0. -/
theorem overlays_location {blink b : BlinkStruct} {content0 content1 : List Byte}
    (h0 : FitsScreen content0) (h1 : FitsScreen content1)
    (hb : b ∈ overlays blink 0 (linesOf content0) (linesOf content1)) :
    0 < b.location.toNat ∧ b.location.toNat < 2000 := by
  obtain ⟨row, col, hr, hc, hcell⟩ := mem_overlays h0 h1 hb
  rw [(frameCell_some hcell hr hc).1]
  exact ⟨by omega, by omega⟩

theorem frameOps_notZero {blink : BlinkStruct} {content0 content1 : List Byte} {n : Nat}
    (h0 : FitsScreen content0) (h1 : FitsScreen content1) :
    ∀ op ∈ frameOps (overlays blink 0 (linesOf content0) (linesOf content1)) n, op.NotZero := by
  intro op hop
  rcases mem_frameOps hop with rfl | ⟨b, hb, rfl⟩
  · exact trivial
  · intro hb0
    have hpos := (overlays_location h0 h1 hb).1
    rw [show b.location = 0 from hb0] at hpos
    exact absurd hpos (by decide)

/-- Nothing is added at a blank place, since a place is a row and a column. -/
theorem frameOps_leaves {blink : BlinkStruct} {content0 content1 : List Byte} {n row col : Nat}
    (h0 : FitsScreen content0) (h1 : FitsScreen content1) (hr : row < 25) (hc : col < 40)
    (hblank : frameChar content0 row col = 0x20 ∧ frameChar content1 row col = 0x20) :
    ∀ op ∈ frameOps (overlays blink 0 (linesOf content0) (linesOf content1)) n,
      op.Leaves (BitVec.ofNat 16 (row * 80 + col + 40)) := by
  intro op hop
  rcases mem_frameOps hop with rfl | ⟨b, hb, rfl⟩
  · exact trivial
  · obtain ⟨row', col', hr', hc', hcell⟩ := mem_overlays h0 h1 hb
    obtain ⟨hloc, -, -, -, -, hshown⟩ := frameCell_some hcell hr' hc'
    intro heq
    rw [show b.location = BitVec.ofNat 16 (row * 80 + col + 40) from heq, BitVec.toNat_ofNat,
      Nat.mod_eq_of_lt (by omega)] at hloc
    obtain ⟨rfl, rfl⟩ : row = row' ∧ col = col' := ⟨by omega, by omega⟩
    exact hshown hblank

/--
**The fish alternates between its frames.** For any two files that fit into the right half
of the screen, `add_frames` comes to an end, every character it asks for is added, no tick
fails either, and after any number of ticks each cell of that half shows the first file for
fifteen ticks, the second for fifteen, and so on; a place blank in both is never drawn at all.
-/
theorem fish_alternates_frames (vmem : Mem) (blink : BlinkStruct) (content0 content1 : List Byte)
    (fuel n : Nat) (hf : max content0.length content1.length + 1 < fuel)
    (h0 : FitsScreen content0) (h1 : FitsScreen content1) :
    ∃ adds rs s, addFrames fuel blink content0 content1 = some adds ∧
      (Fish.start vmem).runOps 2000 (frameOps adds n) = some (rs, s) ∧
      (∀ r ∈ rs, r = ⟨0, none⟩) ∧
      ∀ row col, row < 25 → col < 40 →
        s.vmem (2 * (row * 80 + col + 40)) =
          if frameChar content0 row col = 0x20 ∧ frameChar content1 row col = 0x20 then
            vmem (2 * (row * 80 + col + 40))
          else if n % 30 < 15 then frameChar content0 row col else frameChar content1 row col := by
  have hpw := overlays_pairwise blink h0 h1
  have hlen := overlays_length blink h0 h1
  obtain ⟨rs, s, hrun, hseen, hs⟩ :=
    (Fish.start_shows vmem).run (Nat.le_refl 2000) (frameOps_notZero h0 h1)
  refine ⟨_, rs, s, addFrames_eq blink content0 content1 hf, hrun, ?_, ?_⟩
  · intro r hr
    have hanswer : r.seen ∈ rs.map FishReply.seen := List.mem_map_of_mem hr
    rw [hseen] at hanswer
    have hzero := Lamps.frameOps_answers (m := ⟨[], vmem⟩) n
      (by rw [List.length_nil, Nat.zero_add]; exact hlen)
      (fun b hb => (overlays_location h0 h1 hb).2) _ hanswer
    obtain ⟨eax, out⟩ := r
    obtain ⟨heax, hout⟩ := Prod.mk.inj hzero
    rw [show eax = 0 from heax, show out = none from Option.map_eq_none_iff.mp hout]
  intro row col hr hc
  rw [hs.screen]
  by_cases hblank : frameChar content0 row col = 0x20 ∧ frameChar content1 row col = 0x20
  · rw [if_pos hblank]
    have hplace : (BitVec.ofNat 16 (row * 80 + col + 40)).toNat = row * 80 + col + 40 := by
      rw [BitVec.toNat_ofNat, Nat.mod_eq_of_lt (by omega)]
    rw [← hplace]
    exact Lamps.run_screen_none (frameOps_leaves h0 h1 hr hc hblank) rfl
  · obtain ⟨b, hcell⟩ : ∃ b, frameCell blink row col (frameChar content0 row col)
        (frameChar content1 row col) = some b := by
      unfold frameCell
      rw [if_pos (by tauto)]
      exact ⟨_, rfl⟩
    obtain ⟨hloc, hon, hoff, honl, hoffl, -⟩ := frameCell_some hcell hr hc
    obtain ⟨pre, post, hsplit⟩ := List.append_of_mem (overlays_mem hcell)
    rw [hsplit] at hpw hlen ⊢
    rw [List.length_append, List.length_cons] at hlen
    obtain ⟨-, hbpost, hprepost⟩ := List.pairwise_append.mp hpw
    have hshows := Lamps.frameOps_screen vmem pre post b n (by omega) (by omega)
      (fun c hc heq => absurd (hprepost c hc b List.mem_cons_self) (by rw [heq]; omega))
      (fun c hc heq => absurd ((List.pairwise_cons.mp hbpost).1 c hc) (by rw [heq]; omega))
    rw [hloc, hon, hoff, honl, hoffl] at hshows
    rw [if_neg hblank]
    exact hshows

/-- Frames of one line, `><>` and `<`, ninety-five ticks on. -/
theorem fish_alternates_frames_small :
    ∃ adds rs s, addFrames 6 .zero [0x3E, 0x3C, 0x3E] [0x3C] = some adds ∧
      (Fish.start fun _ => 0).runOps 2000 (frameOps adds 95) = some (rs, s) ∧
      (∀ r ∈ rs, r = ⟨0, none⟩) ∧
      ∀ row col, row < 25 → col < 40 →
        s.vmem (2 * (row * 80 + col + 40)) =
          if frameChar [0x3E, 0x3C, 0x3E] row col = 0x20 ∧ frameChar [0x3C] row col = 0x20 then 0
          else if 95 % 30 < 15 then frameChar [0x3E, 0x3C, 0x3E] row col
          else frameChar [0x3C] row col :=
  fish_alternates_frames (fun _ => 0) .zero [0x3E, 0x3C, 0x3E] [0x3C] 6 95 (by decide)
    ⟨by decide, by decide⟩ ⟨by decide, by decide⟩

end Zbiggie
