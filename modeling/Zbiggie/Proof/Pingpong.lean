import Zbiggie.Proof.Drawing
import Zbiggie.Proof.Printf
import Zbiggie.Proof.TextOutput
import Zbiggie.User.Pingpong

/-!
# Where the character is

Two nested loops and an edge case say how the character of the pingpong program moves.
Seen from outside there is a frame for each tick: frame `n` has the letter `letterOf n` at
`ballAt n`, a wave of 152 frames. The loops keep the walls (`Walled`) and redraw all else.

A frame is a row of the screen and a line break, so that the terminal shows the last 24 of
them, one above the other; and it shows them whether or not it is on display.
-/

namespace Zbiggie.Pingpong

open Machine Proof

/-! ## The wave -/

/-- Where the character is in frame `n`. -/
def ballAt (n : Nat) : Nat := if n % 152 < 76 then 2 + n % 152 else 153 - n % 152

/-- What it is. -/
def letterOf (n : Nat) : Byte := BitVec.ofNat 8 (0x41 + n / 152 % 26)

/-- A row: the walls, and `c` at `j`. -/
def court (c : Byte) (j : Nat) : List Byte :=
  (List.range 79).map fun x => if x = 1 ∨ x = 78 then 0x7C else if x = j then c else 0x20

/-- Frame `n`. -/
def ballRow (n : Nat) : List Byte := court (letterOf n) (ballAt n)

theorem letterOf_toNat (n : Nat) : (letterOf n).toNat = 0x41 + n / 152 % 26 := by
  have hlt : n / 152 % 26 < 26 := Nat.mod_lt _ (by decide)
  unfold letterOf
  rw [BitVec.toNat_ofNat]
  omega

/-- A letter is none of the characters that mean something. -/
theorem letterOf_ne (n : Nat) {b : Byte} (hb : b.toNat < 0x41) : letterOf n ≠ b := by
  intro h
  have hnat := letterOf_toNat n
  rw [h] at hnat
  omega

theorem nextChar_letterOf (r : Nat) : nextChar (letterOf (152 * r)) = letterOf (152 * (r + 1)) := by
  have h1 := letterOf_toNat (152 * r)
  have h2 := letterOf_toNat (152 * (r + 1))
  rw [Nat.mul_div_cancel_left _ (by decide)] at h1 h2
  unfold nextChar endchar startchar
  by_cases hz : letterOf (152 * r) = 0x5A
  · have hz' : (letterOf (152 * r)).toNat = 0x5A := congrArg BitVec.toNat hz
    rw [if_pos hz]
    refine BitVec.eq_of_toNat_eq ?_
    rw [h2]
    show 0x41 = _
    omega
  · have hz' : (letterOf (152 * r)).toNat ≠ 0x5A := fun h => hz (BitVec.eq_of_toNat_eq h)
    rw [if_neg hz]
    refine BitVec.eq_of_toNat_eq ?_
    rw [BitVec.toNat_add, h2]
    show ((letterOf (152 * r)).toNat + 1) % 256 = _
    omega

theorem court_length (c : Byte) (j : Nat) : (court c j).length = 79 := by
  unfold court
  rw [List.length_map, List.length_range]

theorem court_getD (c : Byte) (j : Nat) {x : Nat} (hx : x < 79) : (court c j).getD x 0
    = if x = 1 ∨ x = 78 then 0x7C else if x = j then c else 0x20 := by
  unfold court
  rw [List.getD_eq_getElem _ _ (by simpa using hx), List.getElem_map, List.getElem_range]

theorem mem_court {c b : Byte} {j : Nat} (hb : b ∈ court c j) : b = 0x7C ∨ b = c ∨ b = 0x20 := by
  obtain ⟨x, -, rfl⟩ := List.mem_map.mp hb
  split
  · exact .inl rfl
  · split
    · exact .inr (.inl rfl)
    · exact .inr (.inr rfl)

/-! ## The loops -/

/-- The buffer outside the court, as it stays. -/
structure Walled (buf : Mem) : Prop where
  edge : buf 0 = 0x20
  left : buf 1 = 0x7C
  right : buf 78 = 0x7C
  nl : buf 79 = 0x0A
  nul : buf 80 = 0

theorem walled_walls (buf : Mem) : Walled (walls buf) := by
  have hblank : forLoop bufmax (fun i buf => store buf i 0x20) buf
      = memcpy buf 0 (fun _ => 0x20) bufmax := by
    unfold memcpy
    simp only [Nat.zero_add]
  unfold walls
  rw [hblank]
  refine ⟨?_, ?_, ?_, ?_, ?_⟩ <;>
    simp [store, memcpy_apply, bufmax, screenwidth, ending, start]

/-- The calls of a frame. -/
def shot (c : Byte) (j : Nat) : List Act := [.wrote (court c j ++ [0x0A]), .waited]

section Loops

variable {c : Byte} {buf : Mem}

/-- The buffer with the character drawn. -/
def drawn (c : Byte) (j : Nat) (buf : Mem) : Mem := store (memcpy buf 2 (fun _ => 0x20) 76) j c

theorem drawn_apply (c : Byte) (j : Nat) (buf : Mem) (x : Nat) :
    drawn c j buf x = if x = j then c else if 2 ≤ x ∧ x < 78 then 0x20 else buf x := by
  unfold drawn store
  rw [Function.update_apply, memcpy_apply]

/-- What lies outside the court is left alone. -/
theorem drawn_outside {j : Nat} (hj : 2 ≤ j ∧ j < 78) {x : Nat} (hx : x < 2 ∨ 78 ≤ x) :
    drawn c j buf x = buf x := by
  rw [drawn_apply, if_neg (by omega), if_neg (by omega)]

theorem Walled.drawn (h : Walled buf) {j : Nat} (hj : 2 ≤ j ∧ j < 78) :
    Walled (Pingpong.drawn c j buf) where
  edge := (drawn_outside hj (by omega)).trans h.edge
  left := (drawn_outside hj (by omega)).trans h.left
  right := (drawn_outside hj (by omega)).trans h.right
  nl := (drawn_outside hj (by omega)).trans h.nl
  nul := (drawn_outside hj (by omega)).trans h.nul

/-- The buffer is the row, its line break and a terminator. -/
theorem Walled.holds (h : Walled buf) {j : Nat} (hj : 2 ≤ j ∧ j < 78) :
    Holds (Pingpong.drawn c j buf) (court c j ++ [0x0A]) := by
  intro x hx
  rw [List.length_append, court_length, List.length_singleton] at hx
  unfold cstr
  by_cases hin : x < 79
  · rw [List.getD_append _ _ _ _ (by rw [court_length]; exact hin), court_getD c j hin]
    by_cases hwall : x = 1 ∨ x = 78
    · rw [if_pos hwall, drawn_outside hj (by omega)]
      rcases hwall with rfl | rfl
      · exact h.left
      · exact h.right
    · rw [if_neg hwall, drawn_apply]
      by_cases hball : x = j
      · rw [if_pos hball, if_pos hball]
      · rw [if_neg hball, if_neg hball]
        by_cases hinner : 2 ≤ x ∧ x < 78
        · rw [if_pos hinner]
        · obtain rfl : x = 0 := by omega
          exact h.edge
  · rw [List.getD_append_right _ _ _ _ (by rw [court_length]; omega), court_length,
      drawn_outside hj (by omega)]
    rcases (show x = 79 ∨ x = 80 by omega) with rfl | rfl
    · exact h.nl
    · exact h.nul

theorem zero_not_mem_court (hc : c ≠ 0) (j : Nat) : 0 ∉ court c j ++ [0x0A] := by
  intro hmem
  rcases List.mem_append.mp hmem with hmem | hmem
  · rcases mem_court hmem with h | h | h
    · exact absurd h (by decide)
    · exact hc h.symm
    · exact absurd h (by decide)
  · exact absurd (List.mem_singleton.mp hmem) (by decide)

/-- **A frame.** -/
theorem frame_spec (h : Walled buf) (hc : c ≠ 0) {j : Nat} (hj : 2 ≤ j ∧ j < 78) :
    frame c j buf = (shot c j, Pingpong.drawn c j buf) := by
  have hputs : puts (Pingpong.drawn c j buf) = court c j ++ [0x0A] := by
    refine puts_of_holds (h.holds hj) (zero_not_mem_court hc j) ?_
    rw [List.length_append, court_length]
    decide
  unfold frame shot
  rw [← hputs]
  rfl

/-- **Up the court.** -/
theorem moveOut_eq (hc : c ≠ 0) : ∀ (n : Nat) {buf : Mem}, n ≤ 76 → Walled buf → ∃ buf',
    Walled buf' ∧ moveOut c n buf = ((List.range' (78 - n) n).flatMap (shot c), buf') := by
  intro n
  induction n with
  | zero => intro buf _ h; exact ⟨buf, h, rfl⟩
  | succ n ih =>
      intro buf hn h
      have hj : loopmax - (n + 1) = 78 - (n + 1) := rfl
      have hin : 2 ≤ 78 - (n + 1) ∧ 78 - (n + 1) < 78 := by omega
      obtain ⟨buf2, h2, hrest⟩ := ih (by omega) (h.drawn (c := c) hin)
      refine ⟨buf2, h2, ?_⟩
      rw [moveOut, hj, frame_spec h hc hin]
      dsimp only
      rw [hrest, List.range'_succ, List.flatMap_cons, show 78 - (n + 1) + 1 = 78 - n by omega]

/-- **And down again.** -/
theorem bounceBack_eq (hc : c ≠ 0) : ∀ (n : Nat) {buf : Mem}, n ≤ 76 → Walled buf → ∃ buf',
    Walled buf' ∧ bounceBack c n buf = ((List.range' 2 n).reverse.flatMap (shot c), buf') := by
  intro n
  induction n with
  | zero => intro buf _ h; exact ⟨buf, h, rfl⟩
  | succ n ih =>
      intro buf hn h
      have hj : startloop + n = 2 + n := rfl
      have hin : 2 ≤ 2 + n ∧ 2 + n < 78 := by omega
      obtain ⟨buf2, h2, hrest⟩ := ih (by omega) (h.drawn (c := c) hin)
      refine ⟨buf2, h2, ?_⟩
      rw [bounceBack, hj, frame_spec h hc hin]
      dsimp only
      rw [hrest, List.range'_1_concat, List.reverse_append, List.reverse_singleton,
        List.singleton_append, List.flatMap_cons]

end Loops

/-- The positions of one round. -/
theorem map_ballAt :
    (List.range 152).map ballAt = List.range' 2 76 ++ (List.range' 2 76).reverse := by
  decide +kernel

theorem round_eq (r : Nat) :
    (List.range' (152 * r) 152).flatMap (fun n => shot (letterOf n) (ballAt n))
    = (List.range' 2 76).flatMap (shot (letterOf (152 * r))) ++
      (List.range' 2 76).reverse.flatMap (shot (letterOf (152 * r))) := by
  have hshot : ∀ p ∈ List.range 152, shot (letterOf (152 * r + p)) (ballAt (152 * r + p))
      = shot (letterOf (152 * r)) (ballAt p) := by
    intro p hp
    have hlt : p < 152 := List.mem_range.mp hp
    have hball : ballAt (152 * r + p) = ballAt p := by
      unfold ballAt
      rw [Nat.mul_add_mod]
    have hletter : letterOf (152 * r + p) = letterOf (152 * r) := by
      unfold letterOf
      rw [Nat.mul_add_div (by decide), Nat.div_eq_of_lt hlt, Nat.mul_div_cancel_left _ (by decide)]
      rfl
    rw [hball, hletter]
  rw [← List.flatMap_append, ← map_ballAt, List.flatMap_map, List.range'_eq_map_range,
    List.flatMap_map]
  exact List.flatMap_congr hshot

/-- **The rounds**, each with the next letter. -/
theorem rounds_eq : ∀ (n r : Nat) {buf : Mem}, Walled buf → rounds n (letterOf (152 * r)) buf
    = (List.range' (152 * r) (152 * n)).flatMap fun i => shot (letterOf i) (ballAt i) := by
  intro n
  induction n with
  | zero => intro r buf _; rfl
  | succ n ih =>
      intro r buf h
      have hc : letterOf (152 * r) ≠ 0 := letterOf_ne _ (by decide)
      have hlen : loopmax - startloop = 76 := rfl
      obtain ⟨buf1, h1, hout⟩ := moveOut_eq hc 76 (Nat.le_refl _) h
      obtain ⟨buf2, h2, hback⟩ := bounceBack_eq hc 76 (Nat.le_refl _) h1
      rw [rounds, hlen, hout]
      dsimp only
      rw [hback]
      dsimp only
      rw [nextChar_letterOf, ih (r + 1) h2, Nat.mul_succ 152 n, Nat.add_comm (152 * n) 152,
        ← List.range'_append_1, List.flatMap_append, round_eq, Nat.mul_succ 152 r]

/--
**The program, for ever.** Whatever its buffer holds at the start, it opens the clock and sets
it to 32, and then writes a frame and waits for a tick, frame `n` being the letter `letterOf n`
at `ballAt n` between two walls.
-/
theorem pingpong_frames (n : Nat) (buf : Mem) : main n buf = .opened rtcName :: .setRate 32 ::
    (List.range (152 * n)).flatMap fun i => [.wrote (ballRow i ++ [0x0A]), .waited] := by
  unfold main
  rw [show startchar = letterOf (152 * 0) from rfl, rounds_eq n 0 (walled_walls buf),
    List.range_eq_range']
  rfl

/-! ## On the screen -/

/-- What frame `n` writes. -/
def ballLine (n : Nat) : List Byte := ballRow n ++ [0x0A]

/-- The first `n` frames, written one after the other. -/
def framesWritten (L : Layout) (n : Nat) (k : Kernel) : Kernel :=
  (List.range n).foldl (fun k i => termWrite L (ballLine i) k) k

theorem framesWritten_succ (L : Layout) (n : Nat) (k : Kernel) :
    framesWritten L (n + 1) k = termWrite L (ballLine n) (framesWritten L n k) := by
  unfold framesWritten
  rw [List.range_succ, List.foldl_append]
  rfl

theorem not_break_ballRow {n : Nat} {b : Byte} (hb : b ∈ ballRow n) : ¬ IsBreak b := by
  unfold IsBreak
  rcases mem_court hb with rfl | rfl | rfl
  · decide
  · have h1 := letterOf_ne n (b := 0x0A) (by decide)
    have h2 := letterOf_ne n (b := 0x0D) (by decide)
    exact fun h => h.elim h1 h2
  · decide

/-- **Frames are rows**, behind any text that ended its line. -/
theorem rowsOf_frames (s : List Byte) (n : Nat) :
    rowsOf (s ++ 0x0A :: (List.range n).flatMap ballLine)
      = rowsOf s ++ ((List.range n).map ballRow ++ [[]]) := by
  have hlines : (List.range n).flatMap ballLine
      = ((List.range n).map ballRow).flatMap fun l => l ++ [0x0A] := by
    rw [List.flatMap_map]
    rfl
  unfold rowsOf
  rw [textRows_append_cons (by decide), hlines, textRows_lines (by decide) (by decide)]
  · intro l hl b hb
    obtain ⟨i, -, rfl⟩ := List.mem_map.mp hl
    exact decide_eq_false (not_break_ballRow hb)
  · intro l hl
    obtain ⟨i, -, rfl⟩ := List.mem_map.mp hl
    rw [ballRow, court_length]
    decide

/--
The page at `P` shows the last of `n` frames, as many as 24, in the rows above the cursor of
`a`, the latest one lowest.
-/
structure ShowsFrames (k : Kernel) (a : Term) (P n : Nat) : Prop where
  column : k.screen.screenX a = 0
  above : (Min.min n 24 : Nat) ≤ k.screen.screenY a
  onScreen : k.screen.screenY a < 25
  cells : ∀ d x : Nat, d < Min.min n 24 → x < 79 →
    k.ram (P + 2 * (80 * ((k.screen.screenY a).toNat - 1 - d) + x)) = (ballRow (n - 1 - d)).getD x 0

theorem showsFrames_of_text {k : Kernel} {a : Term} {s : List Byte} {n : Nat}
    (h : ShowsText k a (s ++ 0x0A :: (List.range n).flatMap ballLine)) :
    ShowsFrames k a offsetVideo n := by
  obtain ⟨rows, hrows⟩ : ∃ rows, rows = rowsOf s ++ (List.range n).map ballRow := ⟨_, rfl⟩
  have hall : rowsOf (s ++ 0x0A :: (List.range n).flatMap ballLine) = rows ++ [[]] := by
    rw [rowsOf_frames, hrows, List.append_assoc]
  have hlen : rows.length = (rowsOf s).length + n := by
    rw [hrows, List.length_append, List.length_map, List.length_range]
  have hget : ∀ i, (rowsOf s).length ≤ i → i < rows.length →
      rows.getD i [] = ballRow (i - (rowsOf s).length) := by
    intro i hle hlt
    rw [hrows, List.getD_append_right _ _ _ _ hle, List.getD_eq_getElem _ _ (by
      rw [List.length_map, List.length_range]
      omega), List.getElem_map, List.getElem_range]
  have hshown : shownRows (s ++ 0x0A :: (List.range n).flatMap ballLine)
      = rows.drop (rows.length + 1 - 25) ++ [[]] := by
    unfold shownRows
    rw [hall, List.length_append, List.length_singleton,
      List.drop_append_of_le_length (by omega)]
  have hx := h.screenX
  have hy := h.screenY
  rw [hshown] at hx hy
  rw [List.getLastD_concat] at hx
  rw [List.length_append, List.length_singleton, List.length_drop] at hy
  refine ⟨hx, by omega, by omega, ?_⟩
  intro d x hd hx'
  obtain ⟨y, hyd⟩ : ∃ y, y = (k.screen.screenY a).toNat - 1 - d := ⟨_, rfl⟩
  have hdropped : y < (rows.drop (rows.length + 1 - 25)).length := by
    rw [List.length_drop]
    omega
  -- the row `d` above the last one
  have hrow : (rows.drop (rows.length + 1 - 25)).getD y [] = ballRow (n - 1 - d) := by
    rw [List.getD_eq_getElem _ _ hdropped, List.getElem_drop, ← List.getD_eq_getElem _ [],
      hget _ (by omega) (by omega)]
    congr 1
    omega
  have hcol : x < (ballRow (n - 1 - d)).length := by
    rw [ballRow, court_length]
    exact hx'
  rw [← hyd, h.char x y (by omega) (by omega), hshown, List.getD_append _ _ _ _ hdropped, hrow,
    List.getD_eq_getElem _ _ hcol, List.getD_eq_getElem _ _ hcol]

section Writing

variable {L : Layout} {a : Term} {x xf : Int} {k kb kf : Kernel} {s l : List Byte}

theorem writeFront_kept (L : Layout) (s : List Byte) (k : Kernel) :
    (writeFront L s k).page = k.page ∧ (writeFront L s k).task = k.task := by
  induction s generalizing k with
  | nil => exact ⟨rfl, rfl⟩
  | cons c s ih =>
      have hput := Shows.putc (L := L) (t := k.page.currentTerminal) (k := k) rfl c
      obtain ⟨hpage, htask⟩ := ih (putc L c k)
      exact ⟨hpage.trans hput.page, htask.trans hput.task⟩

/-- On the terminal on display, output goes through `putc`. -/
theorem termWrite_front (L : Layout) (s : List Byte) {k : Kernel}
    (h : k.task.currentActiveProcess = k.page.currentTerminal) :
    termWrite L s k = saveWritePos (writeFront L s k) := by
  have hfold : writeBack L s k = writeFront L s k := by
    induction s generalizing k with
    | nil => rfl
    | cons c s ih =>
        have hput := Shows.putc (L := L) (t := k.page.currentTerminal) (k := k) rfl c
        have hchar : mtPutc L c k = putc L c k := by
          unfold mtPutc
          rw [if_pos h]
        show writeBack L s (mtPutc L c k) = writeFront L s (putc L c k)
        rw [hchar]
        exact ih (by rw [hput.page, hput.task]; exact h)
  exact congrArg saveWritePos hfold

/-- Twins stay twins over a piece of a row. -/
theorem twin_row (hxf : xf < 80) : ∀ {l : List Byte} {x : Int} {kb kf : Kernel},
    Twin L a x xf kb kf → 0 ≤ x → x + l.length < 80 → (∀ c ∈ l, ¬ IsBreak c) →
    Twin L a (x + l.length) xf (writeBack L l kb) (writeFront L l kf) := by
  intro l
  induction l with
  | nil =>
      intro x kb kf h _ _ _
      rw [List.length_nil, Int.natCast_zero, Int.add_zero]
      exact h
  | cons c l ih =>
      intro x kb kf h hx0 hx hplain
      rw [List.length_cons] at hx
      have hc := hplain c List.mem_cons_self
      have hstep := h.step hx0 (by omega) (c := c) (by rw [if_neg hc]; omega)
      rw [if_neg (by omega), if_neg hc] at hstep
      have hrest := ih hstep (by omega) (by omega) fun b hb => hplain b (List.mem_cons_of_mem c hb)
      rw [List.length_cons, show x + ((l.length + 1 : Nat) : Int) = x + 1 + l.length by omega]
      exact hrest

/-- Where output ended is not part of the picture. -/
theorem twin_saveWritePos (h : Twin L a x xf kb kf) :
    Twin L a x xf (saveWritePos kb) (saveWritePos kf) where
  back := h.back.of_page rfl
  active := h.active
  hidden := h.hidden
  displayed := h.displayed
  front := h.front.of_page rfl
  shown := h.shown
  same := h.same
  col := h.col
  row0 := h.row0
  row1 := h.row1

/-- **A line** takes twins to twins, from the start of a row to the start of the next. -/
theorem twin_line (h : Twin L a 0 xf kb kf) (hxf : xf < 80)
    (hactive : kf.task.currentActiveProcess = a) (hlen : l.length < 80)
    (hplain : ∀ c ∈ l, ¬ IsBreak c) :
    Twin L a 0 xf (termWrite L (l ++ [0x0A]) kb) (termWrite L (l ++ [0x0A]) kf) := by
  have hbreak : IsBreak 0x0A := .inl rfl
  have hrow := twin_row hxf h (Int.le_refl 0) (by omega) hplain
  have hnl := hrow.step (by omega) (by omega) (c := 0x0A) (by rw [if_pos hbreak]; omega)
  rw [if_neg (by omega), if_pos hbreak] at hnl
  have hfront := termWrite_front L (l ++ [0x0A]) (hactive.trans h.shown.symm)
  have hback : termWrite L (l ++ [0x0A]) kb = saveWritePos (writeBack L (l ++ [0x0A]) kb) := rfl
  rw [hfront, hback]
  unfold writeBack writeFront at hnl ⊢
  rw [List.foldl_append, List.foldl_append]
  exact twin_saveWritePos hnl

/-- A terminal on display with a text on it, in which output is to be written. -/
structure Writing (L : Layout) (a : Term) (s : List Byte) (k : Kernel) : Prop where
  mapped : Mapped L k videoMem offsetVideo
  shown : k.page.currentTerminal = a
  active : k.task.currentActiveProcess = a
  laid : LaidOut (attribs a) (rowsOf s) (viewOf k a offsetVideo)

theorem Writing.write (h : Writing L a s k) (l : List Byte) :
    Writing L a (s ++ l) (termWrite L l k) := by
  obtain ⟨hpage, htask⟩ := writeFront_kept L l k
  rw [termWrite_front L l (h.active.trans h.shown.symm)]
  refine ⟨?_, ?_, ?_, laidOut_text h.mapped h.shown h.laid l⟩
  · exact h.mapped.of_page hpage
  · exact (congrArg Paging.currentTerminal hpage).trans h.shown
  · exact (congrArg Tasking.currentActiveProcess htask).trans h.active

/-- The text after `n` frames. -/
theorem Writing.frames (hw : Writing L a s kf) : ∀ n,
    Writing L a (s ++ (List.range n).flatMap ballLine) (framesWritten L n kf) := by
  intro n
  induction n with
  | zero =>
      rw [List.range_zero, List.flatMap_nil, List.append_nil]
      exact hw
  | succ n ih =>
      rw [framesWritten_succ, List.range_succ, List.flatMap_append, List.flatMap_singleton,
        ← List.append_assoc]
      exact ih.write _

/-- Twins after `n` frames. -/
theorem twin_frames (h : Twin L a 0 xf kb kf) (hxf : xf < 80) (hw : Writing L a s kf) : ∀ n,
    Twin L a 0 xf (framesWritten L n kb) (framesWritten L n kf) := by
  intro n
  induction n with
  | zero => exact h
  | succ n ih =>
      rw [framesWritten_succ, framesWritten_succ]
      refine twin_line ih hxf (hw.frames n).active ?_ fun c hc => not_break_ballRow hc
      rw [ballRow, court_length]
      decide

/-- The same picture in the other machine. -/
theorem ShowsFrames.of_sameOutcome {n : Nat} (hsame : SameOutcome a kb kf)
    (h : ShowsFrames kf a offsetVideo n) : ShowsFrames kb a (bufferPage a) n where
  column := hsame.x.trans h.column
  above := by
    rw [hsame.y]
    exact h.above
  onScreen := by
    rw [hsame.y]
    exact h.onScreen
  cells := by
    intro d x hd hx
    have hon := h.onScreen
    rw [hsame.y, hsame.cells _ (by simp only [numCols, numRows]; omega)]
    exact h.cells d x hd hx

/--
**The picture.** From a screen that ends in a complete line, whatever is on it, any number of
frames leaves the last 24 of them in the rows above the cursor, the latest one lowest. It is
the same picture on the page of a terminal that is not on display.
-/
theorem pingpong_on_screen (hw : Writing L a (s ++ [0x0A]) kf) (n : Nat) :
    ShowsFrames (framesWritten L n kf) a offsetVideo n ∧
      ∀ xf kb, xf < 80 → Twin L a 0 xf kb kf →
        ShowsFrames (framesWritten L n kb) a (bufferPage a) n := by
  have htext := (hw.frames n).laid.showsText
  rw [List.append_assoc, List.singleton_append] at htext
  have hfront := showsFrames_of_text htext
  refine ⟨hfront, ?_⟩
  intro xf kb hxf h
  exact hfront.of_sameOutcome (sameOutcome_of_view (twin_frames h hxf hw n).same)

end Writing

/-- Memory in which every page is a cleared screen of terminal 0. -/
def wiped : Mem := fun i => if i % 2 = 1 then attribs 0 else 0x20

/-- Terminal 0 with the cursor in its second row, on display and in the background. -/
def wipedFront : Kernel := withRam (emptyFront someLayout 0 0 1) wiped
def wipedBack : Kernel := withRam (emptyBack someLayout 0 0 1 0) wiped

theorem twin_wiped : Twin someLayout 0 0 0 wipedBack wipedFront := by
  have h := twin_empty someLayout 0 0 0 (y := 1) (by decide) (by decide)
  have hcells : ∀ i : Nat, wiped (bufferPage 0 + i) = wiped (offsetVideo + i) := by
    intro i
    have hparity : (bufferPage 0 + i) % 2 = (offsetVideo + i) % 2 := by
      simp only [bufferPage, offsetVideo, numPds, offset4M, offset4K]
      omega
    unfold wiped
    rw [hparity]
  refine ⟨h.back.of_page rfl, h.active, h.hidden, h.displayed, h.front.of_page rfl, h.shown, ?_,
    h.col, h.row0, h.row1⟩
  have hback : viewOf wipedBack 0 (bufferPage 0)
      = ⟨0, 1, fun i => wiped (bufferPage 0 + i.val)⟩ := rfl
  have hfront : viewOf wipedFront 0 offsetVideo
      = ⟨0, 1, fun i => wiped (offsetVideo + i.val)⟩ := rfl
  have hzero : bufferPage (0 : Term) = bufferPage 0 := rfl
  rw [hzero, hback, hfront]
  simp only [hcells]

theorem writing_wiped : Writing someLayout 0 ([] ++ [0x0A]) wipedFront := by
  have hrows : rowsOf ([] ++ [0x0A]) = [[]] ++ [[]] := by
    have hnil := rowsOf_nil
    unfold rowsOf at hnil ⊢
    rw [textRows_append_cons (by decide), hnil]
  refine ⟨twin_wiped.front, rfl, rfl, [[]], [], hrows, ?_⟩
  rw [hrows]
  refine ⟨rfl, rfl, Nat.zero_le _, ?_⟩
  intro i hi
  have hparity : (offsetVideo + i.val) % 2 = i.val % 2 := by
    simp only [offsetVideo]
    omega
  show wiped (offsetVideo + i.val) = pageByte (attribs 0) ([] ++ [[]] ++ [[]]) 0 i.val
  rw [pageByte_nil, pageByte_nil]
  unfold wiped pageByte blankOf
  rw [hparity, List.getD_nil, List.getD_nil, if_pos (show i.val / 160 + 0 < 25 by omega)]

/-- A hundred frames. -/
theorem pingpong_on_screen_hundred :
    ShowsFrames (framesWritten someLayout 100 wipedFront) 0 offsetVideo 100 ∧
      ShowsFrames (framesWritten someLayout 100 wipedBack) 0 (bufferPage 0) 100 :=
  have h := pingpong_on_screen writing_wiped 100
  ⟨h.1, h.2 0 wipedBack (by decide) twin_wiped⟩

end Zbiggie.Pingpong
