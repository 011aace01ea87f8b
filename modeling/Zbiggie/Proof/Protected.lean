import Zbiggie.Proof.ScreenFrame

/-!
# Output is out of reach of the keyboard

`term_write` leaves behind where it ended, so that "the user can't backspace over what we
wrote". Of the routines a key reaches only Backspace and Left look at that position; the
others draw at the cursor and rely on it being behind. `Behind` is what they rely on: the
cursor is at the write position or behind it, and no further behind than the position in the
line. No key but Enter, Down and Ctrl-L can leave it, whatever the history: a scroll takes
the write position up along with everything else, and since no line is longer than 127
characters, it does not go off the screen.
-/

namespace Zbiggie.Proof

open Zbiggie Machine

/-! ## The keys -/

/-- What a key can ask of the terminal on display. -/
inductive TermKey where
  | char (c : Byte)
  | left
  | right
  | up
  | down
  | clear

/-- What the terminal does. -/
def strike (L : Layout) (k : Kernel) : TermKey → Kernel
  | .char c => termPutc L c k
  | .left => termMoveLeft k
  | .right => termMoveRight k
  | .up => upHist L k
  | .down => downHist L k
  | .clear => termInit (termClear L k)

/-- Alt and a function key, for another terminal. -/
def SwitchKey (inp : Byte) (k : Kernel) : Prop :=
  inp.toNat ∈ [0x3B, 0x3C, 0x3D] ∧ k.keys.altFlag = true

/-- What a scancode comes to: one of these, a change of the flags, or a switch of terminals. -/
inductive Struck (L : Layout) (inp : Byte) (k : Kernel) : Kernel → Prop where
  | flags (keys : Keyboard) : Struck L inp k { k with keys := keys }
  | switch (u : Term) : SwitchKey inp k → Struck L inp k (switchTo L u k)
  | key (e : TermKey) : (e = .up → inp = 0x48) → (e = .down → inp = 0x50) →
      Struck L inp k (strike L k e)

theorem Struck.ite {L : Layout} {inp : Byte} {k a b : Kernel} {p : Prop} [Decidable p]
    (ha : p → Struck L inp k a) (hb : ¬ p → Struck L inp k b) :
    Struck L inp k (if p then a else b) := by
  split
  · exact ha ‹_›
  · exact hb ‹_›

theorem keyChar_struck (L : Layout) (inp : Byte) (k : Kernel) (c : Nat) :
    Struck L inp k (keyChar L c k) := by
  have hchar : ∀ ch, Struck L inp k (termPutc L ch k) :=
    fun ch => .key (.char ch) (fun h => nomatch h) (fun h => nomatch h)
  refine .ite (fun _ => .key .clear (fun h => nomatch h) (fun h => nomatch h)) fun _ => ?_
  exact .ite (fun _ => hchar _) fun _ => .ite (fun _ => hchar _) fun _ => hchar _

/-- **Every scancode.** -/
theorem keyHandler_struck (L : Layout) (inp : Byte) (k : Kernel) :
    Struck L inp k (keyHandler L inp k) := by
  refine .ite (fun _ => .flags k.keys) fun _ => ?_
  refine .ite (fun h => .key .down (fun he => nomatch he) fun _ => toNat_eq_ofNat h) fun _ => ?_
  refine .ite (fun h => .key .up (fun _ => toNat_eq_ofNat h) fun he => nomatch he) fun _ => ?_
  refine .ite (fun _ => .key .left (fun he => nomatch he) fun he => nomatch he) fun _ => ?_
  refine .ite (fun _ => .key .right (fun he => nomatch he) fun he => nomatch he) fun _ => ?_
  -- the modifiers, down and up again
  refine .ite (fun _ => .flags _) fun _ => ?_
  refine .ite (fun _ => .flags _) fun _ => ?_
  refine .ite (fun _ => .flags _) fun _ => ?_
  refine .ite (fun _ => .flags _) fun _ => ?_
  refine .ite (fun _ => .flags _) fun _ => ?_
  refine .ite (fun _ => .flags _) fun _ => ?_
  refine .ite (fun _ => .flags _) fun _ => ?_
  refine .ite (fun _ => .flags _) fun _ => ?_
  refine .ite (fun _ => .flags _) fun _ => ?_
  refine .ite (fun _ => ?_) fun _ => .flags k.keys
  have hswitch : ∀ {n}, n ∈ [0x3B, 0x3C, 0x3D] → inp.toNat = n ∧ k.keys.altFlag = true →
      SwitchKey inp k := fun hn h => ⟨h.1 ▸ hn, h.2⟩
  refine .ite (fun h => .switch 0 (hswitch (by decide) h)) fun _ => ?_
  refine .ite (fun h => .switch 1 (hswitch (by decide) h)) fun _ => ?_
  exact .ite (fun h => .switch 2 (hswitch (by decide) h)) fun _ => keyChar_struck L inp k _

/-- A character, Backspace among them but not Enter, and Left, Right and Up. -/
def TermKey.Edits : TermKey → Prop
  | .char c => ¬ IsBreak c
  | .left => True
  | .right => True
  | .up => True
  | .down => False
  | .clear => False

/-! ## The history -/

/-- A history of commands of printable characters, each in a row of its own. -/
structure Commands (k : Kernel) (t : Term) : Prop where
  place : InHist k t
  rows : ∀ row : Int, 0 ≤ row → row < histSize → ∃ w : List Byte, w.length < bufSize ∧
    (∀ c ∈ w, (Edit.char c).Printable) ∧ ∀ i : Nat, i < bufSize → k.hist t row i = cstr w i

section History

variable {k : Kernel} {t : Term}

theorem Commands.kept {k' : Kernel} (h : Commands k t) (hk : HistKept k k') : Commands k' t := by
  refine ⟨hk.place t h.place, ?_⟩
  intro row h0 h1
  obtain ⟨w, hlen, hw, hbytes⟩ := h.rows row h0 h1
  refine ⟨w, hlen, hw, ?_⟩
  intro i hi
  rw [← hbytes i hi]
  unfold Kernel.hist
  rw [hk.history]

/--
The row the history stands at: a number of printable characters, and a NUL behind the width that
is erased before they are shown.
-/
theorem Commands.standing (h : Commands k t) :
    ∃ n m : Nat, n < 128 ∧ RowFrom k t 0 n ∧
      (∀ j, j < n → ¬ IsBreak (k.hist t (k.term.histIndeces t) j)) ∧
      69 ≤ m ∧ m < 128 ∧ k.hist t (k.term.histIndeces t) m = 0 := by
  obtain ⟨w, hlen, hw, hbytes⟩ := h.rows (k.term.histIndeces t) h.place.1 h.place.2
  simp only [bufSize] at hlen hbytes
  have hprints : ∀ j, j < w.length →
      (Edit.char (k.hist t (k.term.histIndeces t) j)).Printable := by
    intro j hj
    rw [hbytes j (by omega)]
    unfold cstr
    rw [List.getD_eq_getElem _ _ hj]
    exact hw _ (List.getElem_mem hj)
  have hpadded : ∀ j, w.length ≤ j → j < 128 → k.hist t (k.term.histIndeces t) j = 0 := by
    intro j hj hj'
    rw [hbytes j hj']
    exact List.getD_eq_default _ _ hj
  obtain ⟨m, h69, hwm, hm⟩ : ∃ m : Nat, 69 ≤ m ∧ w.length ≤ m ∧ m < 128 :=
    ⟨Nat.max 69 w.length, Nat.le_max_left .., Nat.le_max_right ..,
      Nat.max_lt.mpr ⟨by decide, hlen⟩⟩
  refine ⟨w.length, m, hlen, ⟨?_, ?_⟩, ?_, h69, hm, hpadded m hwm hm⟩
  · intro j hj
    rw [Nat.zero_add]
    exact printable_ne (hprints j hj) (n := 0) (by decide)
  · rw [Nat.zero_add]
    exact hpadded _ (Nat.le_refl _) hlen
  · intro j hj hbreak
    rcases hbreak with hnl | hcr
    · exact printable_ne (hprints j hj) (n := 0x0A) (by decide) hnl
    · exact printable_ne (hprints j hj) (n := 0x0D) (by decide) hcr

end History

/-! ## The invariant -/

/-- The cursor is behind the write position, as far as the position in the line at most. -/
structure Behind (L : Layout) (t : Term) (k : Kernel) : Prop where
  mapped : Mapped L k videoMem offsetVideo
  shown : k.page.currentTerminal = t
  inside : CursorIn k t
  column : 0 ≤ k.term.writeX t ∧ k.term.writeX t < 80
  row : 0 ≤ k.term.writeY t
  place : 0 ≤ k.term.curPos t ∧ k.term.curPos t ≤ 127
  size : k.term.curSize t ≤ 127
  behind : writeCell k t ≤ cursorCell k t
  near : cursorCell k t ≤ writeCell k t + k.term.curPos t
  history : Commands k t

/-- A key does its work: nothing before the write position but scrolls, and the cursor is behind. -/
def Spares (L : Layout) (t : Term) (k k' : Kernel) : Prop :=
  ∃ s, Draws t (writeCell k t) s k k' ∧ Behind L t k'

section Keys

variable {L : Layout} {k : Kernel} {t : Term}

/-- The guard of Left and Backspace compares cells. -/
theorem Behind.pastWrite_iff (h : Behind L t k) :
    pastWrite k t ↔ writeCell k t < cursorCell k t := by
  obtain ⟨h1, h2, h3, h4⟩ := h.inside
  obtain ⟨h5, h6⟩ := h.column
  unfold pastWrite writeCell cursorCell
  simp only [numCols]
  omega

/-- What is left to show of a key that has drawn. -/
theorem Behind.drawn (h : Behind L t k) {k' : Kernel} {s : Nat}
    (hdraws : Draws t (writeCell k t) s k k') (hin : CursorIn k' t) (hrow : 0 ≤ k'.term.writeY t)
    (hplace : 0 ≤ k'.term.curPos t ∧ k'.term.curPos t ≤ 127) (hsize : k'.term.curSize t ≤ 127)
    (hbehind : writeCell k' t ≤ cursorCell k' t)
    (hnear : cursorCell k' t ≤ writeCell k' t + k'.term.curPos t) (hkept : HistKept k k') :
    Spares L t k k' := by
  refine ⟨s, hdraws, hdraws.mapped h.mapped, hdraws.shown h.shown, hin, ?_, hrow, hplace, hsize,
    hbehind, hnear, h.history.kept hkept⟩
  rw [hdraws.writeX]
  exact h.column

/-- A key that draws nothing, wherever it moves the cursor. -/
theorem Behind.moved (h : Behind L t k) {k' : Kernel} (hpage : k'.page = k.page)
    (hram : k'.ram = k.ram) (hx : k'.term.writeX = k.term.writeX)
    (hy : k'.term.writeY = k.term.writeY) (hin : CursorIn k' t)
    (hplace : 0 ≤ k'.term.curPos t ∧ k'.term.curPos t ≤ 127) (hsize : k'.term.curSize t ≤ 127)
    (hbehind : writeCell k t ≤ cursorCell k' t)
    (hnear : cursorCell k' t ≤ writeCell k t + k'.term.curPos t) (hkept : HistKept k k') :
    Spares L t k k' := by
  have hdraws : Draws t (writeCell k t) 0 k k' := .of_ram hpage hram hx hy t _
  have hwrite := hdraws.writeCell
  have hrow : 0 ≤ k'.term.writeY t := by
    rw [hy]
    exact h.row
  exact h.drawn hdraws hin hrow hplace hsize (by omega) (by omega) hkept

theorem Spares.trans {k' k'' : Kernel} (h : Spares L t k k') (h' : Spares L t k' k'') :
    Spares L t k k'' := by
  obtain ⟨s, hdraws, -⟩ := h
  obtain ⟨s', hdraws', hbehind⟩ := h'
  rw [hdraws.writeCell] at hdraws'
  exact ⟨s + s', hdraws.trans hdraws', hbehind⟩

theorem Spares.after {k' : Kernel} (h : Spares L t k k') : Behind L t k' := by
  obtain ⟨-, -, hbehind⟩ := h
  exact hbehind

/-- A key that does nothing. -/
theorem Behind.refl (h : Behind L t k) : Spares L t k k := ⟨0, .refl t _ k, h⟩

theorem Behind.start (h : Behind L t k) : 0 ≤ writeCell k t := by
  have hrow := h.row
  have hcolumn := h.column
  simp only [writeCell, numCols]
  omega

/-- **Left** stops at the write position. -/
theorem spares_left (h : Behind L t k) : Spares L t k (termMoveLeft k) := by
  have hkept : HistKept k (termMoveLeft k) := HistKept.frame.termMoveLeft k
  have hplace := h.place
  have hnear := h.near
  have hstart := h.start
  unfold termMoveLeft at hkept ⊢
  dsimp only at hkept ⊢
  rw [h.shown] at hkept ⊢
  by_cases hgo : k.term.curPos t > 0 ∧ pastWrite k t
  · rw [if_pos hgo] at hkept ⊢
    have hlt := h.pastWrite_iff.mp hgo.2
    obtain ⟨hin, hback, hram, hterm⟩ := moveLeft_cursor h.shown h.inside (by omega)
    have hcell : cursorCell ((moveLeft k).setCurPos t ((moveLeft k).term.curPos t - 1)) t
        = cursorCell k t - 1 := hback
    have hcount : ((moveLeft k).setCurPos t ((moveLeft k).term.curPos t - 1)).term.curPos t
        = k.term.curPos t - 1 := by
      simp [hterm]
    refine h.moved (Shows.moveLeft h.shown).page hram ?_ ?_
      ⟨hin.x0, hin.x1, hin.y0, hin.y1⟩ ?_ ?_ ?_ ?_ hkept
    · simp [hterm]
    · simp [hterm]
    · omega
    · simpa [hterm] using h.size
    · omega
    · omega
  · rw [if_neg hgo]
    exact h.refl

/-- **Right** goes on within the line, and stays on the screen. -/
theorem spares_right (h : Behind L t k) : Spares L t k (termMoveRight k) := by
  have hkept : HistKept k (termMoveRight k) := HistKept.frame.termMoveRight k
  have hplace := h.place
  have hsize := h.size
  have hnear := h.near
  have hbehind := h.behind
  unfold termMoveRight at hkept ⊢
  dsimp only at hkept ⊢
  rw [h.shown] at hkept ⊢
  by_cases hgo : k.term.curPos t < k.term.curSize t
  · rw [if_pos hgo] at hkept ⊢
    obtain ⟨hin, hon, hram, hterm⟩ := moveRight_cursor h.shown h.inside
    have hcell : cursorCell ((moveRight k).setCurPos t ((moveRight k).term.curPos t + 1)) t
        = cursorCell (moveRight k) t := rfl
    have hcount : ((moveRight k).setCurPos t ((moveRight k).term.curPos t + 1)).term.curPos t
        = k.term.curPos t + 1 := by
      simp [hterm]
    -- in the last cell the cursor stays, and the position goes on
    have hstep : cursorCell k t ≤ cursorCell (moveRight k) t ∧
        cursorCell (moveRight k) t ≤ cursorCell k t + 1 := by
      rw [hon]
      split <;> omega
    refine h.moved (Shows.moveRight h.shown).page hram ?_ ?_ ⟨hin.x0, hin.x1, hin.y0, hin.y1⟩ ?_ ?_
      ?_ ?_ hkept
    · simp [hterm]
    · simp [hterm]
    · omega
    · simpa [hterm] using h.size
    · omega
    · omega
  · rw [if_neg hgo]
    exact h.refl

/-- **A character** that is taken goes in at the cursor. -/
theorem spares_insert (h : Behind L t k) {c : Byte} (hc : (Edit.char c).Plain)
    (hp : k.term.curPos t < bufSize - 1) (hs : k.term.curSize t < bufSize - 1) :
    Spares L t k (termInsert L c k) := by
  have hplace := h.place
  have hnear := h.near
  have hbehind := h.behind
  simp only [bufSize] at hp hs
  obtain ⟨s, hadv⟩ := termInsert_advances (L := L) h.mapped h.shown h.inside hbehind hc
  have hins := termInsert_spec (L := L) c k h.shown
  have hpos : (termInsert L c k).term.curPos t = k.term.curPos t + 1 := by
    rw [hins.curPos, Function.update_self]
  have hsize : (termInsert L c k).term.curSize t = k.term.curSize t + 1 := by
    rw [hins.curSize, Function.update_self]
  have hcursor := hadv.cursor
  have hwrite := hadv.toDraws.writeCell
  have hrow := hadv.toDraws.row hadv.bottom h.row (d := k.term.curPos t + 1) (by omega)
    (by have := h.column; omega)
  exact h.drawn hadv.toDraws hadv.inside hrow (by omega) (by omega) (by omega) (by omega)
    (HistKept.frame.termInsert c k)

/-! Backspace. -/

/-- The cell before the cursor is erased and the cursor is in it. -/
theorem erased_cell (h : Mapped L k videoMem offsetVideo) (hcur : k.page.currentTerminal = t)
    (hin : CursorIn k t) (h0 : 0 ≤ writeCell k t) (hlt : writeCell k t < cursorCell k t) {bs : Byte}
    (hbs : (Edit.char bs).Plain) :
    Draws t (writeCell k t) 0 k (moveLeft (putcKb L bs (moveLeft k))) ∧
      CursorIn (moveLeft (putcKb L bs (moveLeft k))) t ∧
      cursorCell (moveLeft (putcKb L bs (moveLeft k))) t = cursorCell k t - 1 := by
  have hrange := hin.range
  obtain ⟨hin1, hback1, hram1, hterm1⟩ := moveLeft_cursor hcur hin (by omega)
  have hdraws1 : Draws t (writeCell k t) 0 k (moveLeft k) :=
    .of_ram (Shows.moveLeft hcur).page hram1 (by rw [hterm1]) (by rw [hterm1]) t _
  have hcur1 := hdraws1.shown hcur
  obtain ⟨s, hput⟩ := putcKb_advances (L := L) (hdraws1.mapped h) hcur1 hin1
    (not_or.mpr ⟨hbs.1, hbs.2.1⟩) hbs.2.2 (show writeCell k t ≤ _ by omega)
  have hcursor := hput.cursor
  -- it was not in the last cell, so nothing scrolls
  obtain rfl : s = 0 := by
    rcases hput.bottom with hs | hs
    · exact hs
    · have hrange' := hput.inside.range
      omega
  have hcur2 := hput.shown hcur1
  obtain ⟨hin2, hback2, hram2, hterm2⟩ := moveLeft_cursor hcur2 hput.inside (by omega)
  have hdraws2 : Draws t (writeCell k t) 0 (putcKb L bs (moveLeft k))
      (moveLeft (putcKb L bs (moveLeft k))) :=
    .of_ram (Shows.moveLeft hcur2).page hram2 (by rw [hterm2]) (by rw [hterm2]) t _
  exact ⟨hdraws1.still_trans (hput.toDraws.still_trans hdraws2), hin2, by omega⟩

theorem eraseChar_plain (k : Kernel) (t : Term) : (Edit.char (eraseChar k t)).Plain := by
  unfold eraseChar
  split
  · exact ⟨by decide, by decide, by decide⟩
  · exact ⟨by decide, by decide, by decide⟩

/-- **Backspace** on the screen: back by one behind the write position, and nothing at it. -/
theorem Behind.backspace_drawn (h : Behind L t k) :
    Draws t (writeCell k t) 0 k (termBackspace L k) ∧ CursorIn (termBackspace L k) t ∧
      cursorCell (termBackspace L k) t
        = if writeCell k t < cursorCell k t then cursorCell k t - 1 else cursorCell k t := by
  have hpast := h.pastWrite_iff
  have hplace := h.place
  have hnear := h.near
  obtain ⟨k1, hk1⟩ : ∃ k1, k1 = shrunk k t := ⟨_, rfl⟩
  have hsame : SameScreen k k1 ∧ k1.term.curPos = k.term.curPos := by
    rw [hk1]
    unfold shrunk
    split
    · exact ⟨⟨rfl, rfl, rfl, rfl, rfl⟩, rfl⟩
    · exact ⟨⟨rfl, rfl, rfl, rfl, rfl⟩, rfl⟩
  obtain ⟨hsame, hcount⟩ := hsame
  have hin1 := hsame.inside h.inside
  have hcell1 := hsame.cursor t
  have hdraws1 := hsame.draws t (writeCell k t)
  have hwrite1 : writeCell k1 t = writeCell k t := by
    unfold writeCell
    rw [hsame.writeX, hsame.writeY]
  have hpast1 : pastWrite k1 t ↔ writeCell k t < cursorCell k t := by
    rw [← hpast]
    unfold pastWrite
    rw [hsame.screen, hsame.writeX, hsame.writeY]
  rw [termBackspace_eq k h.shown, ← hk1, hcount]
  split
  · have hcounted : ∀ k2 : Kernel, Draws t (writeCell k t) 0 k2 ((k2.setCurPos t
        (k2.term.curPos t - 1)).setLine t ((k2.setCurPos t (k2.term.curPos t - 1)).term.curPos t)
          (eraseChar k t)) :=
      fun k2 => ((SameScreen.setCurPos k2 t _).trans (.setLine _ t _ _)).draws t _
    unfold eraseBack
    dsimp only
    by_cases hgo : writeCell k t < cursorCell k t
    · obtain ⟨hdraws, hin, hback⟩ := erased_cell (L := L) (hdraws1.mapped h.mapped)
        (hdraws1.shown h.shown) hin1 (hwrite1.symm ▸ h.start) (by omega) (eraseChar_plain k t)
      rw [hwrite1] at hdraws
      rw [if_pos (hpast1.mpr hgo), if_pos hgo, ← hcell1, ← hback]
      exact ⟨(hdraws1.still_trans hdraws).still_trans (hcounted _),
        ⟨hin.x0, hin.x1, hin.y0, hin.y1⟩, rfl⟩
    · rw [if_neg (fun hp => hgo (hpast1.mp hp)), if_neg hgo, ← hcell1]
      exact ⟨hdraws1.still_trans (hcounted k1), ⟨hin1.x0, hin1.x1, hin1.y0, hin1.y1⟩, rfl⟩
  -- at the start of the line the cursor is at the write position
  · have hstay : ¬ writeCell k t < cursorCell k t := by omega
    have hpast2 : ¬ pastWrite (k1.setLine t (k1.term.curPos t) (eraseChar k t)) t :=
      fun hp => hstay (hpast1.mp hp)
    unfold eraseHere
    dsimp only
    rw [if_neg hpast2, if_neg hstay, ← hcell1]
    exact ⟨hdraws1.still_trans ((SameScreen.setLine k1 t _ _).draws t _),
      ⟨hin1.x0, hin1.x1, hin1.y0, hin1.y1⟩, rfl⟩

theorem spares_backspace (h : Behind L t k) : Spares L t k (termBackspace L k) := by
  obtain ⟨hdraws, hin, hcell⟩ := h.backspace_drawn
  have her := termBackspace_spec (L := L) k h.shown
  have hpos : (termBackspace L k).term.curPos t = erasePos k t := by
    rw [her.curPos, Function.update_self]
  have hshrinks : (termBackspace L k).term.curSize t ≤ k.term.curSize t := by
    rw [her.curSize]
    split
    · rw [Function.update_self]
      omega
    · exact Int.le_refl _
  have hplace := h.place
  have hsize := h.size
  have hnear := h.near
  have hbehind := h.behind
  have hwrite := hdraws.writeCell
  have hrow : 0 ≤ (termBackspace L k).term.writeY t := by
    rw [hdraws.writeY]
    have := h.row
    omega
  unfold erasePos at hpos
  have hback : writeCell k t ≤ cursorCell (termBackspace L k) t ∧
      cursorCell (termBackspace L k) t ≤ writeCell k t + (termBackspace L k).term.curPos t := by
    rw [hcell, hpos]
    split <;> split <;> omega
  have hfirst : 0 ≤ (termBackspace L k).term.curPos t ∧
      (termBackspace L k).term.curPos t ≤ 127 := by
    rw [hpos]
    split <;> omega
  exact h.drawn hdraws hin hrow hfirst (by omega) (by omega) (by omega)
    (HistKept.frame.termBackspace k)

/-- **A character or Backspace.** -/
theorem spares_char (h : Behind L t k) {c : Byte} (hc : ¬ IsBreak c) :
    Spares L t k (termPutc L c k) := by
  have hbreak : ¬ (c = 0x0A ∨ c = 0x0D) := hc
  unfold termPutc
  dsimp only
  rw [if_neg hbreak, h.shown]
  by_cases hbs : c = 0x08
  · rw [if_pos hbs]
    exact spares_backspace h
  · rw [if_neg hbs]
    by_cases hroom : k.term.curPos t < bufSize - 1 ∧ k.term.curSize t < bufSize - 1
    · rw [if_pos hroom]
      exact spares_insert h ⟨fun he => hbreak (.inl he), fun he => hbreak (.inr he), hbs⟩ hroom.1
        hroom.2
    · rw [if_neg hroom]
      exact h.refl

/-- **A command is recalled** at the write position, and the cursor is right behind it. -/
theorem spares_recall (h : Behind L t k) : Spares L t k (histRecall L t true k) := by
  obtain ⟨n, m, hn, hrow, hplain, h69, hm, hend⟩ := h.history.standing
  have hx := h.column
  have hrange := h.inside.range
  have hbehind := h.behind
  have hlast : k.term.writeY t < 25 := by
    simp only [writeCell, numCols] at hbehind
    omega
  obtain ⟨s, k1, heq, hdraws, hin1, hcell1, hrow1, hhist1, hind1⟩ := histRecall_erased (L := L)
    h.mapped h.shown hx.1 hx.2 h.row hlast h69 hend (by omega) true
  have hsame := hist_congr hhist1 hind1 t
  have hfuel : n ≤ histBytes := Nat.le_trans (Nat.le_of_lt hn) (by decide)
  obtain ⟨s', hcopy⟩ := histCopy_advances (L := L) (t := t) n histBytes 0 (writeCell k1 t)
    (hdraws.mapped h.mapped) (hdraws.shown h.shown) hin1 (Int.le_of_eq hcell1.symm)
    ⟨fun j hj => by rw [hsame]; exact hrow.bytes j hj, by rw [hsame]; exact hrow.stop⟩
    (fun j hj => by rw [hsame, Nat.zero_add]; exact hplain j hj) hfuel
  have hcounted := histRecall_spec (L := L) h.shown true hrow (Nat.le_of_lt hn)
  have hkept : HistKept k (histRecall L t true k) := HistKept.frame.histRecall t true k
  have hpos := hcounted.curPos
  have hsize := hcounted.curSize
  have hp0 : (recallBase t true k).term.curPos t = 0 := Function.update_self ..
  have hs0 : (recallBase t true k).term.curSize t = 0 := Function.update_self ..
  rw [heq] at hpos hsize hkept ⊢
  have hwrite := hcopy.toDraws.writeCell
  have hcursor := hcopy.cursor
  have hrow' := hcopy.toDraws.row hcopy.bottom hrow1 (d := n) (by omega)
    (by rw [hdraws.writeX]; omega)
  have hall := hcopy.toDraws
  rw [hdraws.writeCell] at hall
  exact h.drawn (hdraws.trans hall) hcopy.inside hrow' (by omega) (by omega) (by omega) (by omega)
    hkept

/-- **Up.** -/
theorem spares_up (h : Behind L t k) : Spares L t k (upHist L k) := by
  obtain ⟨k1, hk1, hbrowsed, -, hcases⟩ := histStep_cases (L := L) browsed_histUp true h.shown
  have hkept : HistKept k k1 := by
    rw [hk1]
    exact HistKept.frame.trans (HistKept.histUp t k)
      (HistKept.frame.histSkip HistKept.histUp t histSize _)
  have hmoved : Spares L t k k1 := by
    obtain ⟨i, rfl⟩ := hbrowsed
    exact h.moved rfl rfl rfl rfl (h.inside.of_screen rfl) h.place h.size h.behind h.near hkept
  unfold upHist
  rcases hcases with ⟨-, hstep⟩ | ⟨-, hstep⟩
  · rw [hstep]
    exact hmoved
  · rw [hstep]
    exact hmoved.trans (spares_recall hmoved.after)

/-- **One key.** -/
theorem spares_strike (h : Behind L t k) {e : TermKey} (he : e.Edits) :
    Spares L t k (strike L k e) := by
  cases e with
  | char c => exact spares_char h he
  | left => exact spares_left h
  | right => exact spares_right h
  | up => exact spares_up h
  | down => exact absurd he id
  | clear => exact absurd he id

/-- **Any number of keys.** -/
theorem spares_run (es : List TermKey) : ∀ {k : Kernel}, Behind L t k → (∀ e ∈ es, e.Edits) →
    Spares L t k (es.foldl (strike L) k) := by
  induction es with
  | nil =>
      intro k h _
      exact h.refl
  | cons e es ih =>
      intro k h hes
      have hkey := spares_strike (L := L) h (hes e List.mem_cons_self)
      exact hkey.trans (ih hkey.after fun e' he' => hes e' (List.mem_cons_of_mem e he'))

end Keys

/-! ## After output -/

/-- Output ends at the cursor, with an empty line. -/
theorem behind_start {L : Layout} {k : Kernel} {t : Term} (buf : List Byte)
    (hmapped : Mapped L k videoMem offsetVideo) (hcur : k.page.currentTerminal = t)
    (hactive : k.task.currentActiveProcess = t) (hpos : k.term.curPos t = 0)
    (hsize : k.term.curSize t = 0) (hin : CursorIn (termWrite L buf k) t) (hhist : Commands k t) :
    Behind L t (termWrite L buf k) := by
  have hshows := Shows.termWrite (L := L) hactive buf
  obtain ⟨hx, hy⟩ := termWrite_cursor (L := L) hactive buf
  have hcell : cursorCell (termWrite L buf k) t = writeCell (termWrite L buf k) t := by
    unfold cursorCell writeCell
    rw [hx, hy]
  have hp : (termWrite L buf k).term.curPos t = 0 := by
    rw [hshows.curPos]
    exact hpos
  have hs : (termWrite L buf k).term.curSize t = 0 := by
    rw [hshows.curSize]
    exact hsize
  refine ⟨hmapped.of_page hshows.page, hshows.current.trans hcur, hin, ?_, ?_, by omega, by omega,
    by omega, by omega, hhist.kept (.of_eq hshows.history hshows.histIndeces)⟩
  · rw [hx]
    exact ⟨hin.x0, hin.x1⟩
  · rw [hy]
    exact hin.y0

/--
**Output is protected.** From output on the terminal on display on, with an empty line and any
history of printable commands: after any characters, Backspaces, Lefts, Rights and Ups, what was
before the write position is there still, moved up by as many rows as the write position is, and
the cursor is not before that position.
-/
theorem output_protected (L : Layout) {k : Kernel} {t : Term} {es : List TermKey} (buf : List Byte)
    (hmapped : Mapped L k videoMem offsetVideo) (hcur : k.page.currentTerminal = t)
    (hactive : k.task.currentActiveProcess = t) (hpos : k.term.curPos t = 0)
    (hsize : k.term.curSize t = 0) (hin : CursorIn (termWrite L buf k) t) (hhist : Commands k t)
    (hes : ∀ e ∈ es, e.Edits) :
    let k₀ := termWrite L buf k
    let k' := es.foldl (strike L) k₀
    ∃ s : Nat, k'.term.writeX t = k₀.term.writeX t ∧ k'.term.writeY t = k₀.term.writeY t - s ∧
      (∀ o : Nat, (o : Int) < 2 * writeCell k' t →
        k'.ram (offsetVideo + o) = k₀.ram (offsetVideo + (o + 160 * s))) ∧
      writeCell k' t ≤ cursorCell k' t ∧ CursorIn k' t := by
  intro k₀ k'
  obtain ⟨s, hdraws, hbehind⟩ := spares_run (L := L) es
    (behind_start buf hmapped hcur hactive hpos hsize hin hhist) hes
  have hwrite := hdraws.writeCell
  refine ⟨s, hdraws.writeX, hdraws.writeY, fun o ho => hdraws.before o ?_, hbehind.behind,
    hbehind.inside⟩
  have hbefore : (o : Int) < 2 * (writeCell (termWrite L buf k) t - 80 * s) := by
    rw [← hwrite]
    exact ho
  omega

theorem commands_blank (x : Int) : Commands (blankPrompt x) 0 := by
  refine ⟨⟨Int.le_refl 0, Int.ofNat_lt.mpr (by decide : 0 < histSize)⟩, ?_⟩
  intro row _ _
  exact ⟨[], by decide, fun c hc => absurd hc List.not_mem_nil, fun i _ => rfl⟩

/-- From column `7`: a letter, Left, and Backspace at the write position. -/
theorem output_protected_prompt :
    let k₀ := termWrite someLayout [] (blankPrompt 7)
    let k' := [TermKey.char 0x61, .left, .char 0x08].foldl (strike someLayout) k₀
    ∃ s : Nat, k'.term.writeX 0 = k₀.term.writeX 0 ∧ k'.term.writeY 0 = k₀.term.writeY 0 - s ∧
      (∀ o : Nat, (o : Int) < 2 * writeCell k' 0 →
        k'.ram (offsetVideo + o) = k₀.ram (offsetVideo + (o + 160 * s))) ∧
      writeCell k' 0 ≤ cursorCell k' 0 ∧ CursorIn k' 0 := by
  have hes : ∀ e ∈ [TermKey.char 0x61, .left, .char 0x08], e.Edits := by
    intro e he
    simp only [List.mem_cons, List.not_mem_nil, or_false] at he
    rcases he with rfl | rfl | rfl
    · exact (by decide : ¬ IsBreak 0x61)
    · trivial
    · exact (by decide : ¬ IsBreak 0x08)
  exact output_protected someLayout (t := 0) [] (blankPrompt_mapped 7) rfl rfl rfl rfl
    (blankPrompt_cursor (by decide) (by decide)) (commands_blank 7) hes

end Zbiggie.Proof
