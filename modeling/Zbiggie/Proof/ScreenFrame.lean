import Zbiggie.Proof.EditedScreen
import Zbiggie.Proof.LineIndex

/-!
# What drawing leaves alone

Every routine that draws on the terminal on display starts at the cursor and goes on from
there, and all it can do to what lies before is to move it up, a row for each scroll, and
`write_y` with it. `Draws` says that of two machines, `Advances` also where the cursor is
then. Both go together with more drawing, so what a loop of `putc` leaves alone is what one
`putc` does.
-/

namespace Zbiggie.Proof

open Zbiggie Machine

/--
From `k` to `k'` the screen of `t` scrolled `s` times. Nothing outside its page changed, and
nothing before cell `lo` but for the scrolls.
-/
structure Draws (t : Term) (lo : Int) (s : Nat) (k k' : Kernel) : Prop where
  page : k'.page = k.page
  outside : ∀ a, a < offsetVideo ∨ offsetVideo + offset4K ≤ a → k'.ram a = k.ram a
  writeX : k'.term.writeX t = k.term.writeX t
  writeY : k'.term.writeY t = k.term.writeY t - s
  before : ∀ o : Nat, (o : Int) + 160 * s < 2 * lo →
    k'.ram (offsetVideo + o) = k.ram (offsetVideo + (o + 160 * s))

namespace Draws

variable {t : Term} {lo : Int} {s s' : Nat} {k k' k'' : Kernel}

theorem refl (t : Term) (lo : Int) (k : Kernel) : Draws t lo 0 k k :=
  ⟨rfl, fun _ _ => rfl, rfl, (Int.sub_zero _).symm, fun _ _ => rfl⟩

/-- What was before `lo` is before it still, some rows further up. -/
theorem trans (h : Draws t lo s k k') (h' : Draws t (lo - 80 * s) s' k' k'') :
    Draws t lo (s + s') k k'' := by
  refine ⟨h'.page.trans h.page, fun a ha => (h'.outside a ha).trans (h.outside a ha),
    h'.writeX.trans h.writeX, ?_, ?_⟩
  · rw [h'.writeY, h.writeY]
    omega
  · intro o ho
    rw [h'.before o (by omega), h.before _ (by omega)]
    congr 1
    omega

theorem mono {lo' : Int} (hle : lo' ≤ lo) (h : Draws t lo s k k') : Draws t lo' s k k' :=
  ⟨h.page, h.outside, h.writeX, h.writeY, fun o ho => h.before o (by omega)⟩

/-- Without a scroll the cell stays the same. -/
theorem still_trans (h : Draws t lo 0 k k') (h' : Draws t lo s k' k'') : Draws t lo s k k'' := by
  have hboth := h.trans (h'.mono (show lo - 80 * (0 : Nat) ≤ lo by omega))
  rw [Nat.zero_add] at hboth
  exact hboth

theorem mapped {L : Layout} (h : Draws t lo s k k') (hm : Mapped L k videoMem offsetVideo) :
    Mapped L k' videoMem offsetVideo := hm.of_page h.page

theorem shown (h : Draws t lo s k k') (hcur : k.page.currentTerminal = t) :
    k'.page.currentTerminal = t := by
  rw [h.page]
  exact hcur

/-- Whatever else changed, nothing was drawn. -/
theorem of_ram (hpage : k'.page = k.page) (hram : k'.ram = k.ram)
    (hx : k'.term.writeX = k.term.writeX) (hy : k'.term.writeY = k.term.writeY) (t : Term)
    (lo : Int) : Draws t lo 0 k k' := by
  refine ⟨hpage, fun a _ => congrFun hram a, congrFun hx t, ?_, fun o _ => congrFun hram _⟩
  rw [hy]
  exact (Int.sub_zero _).symm

theorem writeCell (h : Draws t lo s k k') :
    Proof.writeCell k' t = Proof.writeCell k t - 80 * s := by
  unfold Proof.writeCell
  rw [h.writeX, h.writeY]
  simp only [numCols]
  omega

/-- The write position is on the screen still, if the cursor did not go too far from it. -/
theorem row (h : Draws t lo s k k') (hbottom : s = 0 ∨ 1920 ≤ cursorCell k' t)
    (h0 : 0 ≤ k.term.writeY t) {d : Int} (hnear : cursorCell k' t ≤ Proof.writeCell k' t + d)
    (hd : k.term.writeX t + d < 2000) : 0 ≤ k'.term.writeY t := by
  have hx := h.writeX
  have hy := h.writeY
  unfold Proof.writeCell at hnear
  simp only [numCols] at hnear
  rcases hbottom with hs | hs
  · omega
  · omega

end Draws

/-- The screen is as it was. -/
structure SameScreen (k k' : Kernel) : Prop where
  page : k'.page = k.page
  ram : k'.ram = k.ram
  screen : k'.screen = k.screen
  writeX : k'.term.writeX = k.term.writeX
  writeY : k'.term.writeY = k.term.writeY

namespace SameScreen

variable {t : Term} {k k' k'' : Kernel}

theorem trans (h : SameScreen k k') (h' : SameScreen k' k'') : SameScreen k k'' :=
  ⟨h'.page.trans h.page, h'.ram.trans h.ram, h'.screen.trans h.screen, h'.writeX.trans h.writeX,
    h'.writeY.trans h.writeY⟩

theorem setLine (k : Kernel) (t : Term) (i : Int) (b : Byte) : SameScreen k (k.setLine t i b) :=
  ⟨rfl, rfl, rfl, rfl, rfl⟩

theorem setCurPos (k : Kernel) (t : Term) (n : Int) : SameScreen k (k.setCurPos t n) :=
  ⟨rfl, rfl, rfl, rfl, rfl⟩

theorem setCurSize (k : Kernel) (t : Term) (n : Int) : SameScreen k (k.setCurSize t n) :=
  ⟨rfl, rfl, rfl, rfl, rfl⟩

theorem draws (h : SameScreen k k') (t : Term) (lo : Int) : Draws t lo 0 k k' :=
  .of_ram h.page h.ram h.writeX h.writeY t lo

theorem cursor (h : SameScreen k k') (t : Term) : cursorCell k' t = cursorCell k t := by
  unfold cursorCell
  rw [h.screen]

theorem inside (h : SameScreen k k') (hin : CursorIn k t) : CursorIn k' t :=
  hin.of_screen h.screen

end SameScreen

/-- It was drawn, and the cursor went `n` cells on; after a scroll it is in the last row. -/
structure Advances (t : Term) (lo : Int) (s n : Nat) (k k' : Kernel) : Prop extends
    Draws t lo s k k' where
  inside : CursorIn k' t
  cursor : cursorCell k' t = cursorCell k t + n - 80 * s
  bottom : s = 0 ∨ 1920 ≤ cursorCell k' t

namespace Advances

variable {t : Term} {lo : Int} {s s' n n' : Nat} {k k' k'' : Kernel}

theorem trans (h : Advances t lo s n k k') (h' : Advances t (lo - 80 * s) s' n' k' k'') :
    Advances t lo (s + s') (n + n') k k'' := by
  refine ⟨h.toDraws.trans h'.toDraws, h'.inside, ?_, ?_⟩
  · rw [h'.cursor, h.cursor]
    omega
  · have hcursor := h'.cursor
    rcases h'.bottom with h0 | h0
    · rcases h.bottom with h1 | h1
      · exact .inl (by omega)
      · exact .inr (by omega)
    · exact .inr h0

theorem of_same (hin : CursorIn k t) (lo : Int) (h : SameScreen k k') : Advances t lo 0 0 k k' := by
  refine ⟨h.draws t lo, h.inside hin, ?_, .inl rfl⟩
  rw [h.cursor t]
  omega

/-- Before it, something that leaves the screen as it is. -/
theorem of_same_left (h : SameScreen k k') (h' : Advances t lo s n k' k'') :
    Advances t lo s n k k'' := by
  refine ⟨(h.draws t lo).still_trans h'.toDraws, h'.inside, ?_, h'.bottom⟩
  rw [h'.cursor, h.cursor t]

/-- And behind it. -/
theorem of_same_right (h : Advances t lo s n k k') (h' : SameScreen k' k'') :
    Advances t lo s n k k'' :=
  h.trans (of_same h.inside _ h')

end Advances

/-! ## A character -/

section Characters

variable {L : Layout} {k : Kernel} {t : Term} {c : Byte} {lo : Int}

/-- One character in memory, short of the cursor. -/
theorem cellPut_before {ℓ : Int} (h0 : 0 ≤ ℓ) (attr c : Byte) (m : Mem) {o : Nat}
    (ho : (o : Int) < 2 * ℓ) : cellPut offsetVideo attr (2 * ℓ) c m (offsetVideo + o)
      = m (offsetVideo + o) := by
  unfold cellPut
  split
  · rw [store_of_ne (by omega), store_of_ne (by omega)]
  · rfl

/-- A scroll moves up what lies before the last row. -/
theorem scrolled_before (attr : Byte) (m : Mem) {o : Nat} (ho : o < 3840) :
    scrolled offsetVideo attr m (offsetVideo + o) = m (offsetVideo + (o + 160)) := by
  unfold scrolled blanked shifted
  rw [if_neg (by omega), if_pos (by omega), Nat.add_assoc]

theorem inserted_page (L : Layout) (t : Term) (c : Byte) (k : Kernel) :
    (inserted L t c k).page = k.page := by
  have hfinish : ∀ k' : Kernel, (if k'.screen.screenY t ≥ 25 then scroll L k' else k').page
      = k'.page := by
    intro k'
    split
    · exact (Shows.scroll rfl).page
    · rfl
  refine (hfinish _).trans ?_
  split
  · rfl
  · rfl

/-- **A character that is only that.** -/
theorem inserted_advances (h : Mapped L k videoMem offsetVideo) (hcur : k.page.currentTerminal = t)
    (hin : CursorIn k t) (hlo : lo ≤ cursorCell k t) (c : Byte) :
    ∃ s, Advances t lo s 1 k (inserted L t c k) := by
  have hrange := hin.range
  have hpage := inserted_page L t c k
  have hprinted : (printed t c k).ram
      = cellPut offsetVideo (attribs t) (2 * cursorCell k t) c k.ram := rfl
  by_cases hcorner : cursorCell k t = 1999
  · obtain ⟨hin', hcell, hterm, hram⟩ := inserted_corner (c := c) h hcur hin hcorner
    rw [hprinted] at hram
    refine ⟨1, ⟨hpage, ?_, ?_, ?_, ?_⟩, hin', ?_, .inr ?_⟩
    · intro a ha
      rw [hram, scrolled_outside _ _ _ ha, cellPut_outside _ _ _ (by omega) _ ha]
    · rw [hterm]
    · rw [hterm]
      exact Function.update_self ..
    · intro o ho
      rw [hram, scrolled_before _ _ (by omega), cellPut_before hrange.1 _ _ _ (by omega)]
    · omega
    · omega
  · obtain ⟨hin', hcell, hterm, hram⟩ := inserted_inside (c := c) L hin (by omega)
    rw [hprinted] at hram
    refine ⟨0, ⟨hpage, ?_, ?_, ?_, ?_⟩, hin', ?_, .inl rfl⟩
    · intro a ha
      rw [hram, cellPut_outside _ _ _ (by omega) _ ha]
    · rw [hterm]
    · rw [hterm]
      exact (Int.sub_zero _).symm
    · intro o ho
      rw [hram, cellPut_before hrange.1 _ _ _ (by omega)]
      rfl
    · omega

theorem putc_advances (h : Mapped L k videoMem offsetVideo) (hcur : k.page.currentTerminal = t)
    (hin : CursorIn k t) (hbreak : ¬ IsBreak c) (hlo : lo ≤ cursorCell k t) :
    ∃ s, Advances t lo s 1 k (putc L c k) := by
  rw [putc_printed h hcur hin hbreak]
  exact inserted_advances h hcur hin hlo c

theorem putcKb_advances (h : Mapped L k videoMem offsetVideo) (hcur : k.page.currentTerminal = t)
    (hin : CursorIn k t) (hbreak : ¬ IsBreak c) (hbs : c ≠ 0x08) (hlo : lo ≤ cursorCell k t) :
    ∃ s, Advances t lo s 1 k (putcKb L c k) := by
  rw [putcKb_printed h hcur hin hbreak hbs]
  exact inserted_advances h hcur hin hlo c

theorem putc_newRow (hcur : k.page.currentTerminal = t) (hbreak : IsBreak c) :
    putc L c k
      = if k.screen.screenY t + 1 ≥ numRows then scroll L (nextRow t k) else nextRow t k := by
  have hb : c = 0x0A ∨ c = 0x0D := hbreak
  obtain ⟨hcol, hrow⟩ := nextRow_cursor t k
  unfold putc putChar
  dsimp only
  rw [hcur, if_pos hb, hcol, if_neg (show ¬ (0 : Int) ≥ (numCols : Nat) by decide), hrow]

/-- **A scroll**: every cell goes up by a row, and the cursor to the last one. -/
theorem scroll_draws (h : Mapped L k videoMem offsetVideo) (hcur : k.page.currentTerminal = t)
    (hlo : lo ≤ 2000) : Draws t lo 1 k (scroll L k) ∧ CursorIn (scroll L k) t := by
  obtain ⟨hpage, hterm, hram, hcol, hrow⟩ := scroll_effect h hcur
  refine ⟨⟨hpage, ?_, ?_, ?_, ?_⟩, by omega, by omega, by omega, by omega⟩
  · intro a ha
    rw [hram, scrolled_outside _ _ _ ha]
  · rw [hterm]
  · rw [hterm]
    exact Function.update_self ..
  · intro o ho
    rw [hram, scrolled_before _ _ (by omega)]

/-- A new row, on the screen or below it. -/
theorem putc_break (h : Mapped L k videoMem offsetVideo) (hcur : k.page.currentTerminal = t)
    (hin : CursorIn k t) (hbreak : IsBreak c) (hlo : lo ≤ cursorCell k t) :
    ∃ s, Draws t lo s k (putc L c k) ∧ CursorIn (putc L c k) t := by
  have hrange := hin.range
  have hnext : Draws t lo 0 k (nextRow t k) :=
    ⟨rfl, fun _ _ => rfl, rfl, (Int.sub_zero _).symm, fun _ _ => rfl⟩
  rw [putc_newRow hcur hbreak]
  by_cases hlast : k.screen.screenY t + 1 ≥ (numRows : Int)
  · obtain ⟨hscroll, hin'⟩ := scroll_draws (hnext.mapped h) hcur (show lo ≤ 2000 by omega)
    rw [if_pos hlast]
    exact ⟨1, hnext.still_trans hscroll, hin'⟩
  · obtain ⟨hcol, hrow⟩ := nextRow_cursor t k
    have hy0 := hin.y0
    rw [if_neg hlast]
    simp only [numRows] at hlast
    exact ⟨0, hnext, by omega, by omega, by omega, by omega⟩

/-- **`putc` of anything.** -/
theorem putc_draws (h : Mapped L k videoMem offsetVideo) (hcur : k.page.currentTerminal = t)
    (hin : CursorIn k t) (hlo : lo ≤ cursorCell k t) (c : Byte) :
    ∃ s, Draws t lo s k (putc L c k) ∧ CursorIn (putc L c k) t := by
  by_cases hbreak : IsBreak c
  · exact putc_break h hcur hin hbreak hlo
  · obtain ⟨s, hadv⟩ := putc_advances h hcur hin hbreak hlo
    exact ⟨s, hadv.toDraws, hadv.inside⟩

end Characters

/-! ## The other routines -/

section Routines

variable {L : Layout} {k : Kernel} {t : Term} {lo : Int}

theorem setPos_cursor (hcur : k.page.currentTerminal = t) (x y : Int) :
    (setPos x y k).screen.screenX t = x ∧ (setPos x y k).screen.screenY t = y := by
  subst hcur
  exact ⟨Function.update_self .., Function.update_self ..⟩

/-- To the write position, where that is on the screen. -/
theorem setPos_write (hcur : k.page.currentTerminal = t) (hx0 : 0 ≤ k.term.writeX t)
    (hx1 : k.term.writeX t < 80) (hy0 : 0 ≤ k.term.writeY t) (hy1 : k.term.writeY t < 25) :
    CursorIn (setPos (k.term.writeX t) (k.term.writeY t) k) t ∧
      cursorCell (setPos (k.term.writeX t) (k.term.writeY t) k) t = writeCell k t := by
  obtain ⟨hx, hy⟩ := setPos_cursor hcur (k.term.writeX t) (k.term.writeY t)
  refine ⟨⟨by omega, by omega, by omega, by omega⟩, ?_⟩
  unfold cursorCell writeCell
  rw [hx, hy]

/-- Nothing changed up to cell `ℓ`, nor outside the page. -/
def KeptUpTo (ℓ : Nat) (k k' : Kernel) : Prop :=
  k'.page = k.page ∧ ∀ a, a < offsetVideo + 2 * ℓ ∨ offsetVideo + offset4K ≤ a → k'.ram a = k.ram a

theorem KeptUpTo.scootCell {ℓ : Nat} {k' : Kernel} (h : Mapped L k videoMem offsetVideo)
    (hk : KeptUpTo ℓ k k') {dst src : Int} (hd0 : ℓ ≤ dst) (hd : dst < 2000) (hs0 : 0 ≤ src)
    (hs : src < 2000) : KeptUpTo ℓ k (scootCell L t dst src k') := by
  refine ⟨(scootCell_page ..).trans hk.1, ?_⟩
  intro a ha
  rw [scootCell_mapped (h.of_page hk.1) (by omega) hd hs0 hs]
  simp only [offset4K] at ha
  rw [withRam_ram, store_of_ne (by omega), store_of_ne (by omega)]
  exact hk.2 a (by simpa only [offset4K] using ha)

/-- **`scoot_text`** stores behind the cursor only. -/
theorem scootText_kept (h : Mapped L k videoMem offsetVideo) (hcur : k.page.currentTerminal = t)
    (hin : CursorIn k t) : KeptUpTo (cursorCell k t + 1).toNat k (scootText L k) := by
  have hrange := hin.range
  obtain ⟨h1, h2, h3, h4⟩ := hin
  have hcell : cursorCell k t = 80 * k.screen.screenY t + k.screen.screenX t := rfl
  unfold scootText
  dsimp only
  rw [hcur]
  refine forLoop_inv (P := fun _ k' => KeptUpTo (cursorCell k t + 1).toNat k k') ?_ _ ?_
  · refine forLoop_inv (P := fun _ k' => KeptUpTo (cursorCell k t + 1).toNat k k')
      ⟨rfl, fun _ _ => rfl⟩ _ ?_
    intro j k' hj hk'
    simp only [numRows] at hj
    refine forLoop_inv (P := fun _ k' => KeptUpTo (cursorCell k t + 1).toNat k k') ?_ _ ?_
    · refine hk'.scootCell h ?_ ?_ ?_ ?_ <;> simp only [numCols, numRows] <;> omega
    · intro i k'' hi hk''
      simp only [numCols] at hi
      refine hk''.scootCell h ?_ ?_ ?_ ?_ <;> simp only [numCols, numRows] <;> omega
  · intro i k' hi hk'
    simp only [numCols] at hi
    refine hk'.scootCell h ?_ ?_ ?_ ?_ <;> simp only [numCols] <;> omega

/-- So it draws nothing before it. -/
theorem scootText_advances (h : Mapped L k videoMem offsetVideo) (hcur : k.page.currentTerminal = t)
    (hin : CursorIn k t) (hlo : lo ≤ cursorCell k t) : Advances t lo 0 0 k (scootText L k) := by
  have hrange := hin.range
  have hkept := scootText_kept h hcur hin
  obtain ⟨m, hm⟩ := scootText_only L k
  rw [hm] at hkept ⊢
  refine ⟨⟨rfl, fun a ha => hkept.2 a (by omega), rfl, (Int.sub_zero _).symm, ?_⟩,
    ⟨hin.x0, hin.x1, hin.y0, hin.y1⟩, ?_, .inl rfl⟩
  · intro o ho
    exact hkept.2 _ (.inl (by omega))
  · show cursorCell k t = _
    omega

/-- **A typed character**, with the room that is made for it. -/
theorem termInsert_advances (h : Mapped L k videoMem offsetVideo)
    (hcur : k.page.currentTerminal = t) (hin : CursorIn k t) (hlo : lo ≤ cursorCell k t) {c : Byte}
    (hc : (Edit.char c).Plain) : ∃ s, Advances t lo s 1 k (termInsert L c k) := by
  have hroom : Advances t lo 0 0 k (roomFor L t k) := by
    unfold roomFor
    split
    · obtain ⟨b, hb⟩ := shiftLine_only t (scootText L k)
      refine (scootText_advances h hcur hin hlo).of_same_right ?_
      rw [hb]
      exact ⟨rfl, rfl, rfl, rfl, rfl⟩
    · exact .of_same hin lo ⟨rfl, rfl, rfl, rfl, rfl⟩
  have hcell := hroom.cursor
  obtain ⟨i, p, n, hins⟩ := termInsert_roomFor (L := L) hcur c
  obtain ⟨s, hput⟩ := putcKb_advances (L := L) (hroom.mapped h) (hroom.shown hcur) hroom.inside
    (not_or.mpr ⟨hc.1, hc.2.1⟩) hc.2.2 (show lo - 80 * (0 : Nat) ≤ _ by omega)
  have hboth := (hroom.trans hput).of_same_right
    (((SameScreen.setLine _ t i c).trans (.setCurPos _ t p)).trans (.setCurSize _ t n))
  rw [Nat.zero_add, Nat.zero_add] at hboth
  rw [hins]
  exact ⟨s, hboth⟩

end Routines

/-! ## Recalling a command -/

section Recall

variable {L : Layout} {k : Kernel} {t : Term} {lo : Int}

/-- **The erasing loop** goes on to the first NUL behind the width it clears. -/
theorem histErase_advances {m : Nat} (hm : 69 ≤ m) (fuel : Nat) :
    ∀ (i : Nat) {k : Kernel} (lo : Int), Mapped L k videoMem offsetVideo →
      k.page.currentTerminal = t → CursorIn k t → lo ≤ cursorCell k t →
      k.hist t (k.term.histIndeces t) m = 0 → i ≤ m →
      ∃ s n, i + n ≤ m ∧ Advances t lo s n k (histErase L t fuel i k) := by
  induction fuel with
  | zero =>
      intro i k lo h hcur hin hlo hrow hi
      exact ⟨0, 0, hi, .of_same hin lo ⟨rfl, rfl, rfl, rfl, rfl⟩⟩
  | succ fuel ih =>
      intro i k lo h hcur hin hlo hrow hi
      unfold histErase
      split
      · rename_i hgo
        have hlt : i < m := by
          rcases Nat.lt_or_eq_of_le hi with hlt | rfl
          · exact hlt
          · have hwidth : ¬ ((i : Int) < numCols - startPos - 1) := by
              simp only [numCols, startPos]
              omega
            exact absurd hrow (hgo.resolve_left hwidth)
        obtain ⟨s, hput⟩ := putc_advances (L := L) (c := 0) h hcur hin (by decide) hlo
        have hshows := Shows.putc (L := L) hcur 0
        have hcursor := hput.cursor
        obtain ⟨s', n, hn, hrest⟩ := ih (i + 1) (lo - 80 * s) (hput.mapped h)
          (hput.shown hcur) hput.inside (by omega)
          (by rw [hist_congr hshows.history hshows.histIndeces]; exact hrow) (by omega)
        exact ⟨s + s', 1 + n, by omega, hput.trans hrest⟩
      · exact ⟨0, 0, hi, .of_same hin lo ⟨rfl, rfl, rfl, rfl, rfl⟩⟩

/-- A byte of the row moves the cursor on by a cell. -/
theorem recallByte_advances {i : Nat} (h : Mapped L k videoMem offsetVideo)
    (hcur : k.page.currentTerminal = t) (hin : CursorIn k t) {lo : Int} (hlo : lo ≤ cursorCell k t)
    (hplain : ¬ IsBreak (k.hist t (k.term.histIndeces t) i)) :
    ∃ s, Advances t lo s 1 k (recallByte L t i k) := by
  obtain ⟨k1, hk1⟩ : ∃ k1, k1 = k.setLine t i (k.hist t (k.term.histIndeces t) i) := ⟨_, rfl⟩
  have hset : SameScreen k k1 := hk1 ▸ SameScreen.setLine k t i _
  obtain ⟨s, hput⟩ := putc_advances (L := L) (h.of_page hset.page)
    ((congrArg Paging.currentTerminal hset.page).trans hcur) (hset.inside hin) hplain
    (hlo.trans_eq (hset.cursor t).symm)
  refine ⟨s, ?_⟩
  unfold recallByte
  dsimp only
  rw [← hk1]
  exact (hput.of_same_left hset).of_same_right
    ((SameScreen.setCurPos _ t _).trans (.setCurSize _ t _))

/-- **The copying loop**, over a row with no line break in it. -/
theorem histCopy_advances : ∀ (m fuel i : Nat) {k : Kernel} (lo : Int),
    Mapped L k videoMem offsetVideo → k.page.currentTerminal = t → CursorIn k t →
      lo ≤ cursorCell k t → RowFrom k t i m →
      (∀ j, j < m → ¬ IsBreak (k.hist t (k.term.histIndeces t) (i + j : Nat))) → m ≤ fuel →
      ∃ s, Advances t lo s m k (histCopy L t fuel i k) := by
  -- on what is left of the row, as for the counters
  intro m
  induction m with
  | zero =>
      intro fuel i k lo h hcur hin hlo hrow _ _
      rw [hrow.copy_stop]
      exact ⟨0, .of_same hin lo ⟨rfl, rfl, rfl, rfl, rfl⟩⟩
  | succ m ih =>
      intro fuel i k lo h hcur hin hlo hrow hplain hfuel
      obtain ⟨fuel, rfl⟩ : ∃ f, fuel = f + 1 := ⟨fuel - 1, by omega⟩
      obtain ⟨-, hhist, hind, -, -⟩ := recallByte_frame (L := L) hcur i
      obtain ⟨s, hround⟩ := recallByte_advances (L := L) (i := i) h hcur hin hlo
        (hplain 0 (Nat.succ_pos m))
      have hcursor := hround.cursor
      obtain ⟨s', hrest⟩ := ih fuel (i + 1) (lo - 80 * s) (hround.mapped h) (hround.shown hcur)
        hround.inside (by omega) (hrow.next hhist hind)
        (fun j hj => by
          rw [hist_congr hhist hind, Nat.add_right_comm]
          exact hplain (j + 1) (by omega)) (by omega)
      have hall := hround.trans hrest
      rw [Nat.add_comm 1 m] at hall
      rw [hrow.copy_next]
      exact ⟨s + s', hall⟩

/-- A recall: erase from the write position on, go back to it, and copy. -/
theorem histRecall_start (L : Layout) (t : Term) (reset : Bool) (k : Kernel) :
    ∃ k1, histRecall L t reset k = histCopy L t histBytes 0
        (setPos ((histErase L t histBytes 0 k1).term.writeX t)
          ((histErase L t histBytes 0 k1).term.writeY t) (histErase L t histBytes 0 k1)) ∧
      SameScreen (setPos (k.term.writeX t) (k.term.writeY t) k) k1 ∧
      k1.term.history = k.term.history ∧ k1.term.histIndeces = k.term.histIndeces := by
  refine ⟨_, histRecall_eq L t reset k, ?_⟩
  unfold recallBase
  split
  · exact ⟨⟨rfl, rfl, rfl, rfl, rfl⟩, rfl, rfl⟩
  · exact ⟨⟨rfl, rfl, rfl, rfl, rfl⟩, rfl, rfl⟩

/--
**Up to the copy**: the cursor goes to the write position, from there a row's width at least is
erased, and it goes back, to a position that is on the screen if the row ends in time.
-/
theorem histRecall_erased (h : Mapped L k videoMem offsetVideo) (hcur : k.page.currentTerminal = t)
    (hx0 : 0 ≤ k.term.writeX t) (hx1 : k.term.writeX t < 80) (hy0 : 0 ≤ k.term.writeY t)
    (hy1 : k.term.writeY t < 25) {m : Nat} (hm : 69 ≤ m)
    (hend : k.hist t (k.term.histIndeces t) m = 0) (hroom : k.term.writeX t + m < 2000)
    (reset : Bool) :
    ∃ s k', histRecall L t reset k = histCopy L t histBytes 0 k' ∧
      Draws t (writeCell k t) s k k' ∧ CursorIn k' t ∧ cursorCell k' t = writeCell k' t ∧
      0 ≤ k'.term.writeY t ∧ k'.term.history = k.term.history ∧
      k'.term.histIndeces = k.term.histIndeces := by
  obtain ⟨hin1, hcell1⟩ := setPos_write hcur hx0 hx1 hy0 hy1
  obtain ⟨k1, heq, hsame, hhist, hind⟩ := histRecall_start L t reset k
  have hpage1 : k1.page = k.page := hsame.page
  have hcur1 : k1.page.currentTerminal = t := by
    rw [hpage1]
    exact hcur
  have hstart : Draws t (writeCell k t) 0 k k1 :=
    .of_ram hpage1 hsame.ram hsame.writeX hsame.writeY t _
  have hcell := hsame.cursor t
  obtain ⟨s, n, hn, herase⟩ := histErase_advances (L := L) hm histBytes 0 (writeCell k t)
    (h.of_page hpage1) hcur1 (hsame.inside hin1) (by omega)
    (by rw [hist_congr hhist hind]; exact hend) (Nat.zero_le m)
  have hshows := Shows.histErase (L := L) hcur1 histBytes 0
  obtain ⟨k2, hk2⟩ : ∃ k2, k2 = histErase L t histBytes 0 k1 := ⟨_, rfl⟩
  rw [← hk2] at herase hshows heq
  have hdraws := hstart.still_trans herase.toDraws
  have hwrite := hdraws.writeCell
  have hcursor := herase.cursor
  have hrow : 0 ≤ k2.term.writeY t :=
    hdraws.row herase.bottom hy0 (d := n) (by omega) (by omega)
  have hcur2 : k2.page.currentTerminal = t := hdraws.shown hcur
  obtain ⟨hin3, hcell3⟩ := setPos_write hcur2 (by rw [hdraws.writeX]; exact hx0)
    (by rw [hdraws.writeX]; exact hx1) hrow (by rw [hdraws.writeY]; omega)
  have hback : Draws t (writeCell k t - 80 * s) 0 k2
      (setPos (k2.term.writeX t) (k2.term.writeY t) k2) := by
    refine .of_ram ?_ ?_ ?_ ?_ t _ <;> rfl
  exact ⟨s, setPos (k2.term.writeX t) (k2.term.writeY t) k2, heq, hdraws.trans hback, hin3, hcell3,
    hrow, hshows.history.trans hhist, hshows.histIndeces.trans hind⟩

end Recall

end Zbiggie.Proof
