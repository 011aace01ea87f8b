import Zbiggie.Machine.Footprint
import Zbiggie.Machine.Run
import Zbiggie.Proof.History
import Zbiggie.Proof.Protected
import Zbiggie.Proof.TextOutput

/-!
# The cursor stays on the screen

A cell is stored wherever the cursor is; the guards on the address stop short of the end of
the page, but not of its start, and what lies before the page is another terminal's. So it
is the cursor that has to stay on the screen. `putc` sees to that at the right and at the
bottom, and so do the arrows. What it rests on elsewhere is the write position, to which Up
and Down move the cursor: every scroll takes it up by a row, Enter puts it at the top
whatever is on the screen, and nothing keeps it from leaving the screen there.

`RecallOk` rules out a recall from above the screen, and one that would scroll as many rows
while it erases. No other event can take the cursor off the screen.
-/

namespace Zbiggie.Proof

open Zbiggie Machine

/-! ## Events -/

/-- What happens on the terminal on display: a key, output, and a reader, call and steps. -/
inductive TermEvent where
  | key (inp : Byte)
  | write (buf : List Byte)
  | call (n : Int) (buf : Mem)
  | read (r : Reader)

/-- What the kernel does. -/
def happen (L : Layout) (t : Term) (k : Kernel) : TermEvent → Kernel
  | .key inp => keyHandler L inp k
  | .write buf => termWrite L buf k
  | .call n buf => (termReadCall t n buf k).2
  | .read r => (termReadStep L t r k).2

/-- The event is one of the terminal `t`: its own output, and not a switch to another one. -/
def ConcernsOnly (t : Term) (k : Kernel) : TermEvent → Prop
  | .key inp => ¬ SwitchKey inp k
  | .write _ => k.task.currentActiveProcess = t
  | .call _ _ => True
  | .read _ => True

def Happens (L : Layout) (t : Term) (k : Kernel) (e : TermEvent) (k' : Kernel) : Prop :=
  ConcernsOnly t k e ∧ happen L t k e = k'

/--
Where there is a command to recall, the write position is on the screen, and the row ends
before a screenful has been erased.
-/
def RecallOk (move : Term → Kernel → Kernel) (k : Kernel) : Prop :=
  let t := k.page.currentTerminal
  k.hist t (recalledRow move k) 0 ≠ 0 → 0 ≤ k.term.writeY t ∧
    ∃ m : Nat, 69 ≤ m ∧ k.hist t (recalledRow move k) m = 0 ∧ k.term.writeX t + m < 2000

/-- Up and Down have such a command. -/
def EventOk (k : Kernel) (e : TermEvent) : Prop :=
  (e = .key 0x48 → RecallOk histUp k) ∧ (e = .key 0x50 → RecallOk histDown k)

/-! ## What an event keeps -/

/-- The terminal is on display, its cursor on the screen and its write position not below it. -/
structure OnDisplay (L : Layout) (t : Term) (k : Kernel) : Prop where
  mapped : Mapped L k videoMem offsetVideo
  shown : k.page.currentTerminal = t
  inside : CursorIn k t
  column : 0 ≤ k.term.writeX t ∧ k.term.writeX t < 80
  bottom : k.term.writeY t < 25

/-- And still is, and nothing outside its page was stored to. -/
structure Stays (L : Layout) (t : Term) (k k' : Kernel) : Prop extends OnDisplay L t k' where
  page : k'.page = k.page
  outside : ∀ a, a < offsetVideo ∨ offsetVideo + offset4K ≤ a → k'.ram a = k.ram a

section Events

variable {L : Layout} {t : Term} {k k' k'' : Kernel}

theorem OnDisplay.refl (h : OnDisplay L t k) : Stays L t k k := ⟨h, rfl, fun _ _ => rfl⟩

theorem Stays.trans (h : Stays L t k k') (h' : Stays L t k' k'') : Stays L t k k'' :=
  ⟨h'.toOnDisplay, h'.page.trans h.page, fun a ha => (h'.outside a ha).trans (h.outside a ha)⟩

/-- Drawing keeps all of it but the cursor. -/
theorem OnDisplay.drawn (h : OnDisplay L t k) {lo : Int} {s : Nat} (hdraws : Draws t lo s k k')
    (hin : CursorIn k' t) : Stays L t k k' := by
  refine ⟨⟨hdraws.mapped h.mapped, hdraws.shown h.shown, hin, ?_, ?_⟩, hdraws.page, hdraws.outside⟩
  · rw [hdraws.writeX]
    exact h.column
  · rw [hdraws.writeY]
    have := h.bottom
    omega

theorem OnDisplay.same (h : OnDisplay L t k) (hsame : SameScreen k k') : Stays L t k k' :=
  h.drawn (hsame.draws t 0) (hsame.inside h.inside)

theorem OnDisplay.putc (h : OnDisplay L t k) (c : Byte) : Stays L t k (putc L c k) := by
  obtain ⟨s, hdraws, hin⟩ := putc_draws (L := L) h.mapped h.shown h.inside (Int.le_refl _) c
  exact h.drawn hdraws hin

/-- The cursor goes back by a cell, or stays in the first one. -/
theorem OnDisplay.moveLeft (h : OnDisplay L t k) : Stays L t k (moveLeft k) := by
  by_cases hpos : 0 < cursorCell k t
  · obtain ⟨hin, -, hram, hterm⟩ := moveLeft_cursor h.shown h.inside hpos
    have hdraws : Draws t 0 0 k (Zbiggie.moveLeft k) :=
      .of_ram (Shows.moveLeft h.shown).page hram (by rw [hterm]) (by rw [hterm]) t _
    exact h.drawn hdraws hin
  · obtain ⟨hx0, hx1, hy0, hy1⟩ := h.inside
    simp only [cursorCell, numCols] at hpos
    have hstay : Zbiggie.moveLeft k = k := by
      unfold Zbiggie.moveLeft
      dsimp only
      rw [h.shown, if_neg (by omega), if_neg (by omega)]
    rw [hstay]
    exact h.refl

theorem OnDisplay.moveRight (h : OnDisplay L t k) : Stays L t k (moveRight k) := by
  obtain ⟨hin, -, hram, hterm⟩ := moveRight_cursor h.shown h.inside
  have hdraws : Draws t 0 0 k (Zbiggie.moveRight k) :=
    .of_ram (Shows.moveRight h.shown).page hram (by rw [hterm]) (by rw [hterm]) t _
  exact h.drawn hdraws hin

theorem OnDisplay.putcKb (h : OnDisplay L t k) {c : Byte} (hc : (Edit.char c).Plain) :
    Stays L t k (putcKb L c k) := by
  obtain ⟨s, hadv⟩ := putcKb_advances (L := L) h.mapped h.shown h.inside
    (not_or.mpr ⟨hc.1, hc.2.1⟩) hc.2.2 (Int.le_refl _)
  exact h.drawn hadv.toDraws hadv.inside

/-! The keys. -/

theorem OnDisplay.termMoveLeft (h : OnDisplay L t k) : Stays L t k (termMoveLeft k) := by
  unfold Zbiggie.termMoveLeft
  dsimp only
  rw [h.shown]
  split
  · exact h.moveLeft.trans (h.moveLeft.same (.setCurPos _ t _))
  · exact h.refl

theorem OnDisplay.termMoveRight (h : OnDisplay L t k) : Stays L t k (termMoveRight k) := by
  unfold Zbiggie.termMoveRight
  dsimp only
  rw [h.shown]
  split
  · exact h.moveRight.trans (h.moveRight.same (.setCurPos _ t _))
  · exact h.refl

/-- Enter, and Ctrl-L: the write position goes to the top. -/
theorem stays_top (h : Mapped L k videoMem offsetVideo) (hcur : k.page.currentTerminal = t)
    (hpage : k'.page = k.page)
    (houtside : ∀ a, a < offsetVideo ∨ offsetVideo + offset4K ≤ a → k'.ram a = k.ram a)
    (hin : CursorIn k' t) (hx : k'.term.writeX t = 0) (hy : k'.term.writeY t = 0) :
    Stays L t k k' := by
  refine ⟨⟨h.of_page hpage, ?_, hin, by omega, by omega⟩, hpage, houtside⟩
  rw [hpage]
  exact hcur

/-- Enter draws nothing. -/
theorem termEnter_undrawn (k : Kernel) : (termEnter k).page = k.page ∧
    (termEnter k).ram = k.ram ∧ (termEnter k).screen = k.screen := by
  unfold termEnter Kernel.setLine Kernel.setCurPos Kernel.setPrevSize Kernel.setCurSize
    Kernel.setWriteX Kernel.setWriteY Kernel.setWaitForNl
  exact ⟨rfl, rfl, rfl⟩

theorem termEnter_write (hcur : k.page.currentTerminal = t) : (termEnter k).term.writeX t = 0 ∧
    (termEnter k).term.writeY t = 0 ∧ (termEnter k).term.waitForNl t = false := by
  subst hcur
  simp [termEnter]

theorem OnDisplay.termEnter (h : OnDisplay L t k) : Stays L t k (termEnter k) := by
  obtain ⟨hpage, hram, hscreen⟩ := termEnter_undrawn k
  obtain ⟨hx, hy, -⟩ := termEnter_write h.shown
  exact stays_top h.mapped h.shown hpage (fun a _ => congrFun hram a) (h.inside.of_screen hscreen)
    hx hy

theorem OnDisplay.termBackspace (h : OnDisplay L t k) : Stays L t k (termBackspace L k) := by
  have hshrunk : Stays L t k (shrunk k t) := by
    unfold shrunk
    split
    · exact h.same (.setCurSize k t _)
    · exact h.refl
  have hplain := eraseChar_plain k t
  have h1 := hshrunk.toOnDisplay
  rw [termBackspace_eq k h.shown]
  refine hshrunk.trans ?_
  split
  · unfold eraseBack
    dsimp only
    have hback : Stays L t (shrunk k t) (if pastWrite (shrunk k t) t then
        Zbiggie.moveLeft (Zbiggie.putcKb L (eraseChar k t) (Zbiggie.moveLeft (shrunk k t)))
        else shrunk k t) := by
      split
      · have hleft := h1.moveLeft
        have hput := hleft.putcKb hplain
        exact (hleft.trans hput).trans hput.moveLeft
      · exact h1.refl
    exact hback.trans (hback.same ((SameScreen.setCurPos _ t _).trans (.setLine _ t _ _)))
  · unfold eraseHere
    dsimp only
    have hset := h1.same (.setLine (shrunk k t) t ((shrunk k t).term.curPos t) (eraseChar k t))
    refine hset.trans ?_
    split
    · have hput := hset.putc (eraseChar k t)
      exact hput.trans hput.moveLeft
    · exact hset.refl

/-- **`term_putc`**, of anything. -/
theorem OnDisplay.termPutc (h : OnDisplay L t k) (c : Byte) : Stays L t k (termPutc L c k) := by
  unfold Zbiggie.termPutc
  dsimp only
  split
  · exact h.termEnter
  · rename_i hbreak
    split
    · exact h.termBackspace
    · rename_i hbs
      split
      · have hc : (Edit.char c).Plain :=
          ⟨fun he => hbreak (.inl he), fun he => hbreak (.inr he), hbs⟩
        obtain ⟨s, hadv⟩ :=
          termInsert_advances (L := L) h.mapped h.shown h.inside (Int.le_refl _) hc
        exact h.drawn hadv.toDraws hadv.inside
      · exact h.refl

/-- **The copying loop** of a recall, whatever the row holds. -/
theorem OnDisplay.histCopy (fuel : Nat) : ∀ {k : Kernel} (i : Nat), OnDisplay L t k →
    Stays L t k (histCopy L t fuel i k) := by
  induction fuel with
  | zero =>
      intro k i h
      exact h.refl
  | succ fuel ih =>
      intro k i h
      by_cases hz : k.hist t (k.term.histIndeces t) i = 0
      · rw [histCopy_stop hz]
        exact h.refl
      · have hset := h.same (.setLine k t i (k.hist t (k.term.histIndeces t) i))
        have hput := hset.putc (k.hist t (k.term.histIndeces t) i)
        have hround : Stays L t k (recallByte L t i k) :=
          (hset.trans hput).trans
            (hput.same ((SameScreen.setCurPos _ t _).trans (.setCurSize _ t _)))
        rw [histCopy_next hz]
        exact hround.trans (ih (i + 1) hround.toOnDisplay)

/-- **Up and Down**, from a write position that is on the screen. -/
theorem OnDisplay.histStep (h : OnDisplay L t k) {move : Term → Kernel → Kernel}
    (hmove : ∀ t k, Browsed k (move t k)) (reset : Bool) (hok : RecallOk move k) :
    Stays L t k (histStep L move reset k) := by
  obtain ⟨k1, -, hbrowsed, hrow, hcases⟩ := histStep_cases (L := L) hmove reset h.shown
  unfold RecallOk at hok
  dsimp only at hok
  rw [h.shown, hrow] at hok
  obtain ⟨i, rfl⟩ := hbrowsed
  have hmoved : Stays L t k { k with term := { k.term with histIndeces := i } } :=
    h.same ⟨rfl, rfl, rfl, rfl, rfl⟩
  rcases hcases with ⟨-, hstep⟩ | ⟨hsome, hstep⟩
  · rw [hstep]
    exact hmoved
  · obtain ⟨hy, m, hm, hend, hroom⟩ := hok hsome
    have h1 := hmoved.toOnDisplay
    obtain ⟨s, k2, heq, hdraws, hin, -⟩ := histRecall_erased (L := L) h1.mapped h1.shown
      h1.column.1 h1.column.2 hy h1.bottom hm hend hroom reset
    have herased := h1.drawn hdraws hin
    rw [hstep, heq]
    exact (hmoved.trans herased).trans (OnDisplay.histCopy histBytes 0 herased.toOnDisplay)

theorem blankLine_same (t : Term) (n : Nat) (k : Kernel) : SameScreen k (blankLine t n k) :=
  forLoop_inv (P := fun _ k' => SameScreen k k') ⟨rfl, rfl, rfl, rfl, rfl⟩ n
    fun _ k' _ hk' => hk'.trans (.setLine k' t _ 0)

theorem blankLine_task (t : Term) (n : Nat) (k : Kernel) : (blankLine t n k).task = k.task :=
  forLoop_inv (P := fun _ (k' : Kernel) => k'.task = k.task) rfl n fun _ _ _ h => h

/-- The counters and the write position are taken to zero, and nothing else. -/
theorem zeroed_kept {k1 : Kernel} (hsame : SameScreen k k1) (htask : k1.task = k.task) :
    let k2 := (((k1.setCurPos t 0).setCurSize t 0).setWriteX t 0).setWriteY t 0
    k2.page = k.page ∧ k2.ram = k.ram ∧ k2.screen = k.screen ∧ k2.task = k.task ∧
      k2.term.writeX t = 0 ∧ k2.term.writeY t = 0 := by
  have hcount := hsame.trans ((SameScreen.setCurPos k1 t 0).trans (.setCurSize _ t 0))
  have htask' : ((k1.setCurPos t 0).setCurSize t 0).task = k.task := htask
  generalize (k1.setCurPos t 0).setCurSize t 0 = k2 at hcount htask' ⊢
  exact ⟨hcount.page, hcount.ram, hcount.screen, htask', by simp, by simp⟩

/-- **`term_init`** starts the line over, and takes the write position to the first cell. -/
theorem termInit_kept (hcur : k.page.currentTerminal = t) :
    (termInit k).page = k.page ∧ (termInit k).ram = k.ram ∧ (termInit k).screen = k.screen ∧
      (termInit k).task = k.task ∧ (termInit k).term.writeX t = 0 ∧
      (termInit k).term.writeY t = 0 := by
  rw [termInit_eq, hcur]
  exact zeroed_kept (blankLine_same t bufSize k) (blankLine_task t bufSize k)

/-- The cursor is in the first cell of a cleared screen. -/
theorem cleared_cursor (hcur : k.page.currentTerminal = t) :
    (termInit (termClear L k)).screen.screenX t = 0 ∧
      (termInit (termClear L k)).screen.screenY t = 0 := by
  have hclear := Shows.termClear (L := L) hcur
  obtain ⟨-, -, hscreen, -⟩ := termInit_kept (hclear.current.trans hcur)
  rw [hscreen]
  unfold termClear
  exact setPos_cursor ((Shows.clear hcur).current.trans hcur) 0 0

/-- **A cleared screen**, whatever it was. -/
theorem stays_cleared (h : Mapped L k videoMem offsetVideo) (hcur : k.page.currentTerminal = t) :
    Stays L t k (termInit (termClear L k)) := by
  obtain ⟨-, htouches⟩ := clear_laidOut h hcur
  have hclear := Shows.termClear (L := L) hcur
  obtain ⟨hpage, hram, -, -, hwx, hwy⟩ := termInit_kept (hclear.current.trans hcur)
  obtain ⟨hx, hy⟩ := cleared_cursor (L := L) hcur
  -- of a generic state, for `clear` is not to be computed here
  have hset : ∀ k0 : Kernel, (setPos 0 0 k0).ram = k0.ram := fun _ => rfl
  have hdrawn : (termClear L k).ram = (clear L k).ram := by
    unfold termClear
    exact hset _
  refine stays_top h hcur (hpage.trans hclear.page) ?_ ⟨?_, ?_, ?_, ?_⟩ hwx hwy
  · intro a ha
    rw [hram, hdrawn, htouches.ram a ha]
  · exact Int.le_of_eq hx.symm
  · exact hx.trans_lt (by decide)
  · exact Int.le_of_eq hy.symm
  · exact hy.trans_lt (by decide)

/-- **One key of the terminal.** -/
theorem OnDisplay.strike (h : OnDisplay L t k) {e : TermKey} (hup : e = .up → RecallOk histUp k)
    (hdown : e = .down → RecallOk histDown k) : Stays L t k (strike L k e) := by
  cases e with
  | char c => exact h.termPutc c
  | left => exact h.termMoveLeft
  | right => exact h.termMoveRight
  | up => exact h.histStep browsed_histUp true (hup rfl)
  | down => exact h.histStep browsed_histDown false (hdown rfl)
  | clear => exact stays_cleared h.mapped h.shown

/-- **Output.** -/
theorem OnDisplay.output (buf : List Byte) : ∀ {k : Kernel}, OnDisplay L t k →
    k.task.currentActiveProcess = t → Stays L t k (buf.foldl (fun k c => mtPutc L c k) k) := by
  induction buf with
  | nil =>
      intro k h _
      exact h.refl
  | cons c buf ih =>
      intro k h hactive
      have hput : mtPutc L c k = Zbiggie.putc L c k := by
        unfold mtPutc
        dsimp only
        rw [if_pos (hactive.trans h.shown.symm)]
      have hfirst := h.putc c
      have hrest := ih hfirst.toOnDisplay
        ((congrArg Tasking.currentActiveProcess (Shows.putc (L := L) h.shown c).task).trans hactive)
      rw [List.foldl_cons, hput]
      exact hfirst.trans hrest

theorem OnDisplay.termWrite (h : OnDisplay L t k) (hactive : k.task.currentActiveProcess = t)
    (buf : List Byte) : Stays L t k (termWrite L buf k) := by
  have hout := h.output buf hactive
  have hlast := termWrite_cursor (L := L) hactive buf
  unfold Zbiggie.termWrite at hlast ⊢
  generalize buf.foldl (fun k c => mtPutc L c k) k = k1 at hout hlast ⊢
  have hsame : (saveWritePos k1).screen = k1.screen := rfl
  rw [hsame] at hlast
  refine hout.trans ⟨⟨hout.mapped.of_page rfl, hout.shown, hout.inside.of_screen hsame, ?_, ?_⟩,
    rfl, fun _ _ => rfl⟩
  · rw [hlast.1]
    exact ⟨hout.inside.x0, hout.inside.x1⟩
  · rw [hlast.2]
    exact hout.inside.y1

/-- **A step of a reader.** What it draws is one newline. -/
theorem OnDisplay.termReadStep (h : OnDisplay L t k) (r : Reader) :
    Stays L t k (termReadStep L t r k).2 := by
  cases r with
  | spinning n buf =>
      unfold Zbiggie.termReadStep
      dsimp only
      split
      · exact h.refl
      · obtain ⟨hx0, hx1, hy0, hy1⟩ := h.inside
        have hcol : (setX startPos k).screen.screenX t = 10 := by
          rw [← h.shown]
          exact Function.update_self ..
        have hdraws : Draws t 0 0 k (setX startPos k) := by
          refine .of_ram ?_ ?_ ?_ ?_ t _ <;> rfl
        have hset := h.drawn hdraws ⟨by omega, by omega, hy0, hy1⟩
        exact hset.trans (hset.putc 0x0A)
  | loading n i buf =>
      unfold Zbiggie.termReadStep
      dsimp only
      split
      · exact h.refl
      · exact h.refl
  | clearing n i buf =>
      unfold Zbiggie.termReadStep
      dsimp only
      split
      · exact h.same (.setLine k _ i 0)
      · exact h.same (.setLine k _ i 0)
  | returned i buf => exact h.refl

/-- **One scancode.** -/
theorem OnDisplay.keyHandler (h : OnDisplay L t k) {inp : Byte} (hswitch : ¬ SwitchKey inp k)
    (hok : EventOk k (.key inp)) : Stays L t k (keyHandler L inp k) := by
  have hstruck := keyHandler_struck L inp k
  generalize Zbiggie.keyHandler L inp k = k1 at hstruck ⊢
  cases hstruck with
  | flags keys => exact h.same ⟨rfl, rfl, rfl, rfl, rfl⟩
  | switch u hs => exact absurd hs hswitch
  | key e hup hdown =>
      exact h.strike (fun he => hok.1 (by rw [hup he])) (fun he => hok.2 (by rw [hdown he]))

/-- **One event.** -/
theorem OnDisplay.happen (h : OnDisplay L t k) {e : TermEvent} (hon : ConcernsOnly t k e)
    (hok : EventOk k e) : Stays L t k (happen L t k e) := by
  cases e with
  | key inp => exact h.keyHandler hon hok
  | write buf => exact h.termWrite hon buf
  | call n buf => exact h.same ⟨rfl, rfl, rfl, rfl, rfl⟩
  | read r => exact h.termReadStep r

end Events

/-! ## Every run -/

/-- The event stores at `a`: some byte there does not survive it. -/
def StoresAt (L : Layout) (t : Term) (k : Kernel) (e : TermEvent) (a : Nat) : Prop :=
  Writes (fun m => (happen L t (withRam k m) e).ram) a

/-- The history is not kept on the screen. -/
theorem histSkip_withRam {move : Term → Kernel → Kernel}
    (hmove : ∀ t k m, move t (withRam k m) = withRam (move t k) m) (t : Term) (m : Mem)
    (fuel : Nat) :
    ∀ k, histSkip move t fuel (withRam k m) = withRam (histSkip move t fuel k) m := by
  induction fuel with
  | zero =>
      intro k
      rfl
  | succ fuel ih =>
      intro k
      have hsame : (withRam k m).hist t ((withRam k m).term.histIndeces t) 0
          = k.hist t (k.term.histIndeces t) 0 := rfl
      unfold histSkip
      rw [hsame]
      split
      · rw [hmove, ih]
      · rfl

theorem histUp_withRam (t : Term) (k : Kernel) (m : Mem) :
    histUp t (withRam k m) = withRam (histUp t k) m := by
  unfold histUp withRam Kernel.setHistIndex
  dsimp only
  split
  · rfl
  · rfl

theorem RecallOk.withRam {move : Term → Kernel → Kernel}
    (hmove : ∀ t k m, move t (withRam k m) = withRam (move t k) m) {k : Kernel}
    (h : RecallOk move k) (m : Mem) : RecallOk move (withRam k m) := by
  have hrow : recalledRow move (Proof.withRam k m) = recalledRow move k := by
    have hskip := histSkip_withRam hmove k.page.currentTerminal m histSize
      (move k.page.currentTerminal k)
    rw [← hmove] at hskip
    unfold recalledRow
    rw [withRam_page, hskip]
    rfl
  unfold RecallOk at h ⊢
  rw [hrow]
  exact h

theorem storesAt_page {L : Layout} {t : Term} {k : Kernel} (h : OnDisplay L t k) {e : TermEvent}
    (hon : ConcernsOnly t k e) (hok : EventOk k e) {a : Nat} (hw : StoresAt L t k e a) :
    offsetVideo ≤ a ∧ a < offsetVideo + offset4K := by
  obtain ⟨m, hm⟩ := hw
  have hm0 : OnDisplay L t (withRam k m) :=
    ⟨h.mapped.withRam m, h.shown, ⟨h.inside.x0, h.inside.x1, h.inside.y0, h.inside.y1⟩, h.column,
      h.bottom⟩
  have hon0 : ConcernsOnly t (withRam k m) e := by
    cases e with
    | key inp => exact hon
    | write buf => exact hon
    | call n buf => trivial
    | read r => trivial
  have hok0 : EventOk (withRam k m) e :=
    ⟨fun he => (hok.1 he).withRam histUp_withRam m,
      fun he => (hok.2 he).withRam (fun _ _ _ => rfl) m⟩
  by_contra hout
  exact hm ((hm0.happen hon0 hok0).outside a (by omega))

/--
**The cursor stays on the screen, and every store in its page**: from a cleared screen on,
whatever is typed on the terminal, written to it and read from it, as long as Up and Down do
not find a command while the write position has left the screen, or one whose row does not end
in time.
-/
theorem screen_bounds_kept {L : Layout} {k₀ k : Kernel} {t : Term} {es : List TermEvent}
    (hmapped : Mapped L k₀ videoMem offsetVideo) (hcur : k₀.page.currentTerminal = t)
    (hrun : Run (Guarded (Happens L t) EventOk) (termInit (termClear L k₀)) es k) :
    CursorIn k t ∧ ∀ e, ConcernsOnly t k e → EventOk k e → ∀ a, StoresAt L t k e a →
      offsetVideo ≤ a ∧ a < offsetVideo + offset4K := by
  have hdisplay : OnDisplay L t k := by
    refine hrun.invariant (I := fun k => OnDisplay L t k)
      (stays_cleared hmapped hcur).toOnDisplay ?_
    intro k e _ hstep hk
    obtain ⟨hok, hon, rfl⟩ := hstep
    exact (hk.happen hon hok).toOnDisplay
  exact ⟨hdisplay.inside, fun e hon hok a hw => storesAt_page hdisplay hon hok hw⟩

/-! ## Above the screen -/

/-- The cursor went `n` cells on in its row, which need not be one of the screen. -/
structure Along (t : Term) (n : Nat) (k k' : Kernel) : Prop where
  page : k'.page = k.page
  history : k'.term.history = k.term.history
  histIndeces : k'.term.histIndeces = k.term.histIndeces
  writeX : k'.term.writeX = k.term.writeX
  writeY : k'.term.writeY = k.term.writeY
  screenX : k'.screen.screenX t = k.screen.screenX t + n
  screenY : k'.screen.screenY t = k.screen.screenY t

section Above

variable {L : Layout} {t : Term} {k k' k'' : Kernel} {n n' : Nat}

theorem Along.refl (t : Term) (k : Kernel) : Along t 0 k k :=
  ⟨rfl, rfl, rfl, rfl, rfl, (Int.add_zero _).symm, rfl⟩

theorem Along.trans (h : Along t n k k') (h' : Along t n' k' k'') : Along t (n + n') k k'' := by
  refine ⟨h'.page.trans h.page, h'.history.trans h.history, h'.histIndeces.trans h.histIndeces,
    h'.writeX.trans h.writeX, h'.writeY.trans h.writeY, ?_, h'.screenY.trans h.screenY⟩
  rw [h'.screenX, h.screenX]
  omega

theorem kstore_only (L : Layout) (k : Kernel) (v : Word) (b : Byte) :
    ∃ m, kstore L k v b = withRam k m := by
  unfold kstore
  split
  · exact ⟨_, rfl⟩
  · exact ⟨k.ram, rfl⟩

theorem putCell_only (L : Layout) (base : Nat) (attr : Byte) (x y : Int) (c : Byte) (k : Kernel) :
    ∃ m, putCell L base attr x y c k = withRam k m := by
  unfold putCell
  dsimp only
  split
  · obtain ⟨m, hm⟩ := kstore_only L k (BitVec.ofInt 32 (cellAddr base x y)) c
    rw [hm]
    exact kstore_only L (withRam k m) _ attr
  · exact ⟨k.ram, rfl⟩

/-- **`putc` short of the end of a row**, wherever the row is. -/
theorem putc_along (hcur : k.page.currentTerminal = t) {c : Byte} (hc : ¬ IsBreak c)
    (hx : k.screen.screenX t + 1 < 80) (hy : k.screen.screenY t < 25) :
    Along t 1 k (putc L c k) := by
  have hplain : ¬ (c = 0x0A ∨ c = 0x0D) := hc
  obtain ⟨m, hm⟩ :=
    putCell_only L videoMem (attribs t) (k.screen.screenX t) (k.screen.screenY t) c k
  have hcol : ((withRam k m).setScreenX t ((withRam k m).screen.screenX t + 1)).screen.screenX t
      = k.screen.screenX t + 1 := Function.update_self ..
  have hrow : ((withRam k m).setScreenX t ((withRam k m).screen.screenX t + 1)).screen.screenY t
      = k.screen.screenY t := rfl
  have hwrap : ¬ k.screen.screenX t + 1 ≥ (numCols : Int) := not_le.mpr hx
  have hscroll : ¬ k.screen.screenY t ≥ (numRows : Int) := not_le.mpr hy
  have hput : putc L c k = (withRam k m).setScreenX t ((withRam k m).screen.screenX t + 1) := by
    unfold putc putChar
    dsimp only
    rw [hcur, if_neg hplain, hm, hcol, if_neg hwrap, hrow, if_neg hscroll]
  rw [hput]
  exact ⟨rfl, rfl, rfl, rfl, rfl, hcol, rfl⟩

/-- The erasing loop, where nothing is behind the width it clears. -/
theorem histErase_along : ∀ (n fuel i : Nat) {k : Kernel}, i + n = 69 → n < fuel →
    k.page.currentTerminal = t → k.screen.screenX t + n < 80 → k.screen.screenY t < 25 →
    k.hist t (k.term.histIndeces t) 69 = 0 → Along t n k (histErase L t fuel i k) := by
  intro n
  induction n with
  | zero =>
      intro fuel i k hi hfuel hcur _ _ hend
      obtain ⟨fuel, rfl⟩ : ∃ f, fuel = f + 1 := ⟨fuel - 1, by omega⟩
      obtain rfl : i = 69 := by omega
      unfold histErase
      rw [if_neg (by
        rintro (hlt | hne)
        · exact absurd hlt (by decide)
        · exact hne hend)]
      exact .refl t k
  | succ n ih =>
      intro fuel i k hi hfuel hcur hx hy hend
      obtain ⟨fuel, rfl⟩ : ∃ f, fuel = f + 1 := ⟨fuel - 1, by omega⟩
      have hput := putc_along (L := L) (c := 0) hcur (by decide) (by omega) hy
      have hcol := hput.screenX
      have hrow := hput.screenY
      have hrest := ih fuel (i + 1) (k := putc L 0 k) (by omega) (by omega)
        (by rw [hput.page]; exact hcur) (by omega) (by omega)
        ((hist_congr hput.history hput.histIndeces t 69).trans hend)
      unfold histErase
      rw [if_pos (.inl (by simp only [numCols, startPos]; omega)), Nat.add_comm n 1]
      exact hput.trans hrest

theorem recallByte_along {i : Nat} (hcur : k.page.currentTerminal = t)
    (hplain : ¬ IsBreak (k.hist t (k.term.histIndeces t) i)) (hx : k.screen.screenX t + 1 < 80)
    (hy : k.screen.screenY t < 25) : Along t 1 k (recallByte L t i k) := by
  have hset : Along t 0 k (k.setLine t i (k.hist t (k.term.histIndeces t) i)) :=
    ⟨rfl, rfl, rfl, rfl, rfl, (Int.add_zero _).symm, rfl⟩
  have hput := hset.trans (putc_along (L := L) (k := k.setLine t i _) hcur hplain hx hy)
  exact ⟨hput.page, hput.history, hput.histIndeces, hput.writeX, hput.writeY, hput.screenX,
    hput.screenY⟩

/-- The copying loop, over a row that fits in what is left of the cursor's. -/
theorem histCopy_along : ∀ (m fuel i : Nat) {k : Kernel}, k.page.currentTerminal = t →
    k.screen.screenX t + m < 80 → k.screen.screenY t < 25 → RowFrom k t i m →
    (∀ j, j < m → ¬ IsBreak (k.hist t (k.term.histIndeces t) (i + j : Nat))) → m ≤ fuel →
    Along t m k (histCopy L t fuel i k) := by
  intro m
  induction m with
  | zero =>
      intro fuel i k _ _ _ hrow _ _
      rw [hrow.copy_stop]
      exact .refl t k
  | succ m ih =>
      intro fuel i k hcur hx hy hrow hplain hfuel
      obtain ⟨fuel, rfl⟩ : ∃ f, fuel = f + 1 := ⟨fuel - 1, by omega⟩
      have hround := recallByte_along (L := L) (i := i) hcur (hplain 0 (Nat.succ_pos m)) (by omega)
        hy
      have hcol := hround.screenX
      have hrest := ih fuel (i + 1) (by rw [hround.page]; exact hcur) (by omega)
        (by rw [hround.screenY]; exact hy) (hrow.next hround.history hround.histIndeces)
        (fun j hj => by
          rw [hist_congr hround.history hround.histIndeces, Nat.add_right_comm]
          exact hplain (j + 1) (by omega)) (by omega)
      rw [hrow.copy_next, Nat.add_comm m 1]
      exact hround.trans hrest

/-- **A short command** that is recalled from above the screen is shown there. -/
theorem histRecall_above (hcur : k.page.currentTerminal = t) (hx : k.term.writeX t = 0)
    (hy : k.term.writeY t < 0) {m : Nat} (hm : m < 69) (hrow : RowFrom k t 0 m)
    (hplain : ∀ j, j < m → ¬ IsBreak (k.hist t (k.term.histIndeces t) j))
    (hend : k.hist t (k.term.histIndeces t) 69 = 0) (reset : Bool) :
    (histRecall L t reset k).screen.screenY t = k.term.writeY t := by
  obtain ⟨k1, heq, hsame, hhist, hind⟩ := histRecall_start L t reset k
  obtain ⟨hx1, hy1⟩ := setPos_cursor hcur (k.term.writeX t) (k.term.writeY t)
  rw [← hsame.screen] at hx1 hy1
  have hcur1 : k1.page.currentTerminal = t := by
    rw [hsame.page]
    exact hcur
  have herase := histErase_along (L := L) 69 histBytes 0 rfl (by decide) hcur1 (by omega) (by omega)
    ((hist_congr hhist hind t 69).trans hend)
  obtain ⟨k2, hk2⟩ : ∃ k2, k2 = histErase L t histBytes 0 k1 := ⟨_, rfl⟩
  rw [← hk2] at herase heq
  have hcur2 : k2.page.currentTerminal = t := by
    rw [herase.page]
    exact hcur1
  have hwx : k2.term.writeX t = 0 := by
    rw [herase.writeX, hsame.writeX]
    exact hx
  have hwy : k2.term.writeY t = k.term.writeY t := by
    rw [herase.writeY, hsame.writeY]
    rfl
  obtain ⟨hx2, hy2⟩ := setPos_cursor hcur2 (k2.term.writeX t) (k2.term.writeY t)
  obtain ⟨k3, hk3⟩ : ∃ k3, k3 = setPos (k2.term.writeX t) (k2.term.writeY t) k2 := ⟨_, rfl⟩
  have hbytes : ∀ j : Nat, k3.hist t (k3.term.histIndeces t) j
      = k.hist t (k.term.histIndeces t) j := by
    rw [hk3]
    exact hist_congr (herase.history.trans hhist) (herase.histIndeces.trans hind) t
  have hcur3 : k3.page.currentTerminal = t := by
    rw [hk3]
    exact hcur2
  have hfuel : 69 ≤ histBytes := by decide
  rw [← hk3] at heq hx2 hy2
  have hcopy := histCopy_along (L := L) m histBytes 0 hcur3 (by omega) (by omega)
    ⟨fun j hj => by rw [hbytes]; exact hrow.bytes j hj, by rw [hbytes]; exact hrow.stop⟩
    (fun j hj => by rw [hbytes, Nat.zero_add]; exact hplain j hj) (by omega)
  rw [heq, hcopy.screenY, hy2, hwy]

end Above

/-! How the write position gets there. -/

theorem keyHandler_up (L : Layout) (k : Kernel) : keyHandler L 0x48 k = upHist L k := by
  unfold keyHandler
  dsimp only
  rw [if_neg (by decide), if_neg (by decide), if_pos (by decide)]

section Bottom

variable {L : Layout} {t : Term}

/-- Line breaks, as far as the last row. -/
theorem newlines_row (n : Nat) : ∀ {k : Kernel}, k.page.currentTerminal = t →
    k.task.currentActiveProcess = t → k.screen.screenY t + n < 25 →
    ((List.replicate n (0x0A : Byte)).foldl (fun k c => mtPutc L c k) k).screen.screenY t
      = k.screen.screenY t + n := by
  induction n with
  | zero =>
      intro k _ _ _
      exact (Int.add_zero _).symm
  | succ n ih =>
      intro k hcur hactive hroom
      have hnext : mtPutc L 0x0A k = nextRow t k := by
        have hlast : ¬ k.screen.screenY t + 1 ≥ (numRows : Int) := by
          simp only [numRows]
          omega
        unfold mtPutc
        dsimp only
        rw [if_pos (hactive.trans hcur.symm), putc_newRow hcur (.inl rfl), if_neg hlast]
      obtain ⟨-, hrow⟩ := nextRow_cursor t k
      have hrest := ih (k := nextRow t k) hcur hactive (by omega)
      rw [List.replicate_succ, List.foldl_cons, hnext, hrest, hrow]
      omega

/-- The newline of a reader in the last row takes the write position up. -/
theorem readNewline_bottom {k : Kernel} (h : Mapped L k videoMem offsetVideo)
    (hcur : k.page.currentTerminal = t) (hy : k.screen.screenY t = 24)
    (hwait : k.term.waitForNl t = false) (n : Int) (buf : Mem) :
    (termReadStep L t (.spinning n buf) k).2.term
      = { k.term with writeY := Function.update k.term.writeY t (k.term.writeY t - 1) } := by
  have hm : Mapped L (nextRow t (setX startPos k)) videoMem offsetVideo := h.of_page rfl
  have hlast : (setX startPos k).screen.screenY t + 1 ≥ (numRows : Int) := by
    show k.screen.screenY t + 1 ≥ (25 : Int)
    omega
  obtain ⟨-, hterm, -⟩ := scroll_effect hm hcur
  unfold termReadStep
  dsimp only
  rw [if_neg (by rw [hwait]; decide), putc_newRow (k := setX startPos k) hcur (.inl rfl),
    if_pos hlast]
  exact hterm

theorem termWrite_screen (L : Layout) (buf : List Byte) (k : Kernel) :
    (termWrite L buf k).screen = (buf.foldl (fun k c => mtPutc L c k) k).screen := rfl

/--
**A line that is entered and read in the last row** leaves the write position above
the first.
-/
theorem entered_bottom {k : Kernel} (h : OnDisplay L t k) (hy : k.screen.screenY t = 24) (n : Int)
    (buf : Mem) {k1 k2 k3 : Kernel} (hk1 : k1 = (termReadCall t n buf k).2)
    (hk2 : k2 = keyHandler L enterKey k1) (hk3 : k3 = (termReadStep L t (.spinning n buf) k2).2) :
    OnDisplay L t k3 ∧ SameHist k k3 ∧ k3.term.writeX t = 0 ∧ k3.term.writeY t = -1 := by
  have hcall : SameScreen k k1 := by
    rw [hk1]
    exact ⟨rfl, rfl, rfl, rfl, rfl⟩
  have h1 := (h.same hcall).toOnDisplay
  rw [keyHandler_enter] at hk2
  have h2 : OnDisplay L t k2 := hk2 ▸ h1.termEnter.toOnDisplay
  obtain ⟨-, -, hscreen2⟩ := termEnter_undrawn k1
  obtain ⟨hx, hy2, hwait⟩ := termEnter_write h1.shown
  rw [← hk2] at hscreen2 hx hy2 hwait
  have hterm := readNewline_bottom h2.mapped h2.shown (by rw [hscreen2, hcall.screen]; exact hy)
    hwait n buf
  have h3 := (h2.termReadStep (.spinning n buf)).toOnDisplay
  have hhist : SameHist k k2 := by
    rw [hk2, hk1]
    exact SameHist.frame.trans (SameHist.frame.setWaitForNl k t true)
      (SameHist.frame.termEnter _)
  have hpage := (h2.termReadStep (.spinning n buf)).page
  rw [← hk3] at hterm h3 hpage
  refine ⟨h3, SameHist.frame.trans hhist ⟨hpage, by rw [hterm], by rw [hterm]⟩, ?_, ?_⟩
  · rw [hterm]
    exact hx
  · rw [hterm]
    show Function.update k2.term.writeY t (k2.term.writeY t - 1) t = -1
    rw [Function.update_self, hy2]
    rfl

end Bottom

/-- A blank screen, and "a" for a command. -/
def recallPrompt : Kernel := saveHist [0x61] (blankPrompt 0)

theorem recallPrompt_mapped : Mapped someLayout recallPrompt videoMem offsetVideo :=
  (blankPrompt_mapped 0).of_page rfl

/-- A letter and Left, from a cleared screen. -/
theorem screen_bounds_letter :
    CursorIn (keyHandler someLayout 0x4B (keyHandler someLayout 0x1E
      (termInit (termClear someLayout recallPrompt)))) 0 := by
  have hkey : ∀ {inp : Byte} {k : Kernel},
      inp ≠ 0x48 → inp ≠ 0x50 → inp.toNat ∉ [0x3B, 0x3C, 0x3D] →
      Guarded (Happens someLayout 0) EventOk k (.key inp) (keyHandler someLayout inp k) := by
    intro inp k hup hdown hswitch
    refine ⟨⟨?_, ?_⟩, fun hs => hswitch hs.1, rfl⟩
    · intro he
      exact absurd (TermEvent.key.inj he) hup
    · intro he
      exact absurd (TermEvent.key.inj he) hdown
  have hrun : Run (Guarded (Happens someLayout 0) EventOk)
      (termInit (termClear someLayout recallPrompt)) [.key 0x1E, .key 0x4B] _ :=
    .snoc (.snoc .nil (hkey (by decide) (by decide) (by decide)))
      (hkey (by decide) (by decide) (by decide))
  exact (screen_bounds_kept recallPrompt_mapped rfl hrun).1

/-- The command it finds going up. -/
theorem recallPrompt_rows : recallPrompt.term.histIndeces 0 = 2 ∧ recallPrompt.hist 0 1 0 = 0x61 ∧
    recallPrompt.hist 0 1 1 = 0 ∧ recallPrompt.hist 0 1 69 = 0 :=
  ⟨by decide, by decide, by decide, by decide⟩

/-- A row that is not empty is not skipped. -/
theorem histSkip_stop {move : Term → Kernel → Kernel} {t : Term} {k : Kernel}
    (h : k.hist t (k.term.histIndeces t) 0 ≠ 0) (fuel : Nat) : histSkip move t fuel k = k := by
  cases fuel with
  | zero => rfl
  | succ fuel =>
      unfold histSkip
      rw [if_neg h]

/-- **Up, with that history**, from a write position above the screen. -/
theorem recallPrompt_above {L : Layout} {k : Kernel} (hcur : k.page.currentTerminal = 0)
    (hsame : SameHist recallPrompt k) (hx : k.term.writeX 0 = 0) (hy : k.term.writeY 0 < 0) :
    (upHist L k).screen.screenY 0 = k.term.writeY 0 := by
  obtain ⟨hind, hfirst, hstop, hend⟩ := recallPrompt_rows
  obtain ⟨k1, hk1⟩ : ∃ k1, k1 = histUp 0 k := ⟨_, rfl⟩
  have hindex : k1.term.histIndeces 0 = 1 := by
    have hplace : InHist k 0 := by
      unfold InHist
      rw [hsame.2.2, hind]
      decide
    rw [hk1, movesBy_up.index 0 k hplace, hsame.2.2, hind]
    decide
  have hbrowsed : Browsed k k1 := hk1 ▸ browsed_histUp 0 k
  have hbytes : ∀ j : Nat, k1.hist 0 (k1.term.histIndeces 0) j = recallPrompt.hist 0 1 j := by
    intro j
    rw [hindex]
    unfold Kernel.hist
    rw [hbrowsed.history, hsame.2.1]
  have h0 : k1.hist 0 (k1.term.histIndeces 0) 0 ≠ 0 := by
    refine (hbytes 0).trans_ne ?_
    exact hfirst.trans_ne (by decide)
  have hrecall : upHist L k = histRecall L 0 true k1 := by
    unfold upHist histStep
    dsimp only
    rw [hcur, ← hk1, histSkip_stop h0, if_neg h0]
  have hplain : ∀ j : Nat, j < 1 → ¬ IsBreak (k1.hist 0 (k1.term.histIndeces 0) j) := by
    intro j hj hbreak
    obtain rfl : j = 0 := by omega
    have hletter : k1.hist 0 (k1.term.histIndeces 0) (0 : Nat) = 0x61 := (hbytes 0).trans hfirst
    rw [hletter] at hbreak
    exact absurd hbreak (by decide)
  have hrow : RowFrom k1 0 0 1 := by
    refine ⟨?_, (hbytes 1).trans hstop⟩
    intro j hj
    obtain rfl : j = 0 := by omega
    exact h0
  have hmoved : k1.page = k.page ∧ k1.term.writeX = k.term.writeX ∧
      k1.term.writeY = k.term.writeY := by
    obtain ⟨i, rfl⟩ := hbrowsed
    exact ⟨rfl, rfl, rfl⟩
  obtain ⟨hpage, hwx, hwy⟩ := hmoved
  rw [← hwx] at hx
  rw [← hwy] at hy ⊢
  rw [← hpage] at hcur
  rw [hrecall]
  exact histRecall_above hcur hx hy (by decide) hrow hplain ((hbytes 69).trans hend) true

/--
Output to the last row, an empty line entered and read, and Up: Enter puts the write position
in the first row, the newline of the reader takes it off the screen, and Up goes there.
-/
theorem screen_bounds_fail :
    ∃ k, Run (Happens someLayout 0) (termInit (termClear someLayout recallPrompt))
      [.write (List.replicate 24 0x0A), .call 128 (fun _ => 0), .key enterKey,
        .read (.spinning 128 fun _ => 0), .read (.loading 128 0 fun _ => 0),
        .read (.clearing 128 0 (store (fun _ => 0) 0 0x0A)), .key 0x48] k ∧ ¬ CursorIn k 0 := by
  obtain ⟨k0, hk0⟩ : ∃ k0, k0 = termInit (termClear someLayout recallPrompt) := ⟨_, rfl⟩
  obtain ⟨hx0, hy0⟩ := cleared_cursor (L := someLayout) (k := recallPrompt) (t := 0) rfl
  have h0 : OnDisplay someLayout 0 k0 := hk0 ▸ (stays_cleared recallPrompt_mapped rfl).toOnDisplay
  have hhist0 : SameHist recallPrompt k0 := hk0 ▸ SameHist.frame.trans
    (SameHist.frame.shows (Shows.termClear rfl)) (SameHist.frame.termInit _)
  have hclear := Shows.termClear (L := someLayout) (k := recallPrompt) rfl
  obtain ⟨-, -, -, htask, -, -⟩ := termInit_kept hclear.current
  have hactive : k0.task.currentActiveProcess = 0 := by
    rw [hk0, htask, hclear.task]
    rfl
  rw [← hk0] at hx0 hy0 ⊢
  -- output, to the last row
  obtain ⟨k1, hk1⟩ : ∃ k1, k1 = termWrite someLayout (List.replicate 24 0x0A) k0 := ⟨_, rfl⟩
  have h1 : OnDisplay someLayout 0 k1 := hk1 ▸ (h0.termWrite hactive _).toOnDisplay
  have hhist1 : SameHist k0 k1 := hk1 ▸ SameHist.frame.shows (Shows.termWrite hactive _)
  have hrow1 : k1.screen.screenY 0 = 24 := by
    rw [hk1, termWrite_screen, newlines_row 24 h0.shown hactive (by omega), hy0]
    rfl
  -- a line
  obtain ⟨k2, hk2⟩ : ∃ k2, k2 = (termReadCall 0 128 (fun _ => 0) k1).2 := ⟨_, rfl⟩
  obtain ⟨k3, hk3⟩ : ∃ k3, k3 = keyHandler someLayout enterKey k2 := ⟨_, rfl⟩
  obtain ⟨k4, hk4⟩ : ∃ k4, k4 = (termReadStep someLayout 0 (.spinning 128 fun _ => 0) k3).2 :=
    ⟨_, rfl⟩
  obtain ⟨h4, hhist4, hx4, hy4⟩ := entered_bottom h1 hrow1 128 (fun _ => 0) hk2 hk3 hk4
  -- what is left of the read, which only clears the line
  obtain ⟨k5, hk5⟩ : ∃ k5, k5 = k4.setLine k4.page.currentTerminal 0 0 := ⟨_, rfl⟩
  have h5 : OnDisplay someLayout 0 k5 := hk5 ▸ (h4.same (.setLine k4 _ 0 0)).toOnDisplay
  have hhist5 : SameHist k4 k5 := hk5 ▸ SameHist.frame.setLine k4 _ 0 0
  have hwrite5 : k5.term.writeX = k4.term.writeX ∧ k5.term.writeY = k4.term.writeY := by
    rw [hk5]
    exact ⟨rfl, rfl⟩
  have hy5 : k5.term.writeY 0 = -1 := by
    rw [hwrite5.2]
    exact hy4
  have hup := recallPrompt_above (L := someLayout) h5.shown
    (SameHist.frame.trans hhist0 (SameHist.frame.trans hhist1 (SameHist.frame.trans hhist4 hhist5)))
    (by rw [hwrite5.1]; exact hx4) (by rw [hy5]; decide)
  refine ⟨upHist someLayout k5, ?_, ?_⟩
  · have hcalled : Run (Happens someLayout 0) k0
        [.write (List.replicate 24 0x0A), .call 128 (fun _ => 0)] k2 :=
      .snoc (.snoc .nil ⟨hactive, hk1.symm⟩) ⟨trivial, hk2.symm⟩
    have hentered : Run (Happens someLayout 0) k2
        [.key enterKey, .read (.spinning 128 fun _ => 0)] k4 :=
      .snoc (.snoc .nil ⟨fun hs => absurd hs.1 (by decide), hk3.symm⟩) ⟨trivial, hk4.symm⟩
    have hread : Run (Happens someLayout 0) k4 [.read (.loading 128 0 fun _ => 0),
        .read (.clearing 128 0 (store (fun _ => 0) 0 0x0A))] k5 :=
      .snoc (.snoc .nil ⟨trivial, rfl⟩) ⟨trivial, hk5.symm⟩
    have hstruck : Run (Happens someLayout 0) k5 [.key 0x48] (upHist someLayout k5) :=
      .snoc .nil ⟨fun hs => absurd hs.1 (by decide), keyHandler_up someLayout k5⟩
    exact ((hcalled.append hentered).append hread).append hstruck
  · intro hin
    have habove := hin.y0
    rw [hup, hy5] at habove
    exact absurd habove (by decide)

end Zbiggie.Proof
