import Zbiggie.Proof.PageTables
import Zbiggie.Proof.ProcStep

/-!
# What drawing leaves alone

Everything that draws on a screen, for the keyboard or for a process, stores into video
memory, moves a cursor and may scroll. `Shows t` is what drawing on terminal `t` may
change, and the routines of `lib.c` are gone through here, once: no line, no counter,
no flag and no page table is theirs.
-/

namespace Zbiggie.Proof

open Zbiggie Machine

/-- Only what is shown of terminal `t` changed. -/
structure Shows (t : Term) (k k' : Kernel) : Prop where
  page : k'.page = k.page
  task : k'.task = k.task
  keys : k'.keys = k.keys
  buffer : k'.term.buffer = k.term.buffer
  history : k'.term.history = k.term.history
  histIndeces : k'.term.histIndeces = k.term.histIndeces
  curPos : k'.term.curPos = k.term.curPos
  curSize : k'.term.curSize = k.term.curSize
  waitForNl : k'.term.waitForNl = k.term.waitForNl
  screenX : ∀ u, u ≠ t → k'.screen.screenX u = k.screen.screenX u
  screenY : ∀ u, u ≠ t → k'.screen.screenY u = k.screen.screenY u

namespace Shows

variable {L : Layout} {t : Term} {k k' k'' : Kernel}

theorem refl (t : Term) (k : Kernel) : Shows t k k :=
  ⟨rfl, rfl, rfl, rfl, rfl, rfl, rfl, rfl, rfl, fun _ _ => rfl, fun _ _ => rfl⟩

theorem trans (h : Shows t k k') (h' : Shows t k' k'') : Shows t k k'' where
  page := h'.page.trans h.page
  task := h'.task.trans h.task
  keys := h'.keys.trans h.keys
  buffer := h'.buffer.trans h.buffer
  history := h'.history.trans h.history
  histIndeces := h'.histIndeces.trans h.histIndeces
  curPos := h'.curPos.trans h.curPos
  curSize := h'.curSize.trans h.curSize
  waitForNl := h'.waitForNl.trans h.waitForNl
  screenX := fun u hu => (h'.screenX u hu).trans (h.screenX u hu)
  screenY := fun u hu => (h'.screenY u hu).trans (h.screenY u hu)

/-- A branch taken or not. -/
theorem ite {p : Prop} [Decidable p] (h : Shows t k k') (h' : Shows t k k'') :
    Shows t k (if p then k' else k'') := by
  split
  · exact h
  · exact h'

/-- A loop whose body draws on `t`. -/
theorem forLoop {body : Nat → Kernel → Kernel} (h : ∀ i k, Shows t k (body i k)) (n : Nat)
    (k : Kernel) : Shows t k (forLoop n body k) :=
  forLoop_inv (P := fun _ k' => Shows t k k') (refl t k) n (fun i _ _ hi => hi.trans (h i _))

theorem setScreenX (t : Term) (k : Kernel) (x : Int) : Shows t k (k.setScreenX t x) :=
  ⟨rfl, rfl, rfl, rfl, rfl, rfl, rfl, rfl, rfl, fun _ hu => Function.update_of_ne hu _ _,
    fun _ _ => rfl⟩

theorem setScreenY (t : Term) (k : Kernel) (y : Int) : Shows t k (k.setScreenY t y) :=
  ⟨rfl, rfl, rfl, rfl, rfl, rfl, rfl, rfl, rfl, fun _ _ => rfl,
    fun _ hu => Function.update_of_ne hu _ _⟩

theorem setBiggestY (t u : Term) (k : Kernel) (y : Int) : Shows t k (k.setBiggestY u y) :=
  ⟨rfl, rfl, rfl, rfl, rfl, rfl, rfl, rfl, rfl, fun _ _ => rfl, fun _ _ => rfl⟩

theorem setWriteX (t u : Term) (k : Kernel) (x : Int) : Shows t k (k.setWriteX u x) :=
  ⟨rfl, rfl, rfl, rfl, rfl, rfl, rfl, rfl, rfl, fun _ _ => rfl, fun _ _ => rfl⟩

theorem setWriteY (t u : Term) (k : Kernel) (y : Int) : Shows t k (k.setWriteY u y) :=
  ⟨rfl, rfl, rfl, rfl, rfl, rfl, rfl, rfl, rfl, fun _ _ => rfl, fun _ _ => rfl⟩

theorem kstore (t : Term) (k : Kernel) (v : Word) (b : Byte) : Shows t k (kstore L k v b) := by
  unfold Zbiggie.kstore
  split
  · exact ⟨rfl, rfl, rfl, rfl, rfl, rfl, rfl, rfl, rfl, fun _ _ => rfl, fun _ _ => rfl⟩
  · exact refl t k

theorem putCell (t : Term) (base : Nat) (attr : Byte) (x y : Int) (c : Byte) (k : Kernel) :
    Shows t k (putCell L base attr x y c k) :=
  ite ((kstore t k _ c).trans (kstore t _ _ attr)) (refl t k)

theorem scrollRows (t : Term) (base : Nat) (k : Kernel) : Shows t k (scrollRows L base k) :=
  forLoop (fun _ k => forLoop (fun _ k => (kstore t k _ _).trans (kstore t _ _ _)) _ k) _ k

theorem blankRow (t : Term) (base y : Nat) (attr : Byte) (k : Kernel) :
    Shows t k (blankRow L base y attr k) :=
  forLoop (fun _ k => (kstore t k _ _).trans (kstore t _ _ _)) _ k

theorem nextRow (t : Term) (k : Kernel) : Shows t k (nextRow t k) :=
  ((setScreenY t k _).trans (setBiggestY t t _ _)).trans (setScreenX t _ _)

theorem putChar (base : Nat) (t : Term) (c : Byte) (k : Kernel) :
    Shows t k (putChar L base t c k) :=
  ite (nextRow t k) ((putCell t base _ _ _ c k).trans (setScreenX t _ _))

/-! Drawing on the foreground terminal. -/

theorem current (h : Shows t k k') : k'.page.currentTerminal = k.page.currentTerminal := by
  rw [h.page]

theorem scroll (ht : k.page.currentTerminal = t) : Shows t k (scroll L k) := by
  subst ht
  exact (((((scrollRows _ _ k).trans (setBiggestY _ _ _ _)).trans (setScreenY _ _ _)).trans
    (blankRow _ _ _ _ _)).trans (setScreenX _ _ _)).trans (setWriteY _ _ _ _)

/-- The last act of the routines that put a character: scroll if the cursor left the screen. -/
theorem scrolling (h : Shows t k k') (ht : k.page.currentTerminal = t) {p : Prop} [Decidable p] :
    Shows t k (if p then Zbiggie.scroll L k' else k') :=
  ite (h.trans (scroll (h.current.trans ht))) h

/-- The act before it: a wrap at the last column. -/
theorem wrapping (h : Shows t k k') {p : Prop} [Decidable p] :
    Shows t k (if p then Zbiggie.nextRow t k' else k') :=
  ite (h.trans (nextRow t k')) h

theorem putc (ht : k.page.currentTerminal = t) (c : Byte) : Shows t k (putc L c k) := by
  subst ht
  exact scrolling (wrapping (putChar _ _ c k)) rfl

theorem setPos (ht : k.page.currentTerminal = t) (x y : Int) : Shows t k (setPos x y k) := by
  subst ht
  exact (setScreenX _ k x).trans (setScreenY _ _ y)

theorem setX (ht : k.page.currentTerminal = t) (x : Int) : Shows t k (setX x k) := by
  subst ht
  exact setScreenX _ k x

theorem moveRight (ht : k.page.currentTerminal = t) : Shows t k (moveRight k) := by
  subst ht
  exact ite (setScreenX _ k _) (ite ((setScreenX _ k _).trans (setScreenY _ _ _)) (refl _ k))

theorem moveLeft (ht : k.page.currentTerminal = t) : Shows t k (moveLeft k) := by
  subst ht
  exact ite (setScreenX _ k _) (ite ((setScreenX _ k _).trans (setScreenY _ _ _)) (refl _ k))

theorem putcKbBackspace (ht : k.page.currentTerminal = t) : Shows t k (putcKbBackspace L k) := by
  subst ht
  unfold Zbiggie.putcKbBackspace
  have hback := setScreenX k.page.currentTerminal k
    (k.screen.screenX k.page.currentTerminal - 1)
  refine ite (putCell _ _ _ _ _ _ k) (Shows.trans ?_ (putCell _ _ _ _ _ _ _))
  refine ite ?_ hback
  have hup (x y b : Int) := ((hback.trans (setScreenX _ _ x)).trans (setScreenY _ _ y)).trans
    (setBiggestY _ k.page.currentTerminal _ b)
  exact ite (((hup _ _ _).trans (setScreenY _ _ _)).trans (setBiggestY _ _ _ _)) (hup _ _ _)

theorem putcKb (ht : k.page.currentTerminal = t) (c : Byte) : Shows t k (putcKb L c k) := by
  subst ht
  refine scrolling (wrapping (ite ?_ (ite (putcKbBackspace rfl) ?_))) rfl
  · exact (setScreenY _ k _).trans (setScreenX _ _ _)
  · exact ((wrapping (refl _ k)).trans (putCell _ _ _ _ _ _ _)).trans (setScreenX _ _ _)

theorem scootCell (t u : Term) (dst src : Int) (k : Kernel) :
    Shows t k (scootCell L u dst src k) :=
  (kstore t k _ _).trans (kstore t _ _ _)

theorem scootText (t : Term) (k : Kernel) : Shows t k (scootText L k) :=
  (forLoop (fun _ k => (scootCell t _ _ _ k).trans
    (forLoop (fun _ k => scootCell t _ _ _ k) _ _)) _ k).trans
    (forLoop (fun _ k => scootCell t _ _ _ k) _ _)

theorem clear (ht : k.page.currentTerminal = t) : Shows t k (clear L k) := by
  subst ht
  exact (((forLoop (fun _ k => (kstore _ k _ _).trans (kstore _ _ _ _)) _ k).trans
    (setBiggestY _ _ _ _)).trans (setScreenY _ _ _)).trans (setScreenX _ _ _)

theorem termClear (ht : k.page.currentTerminal = t) : Shows t k (termClear L k) :=
  (clear ht).trans (setPos ((clear ht).current.trans ht) 0 0)

/-! Drawing on the terminal of the running process. -/

theorem mtScroll (t : Term) (ht : k.task.currentActiveProcess = t) :
    Shows t k (mtScroll L k) := by
  subst ht
  unfold Zbiggie.mtScroll
  dsimp only
  split
  · rename_i he
    exact scroll he.symm
  · exact ((((scrollRows _ _ k).trans (setBiggestY _ _ _ _)).trans (setScreenY _ _ _)).trans
      (blankRow _ _ _ _ _)).trans (setScreenX _ _ _)

theorem mtPutc (ht : k.task.currentActiveProcess = t) (c : Byte) : Shows t k (mtPutc L c k) := by
  subst ht
  unfold Zbiggie.mtPutc
  dsimp only
  split
  · rename_i he
    exact putc he.symm c
  · have hput : Shows k.task.currentActiveProcess k _ :=
      wrapping (putChar (L := L) mapVideoMem k.task.currentActiveProcess c k)
        (p := (Zbiggie.putChar L mapVideoMem k.task.currentActiveProcess c k).screen.screenX
          (Zbiggie.putChar L mapVideoMem k.task.currentActiveProcess c k).page.currentTerminal
            ≥ numCols)
    exact ite (hput.trans (mtScroll _ (by rw [hput.task]))) hput

/-- A string of characters, one after the other. -/
theorem output (ht : k.task.currentActiveProcess = t) (buf : List Byte) :
    Shows t k (buf.foldl (fun k c => Zbiggie.mtPutc L c k) k) := by
  induction buf generalizing k with
  | nil => exact refl t k
  | cons c cs ih =>
      have hc : Shows t k (Zbiggie.mtPutc L c k) := mtPutc ht c
      exact hc.trans (ih (by rw [hc.task]; exact ht))

theorem termWrite (ht : k.task.currentActiveProcess = t) (buf : List Byte) :
    Shows t k (termWrite L buf k) :=
  ((output ht buf).trans (setWriteX _ _ _ _)).trans (setWriteY _ _ _ _)

end Shows

end Zbiggie.Proof
