import Zbiggie.Proof.Lines

/-!
# What no key can change

Every routine the keyboard reaches, a switch of terminals apart, is put together from a
handful of stores: into a line, a counter or a flag of a terminal, and onto the screen.
So whatever survives each of these survives every key. `LineFrame` collects those that draw
and edit, `EditFrame` also the moves in the history, and the routines are gone through here,
once, for every relation that is kept by them.
-/

namespace Zbiggie.Proof

open Zbiggie Machine

/-- A relation between a machine and a later one that no store of the line editor breaks. -/
structure LineFrame (R : Kernel → Kernel → Prop) : Prop where
  refl : ∀ k, R k k
  trans : ∀ {k k' k''}, R k k' → R k' k'' → R k k''
  setLine : ∀ k t i b, R k (k.setLine t i b)
  setCurPos : ∀ k t n, R k (k.setCurPos t n)
  setCurSize : ∀ k t n, R k (k.setCurSize t n)
  setPrevSize : ∀ k t n, R k (k.setPrevSize t n)
  setWaitForNl : ∀ k t b, R k (k.setWaitForNl t b)
  setWrite : ∀ k t x y, R k ((k.setWriteX t x).setWriteY t y)
  shows : ∀ {t k k'}, Shows t k k' → R k k'

/-- And that no move in the history breaks. -/
structure EditFrame (R : Kernel → Kernel → Prop) : Prop extends LineFrame R where
  histUp : ∀ t k, R k (histUp t k)
  histDown : ∀ t k, R k (histDown t k)

namespace LineFrame

variable {R : Kernel → Kernel → Prop} (h : LineFrame R) {L : Layout}

/-- A branch taken or not. -/
theorem choice {p : Prop} [Decidable p] {k k' k'' : Kernel} (h1 : p → R k k') (h2 : ¬ p → R k k'') :
    R k (if p then k' else k'') := by
  split
  · exact h1 ‹_›
  · exact h2 ‹_›

include h

theorem forLoop {body : Nat → Kernel → Kernel} (hbody : ∀ i k, R k (body i k)) (n : Nat)
    (k : Kernel) : R k (forLoop n body k) :=
  forLoop_inv (P := fun _ k' => R k k') (h.refl k) n (fun i _ _ hi => h.trans hi (hbody i _))

theorem moveLeft (k : Kernel) : R k (moveLeft k) := h.shows (Shows.moveLeft rfl)

theorem moveRight (k : Kernel) : R k (moveRight k) := h.shows (Shows.moveRight rfl)

theorem setPos (x y : Int) (k : Kernel) : R k (setPos x y k) := h.shows (Shows.setPos rfl x y)

theorem putc (c : Byte) (k : Kernel) : R k (putc L c k) := h.shows (Shows.putc rfl c)

theorem putcKb (c : Byte) (k : Kernel) : R k (putcKb L c k) := h.shows (Shows.putcKb rfl c)

/-! The line editor. -/

theorem termMoveLeft (k : Kernel) : R k (termMoveLeft k) :=
  choice (fun _ => h.trans (h.moveLeft k) (h.setCurPos _ _ _)) (fun _ => h.refl k)

theorem termMoveRight (k : Kernel) : R k (termMoveRight k) :=
  choice (fun _ => h.trans (h.moveRight k) (h.setCurPos _ _ _)) (fun _ => h.refl k)

theorem termInit (k : Kernel) : R k (termInit k) := by
  have hblank : R k (blankLine k.page.currentTerminal bufSize k) :=
    h.forLoop (fun i k => h.setLine k _ i 0) bufSize k
  rw [termInit_eq]
  exact h.trans (h.trans (h.trans hblank (h.setCurPos _ _ 0)) (h.setCurSize _ _ 0))
    (h.setWrite _ _ 0 0)

theorem termEnter (k : Kernel) : R k (termEnter k) := by
  have hline := h.trans (h.setLine k k.page.currentTerminal (k.term.curSize k.page.currentTerminal)
    0x0A) (h.setCurPos _ k.page.currentTerminal 0)
  exact h.trans (h.trans (h.trans (h.trans hline (h.setPrevSize _ _ _)) (h.setCurSize _ _ 0))
    (h.setWrite _ _ 0 0)) (h.setWaitForNl _ _ false)

theorem shiftLine (t : Term) (k : Kernel) : R k (shiftLine t k) :=
  h.forLoop (fun _ k => h.setLine k t _ _) _ k

theorem termInsert (c : Byte) (k : Kernel) : R k (termInsert L c k) := by
  have hroom : R k (if k.term.curPos k.page.currentTerminal <
      k.term.curSize k.page.currentTerminal then
        Zbiggie.shiftLine k.page.currentTerminal (scootText L k) else k) :=
    choice (fun _ => h.trans (h.shows (Shows.scootText k.page.currentTerminal k)) (h.shiftLine _ _))
      (fun _ => h.refl k)
  exact h.trans (h.trans (h.trans (h.trans hroom (h.putcKb c _)) (h.setLine _ _ _ c))
    (h.setCurPos _ _ _)) (h.setCurSize _ _ _)

theorem termBackspace (k : Kernel) : R k (termBackspace L k) := by
  have hsize : R k (if k.term.curPos k.page.currentTerminal ≥
      k.term.curSize k.page.currentTerminal - 1 then k.setCurSize k.page.currentTerminal
        (k.term.curSize k.page.currentTerminal - 1) else k) :=
    choice (fun _ => h.setCurSize k _ _) (fun _ => h.refl k)
  refine h.trans hsize (choice (fun _ => ?_) (fun _ => ?_))
  · have hback (k : Kernel) (t : Term) (b : Byte) :
        R k (if pastWrite k t then Zbiggie.moveLeft (Zbiggie.putcKb L b
          (Zbiggie.moveLeft k)) else k) :=
      choice (fun _ => h.trans (h.trans (h.moveLeft k) (h.putcKb b _)) (h.moveLeft _))
        (fun _ => h.refl k)
    exact h.trans (h.trans (hback _ _ _) (h.setCurPos _ _ _)) (h.setLine _ _ _ _)
  · exact h.trans (h.setLine _ _ _ _)
      (choice (fun _ => h.trans (h.putc _ _) (h.moveLeft _)) (fun _ => h.refl _))

theorem termPutc (c : Byte) (k : Kernel) : R k (termPutc L c k) :=
  choice (fun _ => h.termEnter k) fun _ => choice (fun _ => h.termBackspace k) fun _ =>
    choice (fun _ => h.termInsert c k) (fun _ => h.refl k)

/-! The history. -/

theorem histErase (t : Term) (fuel i : Nat) (k : Kernel) : R k (histErase L t fuel i k) := by
  induction fuel generalizing i k with
  | zero => exact h.refl k
  | succ fuel ih => exact choice (fun _ => h.trans (h.putc 0 k) (ih _ _)) (fun _ => h.refl k)

theorem histCopy (t : Term) (fuel i : Nat) (k : Kernel) : R k (histCopy L t fuel i k) := by
  induction fuel generalizing i k with
  | zero => exact h.refl k
  | succ fuel ih =>
      refine choice (fun _ => ?_) (fun _ => h.refl k)
      exact h.trans (h.trans (h.trans (h.setLine k t i _) (h.putc _ _)) (h.setCurPos _ _ _))
        (h.trans (h.setCurSize _ _ _) (ih _ _))

theorem histRecall (t : Term) (reset : Bool) (k : Kernel) : R k (histRecall L t reset k) := by
  have hreset (k : Kernel) : R k (if reset then (k.setCurPos t 0).setCurSize t 0 else k) :=
    choice (fun _ => h.trans (h.setCurPos k t 0) (h.setCurSize _ t 0)) (fun _ => h.refl k)
  exact h.trans (h.trans (h.trans (h.trans (h.setPos _ _ k) (hreset _)) (h.histErase t _ _ _))
    (h.setPos _ _ _)) (h.histCopy t _ _ _)

theorem histSkip {move : Term → Kernel → Kernel} (hmove : ∀ t k, R k (move t k)) (t : Term)
    (fuel : Nat) (k : Kernel) : R k (histSkip move t fuel k) := by
  induction fuel generalizing k with
  | zero => exact h.refl k
  | succ fuel ih => exact choice (fun _ => h.trans (hmove t k) (ih _)) (fun _ => h.refl k)

theorem histStep {move : Term → Kernel → Kernel} (hmove : ∀ t k, R k (move t k))
    (reset : Bool) (k : Kernel) : R k (histStep L move reset k) := by
  have hskip := h.trans (hmove k.page.currentTerminal k)
    (h.histSkip hmove k.page.currentTerminal histSize _)
  exact h.trans hskip (choice (fun _ => h.refl _) (fun _ => h.histRecall _ reset _))

/-- A key that prints, or clears the screen. -/
theorem keyChar {c : Nat} (hc : c < 123) (k : Kernel) : R k (keyChar L c k) := by
  rcases keyChar_cases L hc k with ⟨_, he⟩ | ⟨ch, _, he⟩
  · rw [he]
    exact h.trans (h.shows (Shows.termClear rfl)) (h.termInit _)
  · rw [he]
    exact h.termPutc ch k

end LineFrame

namespace EditFrame

variable {R : Kernel → Kernel → Prop} (h : EditFrame R) {L : Layout}

include h

theorem upHist (k : Kernel) : R k (upHist L k) := h.histStep h.histUp true k

theorem downHist (k : Kernel) : R k (downHist L k) := h.histStep h.histDown false k

/-- **Every key**, if also a switch and the flags leave `R` alone. -/
theorem keyHandler (hkeys : ∀ k keys, R k { k with keys := keys })
    (hswitch : ∀ u k, R k (switchTo L u k)) (inp : Byte) (k : Kernel) :
    R k (keyHandler L inp k) := by
  have he := keyHandler_effect L inp k
  generalize Zbiggie.keyHandler L inp k = k' at he
  cases he with
  | flags keys _ => exact hkeys k keys
  | left _ => exact h.termMoveLeft k
  | right _ => exact h.termMoveRight k
  | switch u _ => exact hswitch u k
  | down _ _ => exact h.downHist k
  | up _ _ => exact h.upHist k
  | clear _ _ => exact h.trans (h.shows (Shows.termClear rfl)) (h.termInit _)
  | enter _ _ => exact h.termEnter k
  | backspace _ _ => exact h.termBackspace k
  | insert c _ _ _ _ => exact h.termInsert c k
  | full _ _ => exact h.refl k

end EditFrame

end Zbiggie.Proof
