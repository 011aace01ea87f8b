import Zbiggie.Proof.ProcTable
import Zbiggie.Proof.Reschedule
import Zbiggie.Proof.TermView

/-!
# Three screens

A terminal's screen is the video page while it is on display and its own buffer
page otherwise. Output reaches it under two addresses: `video_mem` if the writer's
terminal is on display, `map_video_mem` if not, and a program's stores come through
the page `vidmap` gave it. The last two go by the low video entry, which has to
follow both the running process and the terminal on display.

`VideoEntry` is the rule it follows. Every change of process and of terminal
restores it, and with it the screens are three independent stores.
-/

namespace Zbiggie.Proof

open Zbiggie Machine

/-! ## Screens -/

/-- Where terminal `t`'s screen is. -/
def screenPage (k : Kernel) (t : Term) : Nat :=
  if t = k.page.currentTerminal then offsetVideo else bufferPage t

/-- Byte `o` of terminal `t`'s screen. -/
def screenByte (k : Kernel) (t : Term) (o : Nat) : Byte := k.ram (screenPage k t + o)

/-- **The rule for the low video entry.** -/
def VideoEntry (k : Kernel) : Prop :=
  k.page.lowMemoryTable videoEntry =
    if k.page.currentTerminal = k.task.currentActiveProcess then videoPte
    else bufferPte k.task.currentActiveProcess

/-- With it, `map_video_mem` is the screen of the running process. -/
theorem VideoEntry.lowFrame {k : Kernel} (h : VideoEntry k) :
    lowFrame k = screenPage k k.task.currentActiveProcess := by
  unfold Proof.lowFrame screenPage
  rw [h]
  by_cases he : k.page.currentTerminal = k.task.currentActiveProcess
  · rw [if_pos he, if_pos he.symm, frame_videoPte]
  · rw [if_neg he, if_neg (Ne.symm he), frame_bufferPte]

theorem videoEntry_switchContext (p : Nat) (k : Kernel) : VideoEntry (switchContext p k) := by
  show (setVmemTable k.task.currentActiveProcess
    { k with task := { k.task with currentProcess := p } }).page.lowMemoryTable videoEntry = _
  rw [setVmemTable_video]
  rfl

/-- Screens lie in the video page and in the buffers. -/
theorem screenPage_cases (k : Kernel) (t : Term) :
    screenPage k t = 753664 ∨ screenPage k t = 50331648 + 4096 * t.val := by
  unfold screenPage
  split
  · exact .inl rfl
  · right
    simp only [bufferPage, numPds, maxPid, offset4M, offset4K]
    omega

/-- No two terminals share a screen. -/
theorem screenPage_disjoint (k : Kernel) {t u : Term} (h : t ≠ u) :
    screenPage k t + offset4K ≤ screenPage k u ∨ screenPage k u + offset4K ≤ screenPage k t := by
  have hne : t.val ≠ u.val := fun he => h (Fin.ext he)
  have hboth : ¬ (t = k.page.currentTerminal ∧ u = k.page.currentTerminal) :=
    fun hb => h (hb.1.trans hb.2.symm)
  unfold screenPage
  simp only [bufferPage, numPds, maxPid, offset4M, offset4K, offsetVideo]
  split <;> split <;> first | (exact absurd ⟨‹_›, ‹_›⟩ hboth) | omega

/-! ## The invariant -/

/-- Directory `p` is the kernel's, or was set up for process `p`. -/
def Dir (L : Layout) (k : Kernel) (p : Nat) : Prop :=
  k.page.pageDirectories p = kernelPdRow L ∨
    (k.page.pageDirectories p = pdRow L p ∧ p ≤ maxPid)

theorem Dir.kernelDir {L : Layout} {k : Kernel} {p : Nat} (h : Dir L k p) :
    KernelDir L (k.page.pageDirectories p) := by
  rcases h with h | ⟨h, _⟩
  · rw [h]; exact kernelDir_kernelPdRow L
  · rw [h]; exact kernelDir_pdRow L p

theorem Dir.congr {L : Layout} {k k' : Kernel} {p : Nat} (h : Dir L k p)
    (he : k'.page.pageDirectories = k.page.pageDirectories) : Dir L k' p := by
  unfold Dir
  rw [he]
  exact h

/-- What the screens rest on; `n` characters have been written. -/
structure ScreenInv (L : Layout) (n : Nat) (k : Kernel) : Prop where
  tables : Tables k
  video : VideoEntry k
  /-- Whatever may be switched to has a directory. -/
  dirs : ∀ p, Refers (procs k) p → Dir L k p
  /-- Cursors are on the rows of the screen, and no further right than there are characters. -/
  cursor : ∀ t, 0 ≤ k.screen.screenX t ∧ k.screen.screenX t ≤ n ∧
    0 ≤ k.screen.screenY t ∧ k.screen.screenY t < 25

namespace ScreenInv

variable {L : Layout} {n : Nat} {k k' : Kernel}

theorem selected (h : ScreenInv L n k) : Selected L k := (h.dirs _ (.inr (.inl rfl))).kernelDir

theorem mapVideoMem (h : ScreenInv L n k) :
    Mapped L k mapVideoMem (screenPage k k.task.currentActiveProcess) :=
  ⟨h.tables, h.selected, .inl ⟨rfl, h.video.lowFrame.symm⟩⟩

theorem bufferPage (h : ScreenInv L n k) {i : Nat} (hi : i < 4) :
    Mapped L k (bufferPage i) (videoFrame i) :=
  ⟨h.tables, h.selected, .inr ⟨i, hi, rfl, rfl⟩⟩

/-- The invariant with the cursors as they were. -/
theorem of_cursor (h : ScreenInv L n k) (hs : k'.screen = k.screen) (ht : Tables k')
    (hv : VideoEntry k') (hd : ∀ p, Refers (procs k') p → Dir L k' p) : ScreenInv L n k' :=
  ⟨ht, hv, hd, by rw [hs]; exact h.cursor⟩

end ScreenInv

/-! ## Changes of process -/

/-- No screen and no cursor changed. -/
structure Unseen (k k' : Kernel) : Prop where
  screens : ∀ t o, o < offset4K → screenByte k' t o = screenByte k t o
  screen : k'.screen = k.screen
  writeX : k'.term.writeX = k.term.writeX
  writeY : k'.term.writeY = k.term.writeY

/-- Memory may change in program pages, where no screen is. -/
theorem unseen_of_frame {k k' : Kernel} (hterm : k'.page.currentTerminal = k.page.currentTerminal)
    (hram : ∀ a, a < offset8M ∨ 50331648 ≤ a → k'.ram a = k.ram a) (hs : k'.screen = k.screen)
    (hx : k'.term.writeX = k.term.writeX) (hy : k'.term.writeY = k.term.writeY) : Unseen k k' where
  screens := by
    intro t o ho
    have hpage : screenPage k' t = screenPage k t := by unfold screenPage; rw [hterm]
    unfold screenByte
    rw [hpage]
    refine hram _ ?_
    simp only [offset8M, offset4M, offset4K] at ho ⊢
    rcases screenPage_cases k t with h | h <;> omega
  screen := hs
  writeX := hx
  writeY := hy

section Reschedule

variable {L : Layout} {n : Nat} {k k1 k' : Kernel}

/-- A change of context to a process whose directory is set up. -/
theorem screenInv_switchContext (h : ScreenInv L n k) (hp : Plain k k1) {p : Nat}
    (hd : Dir L k p) :
    ScreenInv L n (switchContext p k1) ∧ Unseen k (switchContext p k1) := by
  have htables : Tables (switchContext p k1) := (h.tables.of_page hp.page).switchContext p
  have hrows : (switchContext p k1).page.pageDirectories = k.page.pageDirectories := by
    show k1.page.pageDirectories = _
    rw [hp.page]
  have hterm : (switchContext p k1).page.currentTerminal = k.page.currentTerminal := by
    show k1.page.currentTerminal = _
    rw [hp.page]
  refine ⟨h.of_cursor hp.screen htables (videoEntry_switchContext p k1) ?_,
    unseen_of_frame hterm (fun a _ => congrFun hp.ram a) hp.screen hp.term.writeX hp.term.writeY⟩
  intro q hq
  rw [procs_switchContext] at hq
  refine Dir.congr ?_ hrows
  rcases refers_switch hq with rfl | hq
  · exact hd
  · exact h.dirs q (hp.refers q hq)

/-- A new process. -/
theorem screenInv_started (h : ScreenInv L n k) (hp : Plain k k1) {m : Nat} (h1 : 1 ≤ m)
    (hm : m ≤ maxPid) (hs : Started L m k1 k') : ScreenInv L n k' ∧ Unseen k k' := by
  have hnew : Tables (newProcess L m k1) := by
    have hset : Tables (k1.setPcb m (startedPcb k1.task.currentProcess)) :=
      h.tables.of_page hp.page
    exact (hset.initPd L m).switchContext m
  have hactive : k'.task.currentActiveProcess = (newProcess L m k1).task.currentActiveProcess :=
    congrArg ProcView.active (hs.table.trans (procs_newProcess L m k1).symm)
  have hvideo : VideoEntry k' := by
    have hv : VideoEntry (newProcess L m k1) := videoEntry_switchContext _ _
    unfold VideoEntry at hv ⊢
    rw [hs.page, hactive]
    exact hv
  have hrow : ∀ q, k'.page.pageDirectories q
      = Function.update k.page.pageDirectories m (pdRow L m) q := by
    intro q
    rw [hs.page]
    show Function.update k1.page.pageDirectories m (pdRow L m) q = _
    rw [hp.page]
  have hterm : k'.page.currentTerminal = k.page.currentTerminal := by
    rw [hs.page]
    show k1.page.currentTerminal = _
    rw [hp.page]
  refine ⟨h.of_cursor (hs.screen.trans hp.screen) (hnew.of_page hs.page) hvideo ?_,
    unseen_of_frame hterm ?_ (hs.screen.trans hp.screen) (hs.term.writeX.trans hp.term.writeX)
      (hs.term.writeY.trans hp.term.writeY)⟩
  · intro q hq
    rw [hs.table] at hq
    unfold Dir
    rw [hrow]
    by_cases hqm : q = m
    · subst hqm
      rw [Function.update_self]
      exact .inr ⟨rfl, hm⟩
    · rw [Function.update_of_ne hqm]
      exact h.dirs q (hp.refers q ((refers_alloc hq).resolve_left hqm))
  · intro a ha
    rw [hs.ram a ?_, hp.ram]
    simp only [maxPid, offset8M, offset4M] at hm ha ⊢
    omega

/-- **Every process-table operation leaves the screens alone.** -/
theorem screenInv_resched (h : ScreenInv L n k) (hr : Resched L k k') :
    ScreenInv L n k' ∧ Unseen k k' := by
  cases hr with
  | same hp hv =>
      have hactive : k'.task.currentActiveProcess = k.task.currentActiveProcess :=
        congrArg ProcView.active hv
      refine ⟨h.of_cursor hp.screen (h.tables.of_page hp.page) ?_ ?_,
        unseen_of_frame (by rw [hp.page]) (fun a _ => congrFun hp.ram a) hp.screen hp.term.writeX
          hp.term.writeY⟩
      · unfold VideoEntry
        rw [hp.page, hactive]
        exact h.video
      · intro p hpr
        exact (h.dirs p (hp.refers p hpr)).congr (by rw [hp.page])
  | switched hp hpr he =>
      subst he
      exact screenInv_switchContext h hp (h.dirs _ hpr)
  | started hp h1 hm hs => exact screenInv_started h hp h1 hm hs

end Reschedule

/-! ## Switching terminals -/

/-- Memory after `switch_video(u)` away from terminal `t`: out to `t`'s buffer, in from `u`'s. -/
def swapped (t u : Term) (m : Mem) : Mem :=
  copied offsetVideo (bufferPage u) offset4K (copied (bufferPage t) offsetVideo offset4K m)

theorem bufferPage_eq (i : Nat) : bufferPage i = 50331648 + 4096 * i := by
  simp only [bufferPage, numPds, maxPid, offset4M, offset4K]
  omega

theorem videoFrame_term (t : Term) : videoFrame t = bufferPage t :=
  if_neg (by omega)

/-- `switch_video`, with its two copies carried out. -/
theorem switchVideo_eq {L : Layout} {n : Nat} {k : Kernel} (h : ScreenInv L n k) {u : Term}
    (hu : k.page.currentTerminal ≠ u) :
    switchVideo L u k = switchContext k.task.currentProcess
      { withRam k (swapped k.page.currentTerminal u k.ram) with
        page := { k.page with currentTerminal := u } } := by
  have hout := kmemcpy_mapped (h.bufferPage (i := k.page.currentTerminal) (by omega))
    (h.bufferPage (i := 3) (by decide)) (by
      rw [videoFrame_term, bufferPage_eq]
      simp only [videoFrame, offsetVideo, offset4K, if_true]
      omega)
  rw [videoFrame_term] at hout
  -- the window of the second copy is the same: it does not depend on the terminal shown
  have hin : ∀ i, i < 4 → Mapped L
      { withRam k (copied (bufferPage k.page.currentTerminal) offsetVideo offset4K k.ram) with
        page := { k.page with currentTerminal := u } } (bufferPage i) (videoFrame i) := by
    intro i hi
    exact ⟨h.tables.congr rfl rfl, h.selected, .inr ⟨i, hi, rfl, rfl⟩⟩
  have hback := kmemcpy_mapped (hin 3 (by decide)) (hin u (by omega)) (by
      rw [videoFrame_term, bufferPage_eq]
      simp only [videoFrame, offsetVideo, offset4K, if_true]
      omega)
  rw [videoFrame_term] at hback
  unfold switchVideo
  rw [if_neg hu]
  dsimp only
  rw [hout]
  rw [show videoFrame 3 = offsetVideo from rfl] at hback ⊢
  rw [withRam_page, hback]
  rfl

/-- The swap, seen from each terminal. -/
theorem swapped_screens {k : Kernel} {u : Term} (hu : k.page.currentTerminal ≠ u) (t : Term)
    {o : Nat} (ho : o < offset4K) :
    swapped k.page.currentTerminal u k.ram
        ((if t = u then offsetVideo else bufferPage t) + o) = screenByte k t o := by
  have hcu : k.page.currentTerminal.val ≠ u.val := fun he => hu (Fin.ext he)
  unfold swapped copied screenByte screenPage
  simp only [bufferPage_eq, offsetVideo, offset4K] at ho ⊢
  by_cases htu : t = u
  · -- on display now: read from its buffer, which the first copy did not write
    subst htu
    rw [if_pos rfl, if_neg (Ne.symm hu), if_pos (by omega), if_neg (by omega),
      Nat.add_sub_cancel_left]
  · have htu' : t.val ≠ u.val := fun he => htu (Fin.ext he)
    rw [if_neg htu, if_neg (by omega)]
    by_cases htc : t = k.page.currentTerminal
    · -- was on display: its buffer is what the video page held
      rw [if_pos htc, htc, if_pos (by omega), Nat.add_sub_cancel_left]
    · have htc' : t.val ≠ k.page.currentTerminal.val := fun he => htc (Fin.ext he)
      rw [if_neg htc, if_neg (by omega)]

theorem screenInv_switchVideo {L : Layout} {n : Nat} {k : Kernel} (h : ScreenInv L n k) (u : Term) :
    ScreenInv L n (switchVideo L u k) ∧ Unseen k (switchVideo L u k) := by
  by_cases hu : k.page.currentTerminal = u
  · have hsame : switchVideo L u k = k := by unfold switchVideo; rw [if_pos hu]
    rw [hsame]
    exact ⟨h, ⟨fun _ _ _ => rfl, rfl, rfl, rfl⟩⟩
  · have htables := h.tables.switchVideo L u
    rw [switchVideo_eq h hu] at htables ⊢
    refine ⟨h.of_cursor rfl htables (videoEntry_switchContext _ _) ?_, ?_, rfl, rfl, rfl⟩
    · intro q hq
      rw [procs_switchContext] at hq
      refine Dir.congr (k := k) ?_ rfl
      rcases refers_switch hq with rfl | hq
      · exact h.dirs _ (.inl rfl)
      · exact h.dirs q hq
    · intro t o ho
      exact swapped_screens hu t ho

/-! ## Output -/

/-- Only terminal `a`'s screen and cursors changed. -/
structure OnlyTerm (a : Term) (k k' : Kernel) : Prop where
  screens : ∀ t, t ≠ a → ∀ o, o < offset4K → screenByte k' t o = screenByte k t o
  screenX : ∀ t, t ≠ a → k'.screen.screenX t = k.screen.screenX t
  screenY : ∀ t, t ≠ a → k'.screen.screenY t = k.screen.screenY t
  writeX : ∀ t, t ≠ a → k'.term.writeX t = k.term.writeX t
  writeY : ∀ t, t ≠ a → k'.term.writeY t = k.term.writeY t

theorem Touches.onlyTerm {a : Term} {k k' : Kernel} (h : Touches a (screenPage k a) k k') :
    OnlyTerm a k k' where
  screens := by
    intro t ht o ho
    have hpage : screenPage k' t = screenPage k t := by unfold screenPage; rw [h.page]
    unfold screenByte
    rw [hpage]
    refine h.ram _ ?_
    simp only [offset4K] at ho
    have := screenPage_disjoint k ht
    simp only [offset4K] at this ⊢
    omega
  screenX := h.screenX
  screenY := h.screenY
  writeX := h.writeX
  writeY := h.writeY

section Output

variable {L : Layout} {n : Nat} {k k' : Kernel}

/-- Output keeps the page tables and the process table. -/
theorem ScreenInv.of_touches (h : ScreenInv L n k) {a : Term} {P m : Nat} (ht : Touches a P k k')
    (hnm : n ≤ m) (ha : 0 ≤ k'.screen.screenX a ∧ k'.screen.screenX a ≤ m ∧
      0 ≤ k'.screen.screenY a ∧ k'.screen.screenY a < 25) : ScreenInv L m k' where
  tables := h.tables.of_page ht.page
  video := by
    unfold VideoEntry
    rw [ht.page, ht.task]
    exact h.video
  dirs := by
    have hv : procs k' = procs k := by
      unfold procs
      rw [ht.page, ht.task]
    intro p hp
    rw [hv] at hp
    exact (h.dirs p hp).congr (by rw [ht.page])
  cursor := by
    intro t
    by_cases hta : t = a
    · subst hta; exact ha
    · have := h.cursor t
      rw [ht.screenX t hta, ht.screenY t hta]
      omega

/-- **One character**, by a process of terminal `a`. -/
theorem screenInv_mtPutc (h : ScreenInv L n k) (hn : n < 536870912) (c : Byte) :
    ScreenInv L (n + 1) (mtPutc L c k) ∧ OnlyTerm k.task.currentActiveProcess k (mtPutc L c k) := by
  obtain ⟨a, ha⟩ : ∃ a, k.task.currentActiveProcess = a := ⟨_, rfl⟩
  obtain ⟨hx0, hxn, hy0, hy⟩ := h.cursor a
  have hc : CursorOk k a := ⟨hx0, by omega, hy0, hy⟩
  have hput : ∃ wrap, viewOf (mtPutc L c k) a (screenPage k a)
        = (viewOf k a (screenPage k a)).put (attribs a) wrap c ∧
      Touches a (screenPage k a) k (mtPutc L c k) := by
    by_cases hfg : a = k.page.currentTerminal
    · have hpage : screenPage k a = offsetVideo := if_pos hfg
      have hmt : mtPutc L c k = putc L c k := by
        unfold mtPutc
        dsimp only
        rw [ha, if_pos hfg]
      rw [hpage, hmt]
      exact ⟨_, putc_view ⟨h.tables, h.selected, .inr ⟨3, by decide, rfl, rfl⟩⟩ hfg.symm hc c⟩
    · have hm := h.mapVideoMem
      rw [ha] at hm
      exact ⟨_, mtPutc_view hm ha hfg hc c⟩
  obtain ⟨wrap, hv, ht⟩ := hput
  rw [ha]
  refine ⟨h.of_touches ht (by omega) ?_, ht.onlyTerm⟩
  have hX : (mtPutc L c k).screen.screenX a
      = ((viewOf k a (screenPage k a)).put (attribs a) wrap c).x := congrArg TermView.x hv
  have hY : (mtPutc L c k).screen.screenY a
      = ((viewOf k a (screenPage k a)).put (attribs a) wrap c).y := congrArg TermView.y hv
  have hx : 0 ≤ ((viewOf k a (screenPage k a)).put (attribs a) wrap c).x ∧
      ((viewOf k a (screenPage k a)).put (attribs a) wrap c).x
        ≤ (viewOf k a (screenPage k a)).x + 1 := TermView.put_x hx0 hy
  have hrow : 0 ≤ ((viewOf k a (screenPage k a)).put (attribs a) wrap c).y ∧
      ((viewOf k a (screenPage k a)).put (attribs a) wrap c).y < 25 := TermView.put_rows hy0 hy
  have hxv : (viewOf k a (screenPage k a)).x = k.screen.screenX a := rfl
  rw [hX, hY]
  omega

/-- The end of a `term_write`. -/
theorem screenInv_saveWritePos (h : ScreenInv L n k) :
    ScreenInv L n (saveWritePos k) ∧ OnlyTerm k.task.currentActiveProcess k (saveWritePos k) := by
  have ht : Touches k.task.currentActiveProcess (screenPage k k.task.currentActiveProcess) k
      (saveWritePos k) := (Touches.setWriteX _ _ k _).trans (Touches.setWriteY _ _ _ _)
  exact ⟨h.of_touches ht (Nat.le_refl n) (h.cursor _), ht.onlyTerm⟩

/-- Where a program's store through its vidmap page goes. -/
theorem vidmap_target (h : ScreenInv L n k) {o i : Nat} (ho : o < offset4K)
    (ht : translate L k k.page.cr3 true (BitVec.ofNat 32 (offset132M + offsetVideo + o)) = some i) :
    i = screenPage k k.task.currentActiveProcess + o := by
  have hv : (BitVec.ofNat 32 (offset132M + offsetVideo + o)).toNat
      = offset132M + offsetVideo + o := by
    simp only [BitVec.toNat_ofNat, offset132M, offset4M, offsetVideo, offset4K] at ho ⊢; omega
  rcases h.dirs k.page.cr3 (.inr (.inl rfl)) with hrow | ⟨hrow, h10⟩
  · -- the kernel's own directory has no such page
    have hidx : (BitVec.ofNat 32 (offset132M + offsetVideo + o)).toNat / offset4M = 33 := by
      rw [hv]
      simp only [offset132M, offset4M, offsetVideo, offset4K] at ho ⊢; omega
    have h33 : kernelPdRow L 33 = 0 := by
      simp [kernelPdRow, Function.update, numPds, maxPid]
    rw [translate_absent (by rw [hrow, hidx, h33]) (by decide)] at ht
    cases ht
  · rw [translate_user h.tables hrow h10, hv, if_neg (by omega), if_pos (by omega)] at ht
    have hi := Option.some.inj ht
    rw [h.video.lowFrame] at hi
    omega

theorem screenInv_store (h : ScreenInv L n k) {o i : Nat} (ho : o < offset4K)
    (ht : translate L k k.page.cr3 true (BitVec.ofNat 32 (offset132M + offsetVideo + o)) = some i)
    (b : Byte) :
    ScreenInv L n (withRam k (store k.ram i b)) ∧
      OnlyTerm k.task.currentActiveProcess k (withRam k (store k.ram i b)) := by
  have hi := vidmap_target h ho ht
  have htouch : Touches k.task.currentActiveProcess (screenPage k k.task.currentActiveProcess) k
      (withRam k (store k.ram i b)) := by
    refine Touches.withRam (fun j hj => store_of_ne ?_)
    omega
  exact ⟨h.of_touches htouch (Nat.le_refl n) (h.cursor _), htouch.onlyTerm⟩

end Output

/-! ## From boot on -/

/-- The globals as they are before `init_paging`: no process, terminal `0`, cursors home. -/
structure AtBoot (k : Kernel) : Prop where
  task : k.task = Kernel.zero.task
  screen : k.screen = Kernel.zero.screen
  terminal : k.page.currentTerminal = 0

/-- What `init_paging` leaves of everything but the tables and the buffers. -/
structure InitKeeps (k k' : Kernel) : Prop where
  task : k'.task = k.task
  screen : k'.screen = k.screen
  terminal : k'.page.currentTerminal = k.page.currentTerminal
  rows : k'.page.pageDirectories = k.page.pageDirectories
  cr3 : k'.page.cr3 = k.page.cr3

theorem initKeeps_setVmemTable (t : Term) (k : Kernel) : InitKeeps k (setVmemTable t k) :=
  ⟨rfl, rfl, rfl, rfl, rfl⟩

theorem initKeeps_initBuffer (L : Layout) (t : Term) (k : Kernel) :
    InitKeeps k (initBuffer L t k) := by
  unfold initBuffer
  refine forLoop_inv (P := fun _ (k' : Kernel) => InitKeeps k k')
    (initKeeps_setVmemTable t k) offset4K ?_
  intro i k' _ h
  exact ⟨by rw [kstore_task, h.task], by rw [kstore_screen, h.screen],
    by rw [kstore_page, h.terminal], by rw [kstore_page, h.rows], by rw [kstore_page, h.cr3]⟩

theorem InitKeeps.trans {k k' k'' : Kernel} (h : InitKeeps k k') (h' : InitKeeps k' k'') :
    InitKeeps k k'' :=
  ⟨h'.task.trans h.task, h'.screen.trans h.screen, h'.terminal.trans h.terminal,
    h'.rows.trans h.rows, h'.cr3.trans h.cr3⟩

theorem initKeeps_buffers (L : Layout) (k : Kernel) :
    InitKeeps k (initBuffer L 2 (initBuffer L 1 (initBuffer L 0 k))) :=
  ((initKeeps_initBuffer L 0 _).trans (initKeeps_initBuffer L 1 _)).trans
    (initKeeps_initBuffer L 2 _)

theorem initKeeps_initPaging (L : Layout) (k : Kernel) :
    InitKeeps (initTables L k) (initPaging L k) := by
  unfold initPaging
  exact (initKeeps_buffers L _).trans (initKeeps_setVmemTable 0 _)

theorem screenInv_boot {L : Layout} {k : Kernel} (h : AtBoot k) :
    ScreenInv L 0 (initPaging L k) := by
  have hi := initKeeps_initPaging L k
  have htask : (initPaging L k).task = Kernel.zero.task := hi.task.trans h.task
  have hterm : (initPaging L k).page.currentTerminal = 0 := hi.terminal.trans h.terminal
  have hcr3 : (initPaging L k).page.cr3 = 0 := hi.cr3
  have hrow : (initPaging L k).page.pageDirectories 0 = kernelPdRow L := by
    rw [hi.rows]
    simp [initTables, kernelPd]
  refine ⟨tables_initPaging L k, ?_, ?_, ?_⟩
  · unfold VideoEntry
    rw [htask, hterm]
    unfold initPaging
    rw [setVmemTable_video, (initKeeps_buffers L _).terminal,
      show (initTables L k).page.currentTerminal = k.page.currentTerminal from rfl, h.terminal]
    rfl
  · intro p hp
    have hp0 : p = 0 := by
      unfold Refers procs at hp
      rw [htask, hcr3] at hp
      rcases hp with h | h | ⟨_, h⟩ | ⟨_, h⟩ <;> exact h
    subst hp0
    exact .inl hrow
  · intro t
    rw [hi.screen, show (initTables L k).screen = k.screen from rfl, h.screen]
    show (0 : Int) ≤ 0 ∧ (0 : Int) ≤ (0 : Nat) ∧ (0 : Int) ≤ 0 ∧ (0 : Int) < 25
    decide

/-! ## Runs -/

/-- What can happen to a screen. -/
inductive ScreenAct where
  | switchVideo (u : Term)
  /-- A tick, an `execute` or a `halt`. -/
  | proc (a : Act)
  | switchContext (pid : Nat)
  /-- One character of a `term_write`, and its end. -/
  | write (c : Byte)
  | endWrite
  /-- A program's store of `b` at offset `o` of its vidmap page. -/
  | store (o : Nat) (b : Byte)

/-- One such thing happening. -/
inductive ScreenStep (L : Layout) (img : Image) : Kernel → ScreenAct → Kernel → Prop where
  | switchVideo {k : Kernel} {u : Term} :
      ScreenStep L img k (.switchVideo u) (switchVideo L u k)
  | proc {k k' : Kernel} {a : Act} : procStep L img k a k' → ScreenStep L img k (.proc a) k'
  | switchContext {k : Kernel} {pid : Nat} : Dir L k pid →
      ScreenStep L img k (.switchContext pid) (switchContext pid k)
  | write {k : Kernel} {c : Byte} : ScreenStep L img k (.write c) (mtPutc L c k)
  | endWrite {k : Kernel} : ScreenStep L img k .endWrite (saveWritePos k)
  | store {k : Kernel} {o i : Nat} {b : Byte} : o < offset4K →
      translate L k k.page.cr3 true (BitVec.ofNat 32 (offset132M + offsetVideo + o)) = some i →
      ScreenStep L img k (.store o b) (withRam k (Machine.store k.ram i b))

/-- How many characters an action writes. -/
def ScreenAct.chars : ScreenAct → Nat
  | .write _ => 1
  | _ => 0

/-- How many characters a run wrote. -/
def written : List ScreenAct → Nat
  | [] => 0
  | a :: as => a.chars + written as

theorem written_snoc (as : List ScreenAct) (a : ScreenAct) :
    written (as ++ [a]) = written as + a.chars := by
  induction as with
  | nil => simp [written]
  | cons b as ih => simp only [List.cons_append, written, ih]; omega

/-- What an action may change: nothing that is seen, or one terminal. -/
def Independent (k : Kernel) (k' : Kernel) : ScreenAct → Prop
  | .switchVideo _ => Unseen k k'
  | .proc _ => Unseen k k'
  | .switchContext _ => Unseen k k'
  | .write _ => OnlyTerm k.task.currentActiveProcess k k'
  | .endWrite => OnlyTerm k.task.currentActiveProcess k k'
  | .store _ _ =>
      OnlyTerm k.task.currentActiveProcess k k' ∧ k'.screen = k.screen ∧ k'.term = k.term

theorem screenInv_step {L : Layout} {img : Image} {n : Nat} {k k' : Kernel} {a : ScreenAct}
    (hs : ScreenStep L img k a k') (h : ScreenInv L n k) (hn : n < 536870912) :
    ScreenInv L (n + a.chars) k' ∧ Independent k k' a := by
  cases hs with
  | switchVideo => exact screenInv_switchVideo h _
  | proc hp => exact screenInv_resched h (procStep_resched hp)
  | switchContext hd => exact screenInv_switchContext h (.refl k) hd
  | write => exact screenInv_mtPutc h hn _
  | endWrite => exact screenInv_saveWritePos h
  | store ho ht =>
      obtain ⟨h1, h2⟩ := screenInv_store h ho ht _
      exact ⟨h1, h2, rfl, rfl⟩

theorem screenInv_run {L : Layout} {img : Image} {k0 k : Kernel} {as : List ScreenAct}
    (h0 : AtBoot k0) (hrun : Run (ScreenStep L img) (initPaging L k0) as k)
    (hn : written as < 536870912) : ScreenInv L (written as) k := by
  induction hrun with
  | nil => exact screenInv_boot h0
  | @snoc as a _ _ _ hs ih =>
      rw [written_snoc] at hn ⊢
      exact (screenInv_step hs (ih (by omega)) (by omega)).1

/--
**The three screens are independent.** In every state reached from `init_paging`
with fewer than `2^29` characters written, the low video entry follows the rule,
and whatever happens next changes no screen and no cursor but those of the
terminal whose process wrote.
-/
theorem screens_independent {L : Layout} {img : Image} {k0 k : Kernel} {as : List ScreenAct}
    (h0 : AtBoot k0) (hrun : Run (ScreenStep L img) (initPaging L k0) as k)
    (hn : written as < 2 ^ 29) :
    VideoEntry k ∧ ∀ a k', ScreenStep L img k a k' → Independent k k' a := by
  have hinv := screenInv_run h0 hrun hn
  exact ⟨hinv.video, fun a k' hs => (screenInv_step hs hinv hn).2⟩

/-- A character on terminal `0`, then terminal `1` on display while `0` still runs. -/
theorem screens_independent_after_switch : ∃ k,
    Run (ScreenStep someLayout shellDisk) (initPaging someLayout .zero)
        [.write 0x41, .switchVideo 1] k ∧
      VideoEntry k ∧ ∀ a k', ScreenStep someLayout shellDisk k a k' → Independent k k' a := by
  have hrun : Run (ScreenStep someLayout shellDisk) (initPaging someLayout .zero)
      ([.write 0x41] ++ [.switchVideo 1]) _ := (Run.one .write).append (Run.one .switchVideo)
  exact ⟨_, hrun, screens_independent ⟨rfl, rfl, rfl⟩ hrun (by decide)⟩

end Zbiggie.Proof
