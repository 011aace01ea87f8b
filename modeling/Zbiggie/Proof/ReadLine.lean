import Zbiggie.Proof.Delivery
import Zbiggie.Proof.LineEditor

/-!
# What a read of the terminal returns

A call of `term_read` that has been woken copies the line byte by byte, clearing each
byte behind it, until it meets an end of line or has as many bytes as were asked for.
Run without interruption it is two copies: `termRead_line` and `termRead_cut` say what it
leaves of the caller's buffer and of the line, for the two ways the loop can end.

Two slips show in that. A line that is completed gets a NUL behind its newline, which
is outside the caller's buffer when the line fills it. And Backspace with the cursor one
place before the end goes by the rule for the end itself: it drops the size, so that
Enter stores its newline over the last character, and leaves a NUL before it.
-/

namespace Zbiggie.Proof

open Zbiggie Machine

/-! ## An uninterrupted call -/

section Call

variable {L : Layout} {t : Term} {k : Kernel}

theorem readSteps_add (L : Layout) (t : Term) (b : Nat) : ∀ (a : Nat) (x : Reader × Kernel),
    readSteps L t (a + b) x = readSteps L t b (readSteps L t a x) := by
  intro a
  induction a with
  | zero => intro x; rw [Nat.zero_add]; rfl
  | succ a ih =>
      intro x
      rw [Nat.succ_add]
      exact ih _

theorem readSteps_returned (L : Layout) (t : Term) (i : Nat) (buf : Mem) (k : Kernel) : ∀ m,
    readSteps L t m (.returned i buf, k) = (.returned i buf, k) := by
  intro m
  induction m with
  | zero => rfl
  | succ m ih => exact ih

theorem blankLine_page (t : Term) (n : Nat) (k : Kernel) : (blankLine t n k).page = k.page :=
  forLoop_inv (P := fun _ (k' : Kernel) => k'.page = k.page) rfl n (fun _ _ _ h => h)

/-- One byte more of a copy. -/
theorem memcpy_succ (m : Mem) (src : Nat → Byte) (n : Nat) :
    store (memcpy m 0 src n) n (src n) = memcpy m 0 src (n + 1) := by
  show _ = store (memcpy m 0 src n) (0 + n) (src n)
  rw [Nat.zero_add]

/-- The row on display starts with the bytes of `ℓ`, none of which ends a line. -/
structure StartsWith (k : Kernel) (t : Term) (ℓ : List Byte) : Prop where
  shown : k.page.currentTerminal = t
  plain : ∀ b ∈ ℓ, ¬ IsEnd b
  bytes : ∀ j, j < ℓ.length → k.line t j = cstr ℓ j

/-- **The copying loop**, after `j` rounds: `j` bytes copied and as many cleared. -/
theorem readSteps_copy {ℓ : List Byte} (h : StartsWith k t ℓ) (n : Int) (buf : Mem) : ∀ j : Nat,
    j ≤ ℓ.length → (j : Int) ≤ n → readSteps L t (2 * j) (.loading n 0 buf, k)
      = (.loading n j (memcpy buf 0 (cstr ℓ) j), blankLine t j k) := by
  intro j
  induction j with
  | zero => intro _ _; rfl
  | succ j ih =>
      intro hj hn
      have hcur : (blankLine t j k).page.currentTerminal = t := by
        rw [blankLine_page]
        exact h.shown
      have hbyte : (blankLine t j k).line t j = cstr ℓ j := by
        rw [blankLine_line, if_neg (by omega)]
        exact h.bytes j (by omega)
      have hplain : ¬ IsEnd (cstr ℓ j) := by
        unfold cstr
        rw [List.getD_eq_getElem _ _ hj]
        exact h.plain _ (List.getElem_mem hj)
      -- a round is two steps, the load and the store of a zero
      have hload : termReadStep L t (.loading n j (memcpy buf 0 (cstr ℓ) j)) (blankLine t j k)
          = (.clearing n j (memcpy buf 0 (cstr ℓ) (j + 1)), blankLine t j k) := by
        unfold termReadStep
        dsimp only
        rw [if_pos (by omega), hcur, hbyte, memcpy_succ]
      have hclear : termReadStep L t (.clearing n j (memcpy buf 0 (cstr ℓ) (j + 1)))
          (blankLine t j k) = (.loading n (j + 1) (memcpy buf 0 (cstr ℓ) (j + 1)),
            blankLine t (j + 1) k) := by
        have hlast : memcpy buf 0 (cstr ℓ) (j + 1) j = cstr ℓ j := by
          rw [memcpy_apply, if_pos (by omega)]
          rfl
        have hgo : ¬ (cstr ℓ j = 0x0A ∨ cstr ℓ j = 0) := hplain
        unfold termReadStep
        dsimp only
        rw [hcur, hlast, if_neg hgo]
        rfl
      rw [show 2 * (j + 1) = 2 * j + 2 by omega, readSteps_add, ih (by omega) (by omega)]
      show termReadStep L t (termReadStep L t _ _).1 (termReadStep L t _ _).2 = _
      rw [hload, hclear]

/--
A call that has been woken, left to run. A line and its end take at most 257 steps, one
to leave the spin and two for each byte.
-/
def termReadRun (L : Layout) (t : Term) (n : Int) (buf : Mem) (k : Kernel) : Reader × Kernel :=
  readSteps L t (2 * bufSize + 1) (.spinning n buf, k)

/-- Leaving the spin draws a newline, and touches no line. -/
theorem readSteps_woken (hwait : k.term.waitForNl t = false) {ℓ : List Byte}
    (h : StartsWith k t ℓ) (n : Int) (buf : Mem) : ∃ k', StartsWith k' t ℓ ∧
      (∀ i, k'.line t i = k.line t i) ∧
      ∀ m, readSteps L t (m + 1) (.spinning n buf, k) = readSteps L t m (.loading n 0 buf, k') := by
  have hx := Shows.setX h.shown startPos
  have hput := hx.trans (Shows.putc (L := L) (hx.current.trans h.shown) 0x0A)
  have hline : ∀ i, (putc L 0x0A (setX startPos k)).line t i = k.line t i :=
    fun i => congrFun hput.buffer _
  refine ⟨putc L 0x0A (setX startPos k), ⟨hput.current.trans h.shown, h.plain, ?_⟩, hline, ?_⟩
  · intro j hj
    rw [hline]
    exact h.bytes j hj
  · intro m
    have hstep : termReadStep L t (.spinning n buf) k
        = (.loading n 0 buf, putc L 0x0A (setX startPos k)) := by
      unfold termReadStep
      dsimp only
      rw [hwait, if_neg (by decide)]
    show readSteps L t m (termReadStep L t (.spinning n buf) k) = _
    rw [hstep]

/-- **A line that is shorter than the request**: all of it, a newline, and a NUL. -/
theorem termRead_line (hwait : k.term.waitForNl t = false) {ℓ : List Byte} (h : StartsWith k t ℓ)
    (hlen : ℓ.length ≤ 127) (hend : IsEnd (k.line t ℓ.length)) {n : Int} (hn : ℓ.length < n)
    (buf : Mem) : ∃ k', termReadRun L t n buf k = (.returned (ℓ.length + 1)
        (store (store (memcpy buf 0 (cstr ℓ) ℓ.length) ℓ.length 0x0A) (ℓ.length + 1) 0), k') ∧
      ∀ i, k'.line t i = if 0 ≤ i ∧ i < (ℓ.length + 1 : Nat) then 0 else k.line t i := by
  obtain ⟨k1, h1, hline, hsteps⟩ := readSteps_woken (L := L) hwait h n buf
  have hcopy := readSteps_copy (L := L) h1 n buf ℓ.length (Nat.le_refl _) (by omega)
  have hcur : (blankLine t ℓ.length k1).page.currentTerminal = t := by
    rw [blankLine_page]
    exact h1.shown
  obtain ⟨e, he⟩ : ∃ e, e = (blankLine t ℓ.length k1).line t ℓ.length := ⟨_, rfl⟩
  have hend' : IsEnd e := by
    rw [he, blankLine_line, if_neg (by omega), hline]
    exact hend
  -- the byte that ends the line is copied, cleared, and made a newline
  have hlast : readSteps L t 2 (.loading n ℓ.length (memcpy buf 0 (cstr ℓ) ℓ.length),
      blankLine t ℓ.length k1) = (.returned (ℓ.length + 1)
        (store (store (memcpy buf 0 (cstr ℓ) ℓ.length) ℓ.length 0x0A) (ℓ.length + 1) 0),
        blankLine t (ℓ.length + 1) k1) := by
    have hload : termReadStep L t (.loading n ℓ.length (memcpy buf 0 (cstr ℓ) ℓ.length))
        (blankLine t ℓ.length k1) = (.clearing n ℓ.length
          (store (memcpy buf 0 (cstr ℓ) ℓ.length) ℓ.length e), blankLine t ℓ.length k1) := by
      unfold termReadStep
      dsimp only
      rw [if_pos hn, hcur, ← he]
    show termReadStep L t (termReadStep L t _ _).1 (termReadStep L t _ _).2 = _
    have hstop : e = 0x0A ∨ e = 0 := hend'
    rw [hload]
    unfold termReadStep
    dsimp only
    rw [store_self, if_pos hstop, hcur]
    refine Prod.ext ?_ rfl
    dsimp only
    unfold store
    rw [Function.update_idem]
  refine ⟨blankLine t (ℓ.length + 1) k1, ?_, ?_⟩
  · unfold termReadRun
    rw [hsteps, show 2 * bufSize = 2 * ℓ.length + (2 + (254 - 2 * ℓ.length)) by
      simp only [bufSize]; omega, readSteps_add, hcopy, readSteps_add, hlast, readSteps_returned]
  · intro i
    rw [blankLine_line, hline]

/-- **A line that is at least as long as the request**: as much of it as was asked for. -/
theorem termRead_cut (hwait : k.term.waitForNl t = false) {ℓ : List Byte} (h : StartsWith k t ℓ)
    (hlen : ℓ.length ≤ 127) {m : Nat} (hm : m ≤ ℓ.length) (buf : Mem) :
    ∃ k', termReadRun L t m buf k = (.returned m (memcpy buf 0 (cstr ℓ) m), k') ∧
      ∀ i, k'.line t i = if 0 ≤ i ∧ i < (m : Int) then 0 else k.line t i := by
  obtain ⟨k1, h1, hline, hsteps⟩ := readSteps_woken (L := L) hwait h m buf
  have hcopy := readSteps_copy (L := L) h1 m buf m hm (Int.le_refl _)
  have hlast : readSteps L t 1 (.loading m m (memcpy buf 0 (cstr ℓ) m), blankLine t m k1)
      = (.returned m (memcpy buf 0 (cstr ℓ) m), blankLine t m k1) := by
    show termReadStep L t (.loading m m _) _ = _
    unfold termReadStep
    dsimp only
    rw [if_neg (Int.lt_irrefl _)]
  refine ⟨blankLine t m k1, ?_, ?_⟩
  · unfold termReadRun
    rw [hsteps, show 2 * bufSize = 2 * m + (1 + (255 - 2 * m)) by simp only [bufSize]; omega,
      readSteps_add, hcopy, readSteps_add, hlast, readSteps_returned]
  · intro i
    rw [blankLine_line, hline]

end Call

/-! ## The caller's buffer -/

/--
What is asked of a call for `n` bytes with the line `w` waiting, whatever the buffer holds:
as much of the line as fits, nothing behind the buffer, and that much of the line gone.
-/
def ReadsLine (L : Layout) (t : Term) (k : Kernel) (w : List Byte) (n : Int) : Prop :=
  ∀ buf, ∃ r buf' k', termReadRun L t n buf k = (.returned r buf', k') ∧
    (r : Int) = Min.min (w.length + 1 : Int) n ∧
    (∀ j, j < r → buf' j = cstr (w ++ [0x0A]) j) ∧
    (∀ j : Nat, n ≤ j → buf' j = buf j) ∧
    ∀ i, k'.line t i = if 0 ≤ i ∧ i < r then 0 else k.line t i

section Contract

variable {L : Layout} {t : Term} {k : Kernel} {w : List Byte}

/-- The bytes a completed line leaves. -/
theorem line_bytes (buf : Mem) (w : List Byte) {j : Nat} (hj : j < w.length + 1) :
    store (store (memcpy buf 0 (cstr w) w.length) w.length 0x0A) (w.length + 1) 0 j
      = cstr (w ++ [0x0A]) j := by
  rw [store_of_ne (by omega)]
  unfold cstr
  by_cases hlast : j = w.length
  · rw [hlast, store_self, List.getD_append_right _ _ _ _ (Nat.le_refl _), Nat.sub_self]
    rfl
  · rw [store_of_ne hlast, memcpy_apply, if_pos (by omega), Nat.sub_zero,
      List.getD_append _ _ _ _ (by omega)]

/-- A line that fills the buffer, to a buffer of ones: the byte behind it is cleared. -/
theorem not_readsLine_full (L : Layout) (h : StartsWith k t w) (hlen : w.length ≤ 127)
    (hend : IsEnd (k.line t w.length)) (hwait : k.term.waitForNl t = false) :
    ¬ ReadsLine L t k w (w.length + 1) := by
  intro hread
  obtain ⟨r, buf', k', hrun, -, -, hout, -⟩ := hread (fun _ => 1)
  obtain ⟨k1, hrun1, -⟩ := termRead_line (L := L) hwait h hlen hend (n := w.length + 1) (by omega)
    (fun _ => 1)
  rw [hrun1] at hrun
  have hbuf := (Reader.returned.inj (Prod.mk.inj hrun).1).2
  have h1 : buf' (w.length + 1) = 1 := hout (w.length + 1) (by omega)
  rw [← hbuf, store_self] at h1
  exact absurd h1 (by decide)

/--
**A call meets its contract exactly when the line does not fill the buffer to the byte.**
Otherwise the NUL behind the newline is the first byte that is not the caller's.
-/
theorem term_read_meets_iff (L : Layout) (h : StartsWith k t w) (hlen : w.length ≤ 127)
    (hnl : k.line t w.length = 0x0A) (hwait : k.term.waitForNl t = false) {n : Int} (hn : 1 ≤ n) :
    ReadsLine L t k w n ↔ n ≠ w.length + 1 := by
  have hend : IsEnd (k.line t w.length) := .inl hnl
  refine ⟨?_, ?_⟩
  · intro hread heq
    rw [heq] at hread
    exact not_readsLine_full L h hlen hend hwait hread
  · intro hne buf
    by_cases hcut : n ≤ w.length
    · obtain ⟨m, rfl⟩ : ∃ m : Nat, n = m := ⟨n.toNat, by omega⟩
      obtain ⟨k', hrun, hline⟩ := termRead_cut (L := L) hwait h hlen (m := m) (by omega) buf
      refine ⟨m, _, k', hrun, by omega, ?_, ?_, hline⟩
      · intro j hj
        unfold cstr
        rw [memcpy_apply, if_pos (by omega), Nat.sub_zero, List.getD_append _ _ _ _ (by omega)]
      · intro j hj
        rw [memcpy_apply, if_neg (by omega)]
    · obtain ⟨k', hrun, hline⟩ := termRead_line (L := L) hwait h hlen hend (n := n) (by omega) buf
      refine ⟨w.length + 1, _, k', hrun, by omega, fun j hj => line_bytes buf w hj, ?_, hline⟩
      intro j hj
      rw [store_of_ne (by omega), store_of_ne (by omega), memcpy_apply, if_neg (by omega)]

end Contract

/-- "ab" typed on a fresh machine into a line that is being waited for, and arrow keys after it. -/
def typedAb (es : List Edit) : Kernel × Line :=
  editBoth someLayout (Kernel.zero.setWaitForNl 0 true, .empty) (.char 0x61 :: .char 0x62 :: es)

theorem typedAb_edits (es : List Edit) (hes : ∀ e ∈ es, e.Plain) :
    Edits (typedAb es).1 0 (typedAb es).2 ∧ (typedAb es).1.page.currentTerminal = 0 := by
  refine edits_run _ ⟨rfl, rfl, fun i hi => absurd hi (Nat.not_lt_zero i)⟩ rfl ?_
  intro e he
  rcases List.mem_cons.mp he with rfl | he
  · exact ⟨by decide, by decide, by decide⟩
  · rcases List.mem_cons.mp he with rfl | he
    · exact ⟨by decide, by decide, by decide⟩
    · exact hes e he

/-- "ab" and Enter. -/
def enteredAb : Kernel := termPutc someLayout 0x0A (typedAb []).1

theorem enteredAb_startsWith : StartsWith enteredAb 0 [0x61, 0x62] ∧
    enteredAb.line 0 2 = 0x0A ∧ enteredAb.term.waitForNl 0 = false := by
  obtain ⟨hedits, hcur⟩ := typedAb_edits [] fun e he => absurd he List.not_mem_nil
  obtain ⟨hbytes, hnl⟩ := edits_enter hedits hcur
  have htext : (typedAb []).2.text = [0x61, 0x62] := by decide
  have henter : enteredAb = termEnter (typedAb []).1 := rfl
  rw [htext] at hbytes hnl
  refine ⟨⟨hcur, ?_, hbytes⟩, hnl, ?_⟩
  · unfold IsEnd
    decide
  · rw [henter, termEnter_wait, hcur, Function.update_self]

/-- "ab" and Enter, and room for the line, its newline and the NUL. -/
theorem term_read_meets_ab : ReadsLine someLayout 0 enteredAb [0x61, 0x62] 4 := by
  obtain ⟨hstarts, hnl, hwait⟩ := enteredAb_startsWith
  exact (term_read_meets_iff someLayout hstarts (by decide) hnl hwait (by decide)).mpr (by decide)

/-- A read of a fresh machine, with Enter pressed on an empty line. -/
def enteredEmpty : Kernel := termPutc someLayout 0x0A (Kernel.zero.setWaitForNl 0 true)

theorem enteredEmpty_startsWith : StartsWith enteredEmpty 0 [] :=
  ⟨rfl, fun _ hb => absurd hb List.not_mem_nil, fun j hj => absurd hj (Nat.not_lt_zero j)⟩

/-- An empty line and room for one byte: the byte behind it is cleared. -/
theorem term_read_past_one : StartsWith enteredEmpty 0 [] ∧ enteredEmpty.line 0 0 = 0x0A ∧
    ¬ ReadsLine someLayout 0 enteredEmpty [] 1 :=
  ⟨enteredEmpty_startsWith, rfl,
    not_readsLine_full someLayout enteredEmpty_startsWith (by decide) (.inl rfl) rfl⟩

/-! ## Backspace and Enter -/

/-- A call for `n` bytes returns the line `w` and its newline. -/
def DeliversLine (L : Layout) (t : Term) (n : Int) (k : Kernel) (w : List Byte) : Prop :=
  ∀ buf, ∃ buf' k', termReadRun L t n buf k = (.returned (w.length + 1) buf', k') ∧
    ∀ j, j < w.length + 1 → buf' j = cstr (w ++ [0x0A]) j

/-- The text Backspace is to leave: one character less at the end, a blank elsewhere. -/
def erasedText (z : Line) : List Byte :=
  if z.cursor = z.text.length then z.text.dropLast else z.text.set (z.cursor - 1) 0x20

section Erase

variable {L : Layout} {t : Term} {k : Kernel} {z : Line}

theorem deliversLine_of {w : List Byte} (h : StartsWith k t w) (hlen : w.length ≤ 127)
    (hend : IsEnd (k.line t w.length)) (hwait : k.term.waitForNl t = false) {n : Int}
    (hn : w.length < n) : DeliversLine L t n k w := by
  intro buf
  obtain ⟨k', hrun, -⟩ := termRead_line (L := L) hwait h hlen hend hn buf
  exact ⟨_, k', hrun, fun j hj => line_bytes buf w hj⟩

/-- A call returns one line only. -/
theorem DeliversLine.length_eq {n : Int} {w w' : List Byte} (h : DeliversLine L t n k w)
    (h' : DeliversLine L t n k w') : w.length = w'.length := by
  obtain ⟨_, _, hrun, -⟩ := h (fun _ => 0)
  obtain ⟨_, _, hrun', -⟩ := h' (fun _ => 0)
  rw [hrun] at hrun'
  exact Nat.succ.inj (Reader.returned.inj (Prod.mk.inj hrun').1).1

/-- Backspace, then Enter. -/
def eraseEnter (L : Layout) (k : Kernel) : Kernel := termPutc L 0x0A (termPutc L 0x08 k)

/-- Where Enter puts the newline after Backspace. -/
def erasedSize (z : Line) : Nat :=
  if z.text.length ≤ z.cursor + 1 then z.text.length - 1 else z.text.length

/-- **The row after both keys**: the newline, the byte Backspace stored, and the rest as it was. -/
theorem eraseEnter_line (h : Edits k t z) (hcur : k.page.currentTerminal = t) (hpos : 1 ≤ z.cursor)
    (j : Nat) : (eraseEnter L k).line t j =
      if j = erasedSize z then 0x0A
      else if j = z.cursor - 1 then (if z.text.length ≤ z.cursor + 1 then 0 else 0x20)
      else k.line t j := by
  have hle := z.cursor_le
  have her := termBackspace_spec (L := L) k hcur
  have hcur1 : (termBackspace L k).page.currentTerminal = t :=
    (congrArg Paging.currentTerminal her.page).trans hcur
  -- `term_putc` takes the last two positions for the end
  have hat : AtEnd k t ↔ z.text.length ≤ z.cursor + 1 := by
    unfold AtEnd
    rw [h.pos, h.size]
    omega
  have hwhere : erasePos k t = ((z.cursor - 1 : Nat) : Int) := by
    unfold erasePos
    rw [h.pos, if_pos (by omega)]
    omega
  have hsize : (termBackspace L k).term.curSize t = erasedSize z := by
    unfold erasedSize
    rw [her.curSize]
    by_cases hend : AtEnd k t
    · rw [if_pos hend, if_pos (hat.mp hend), Function.update_self, h.size]
      omega
    · rw [if_neg hend, if_neg (fun hc => hend (hat.mpr hc)), h.size]
  have hline := termEnter_line (termBackspace L k) j
  rw [hcur1, hsize, her.line, hwhere] at hline
  unfold eraseChar at hline
  simp only [hat, Int.natCast_inj] at hline
  exact hline

/-- The reader is woken, with the same terminal on display. -/
theorem eraseEnter_woken (hcur : k.page.currentTerminal = t) :
    (eraseEnter L k).page.currentTerminal = t ∧ (eraseEnter L k).term.waitForNl t = false := by
  have her := termBackspace_spec (L := L) k hcur
  have hcur1 : (termBackspace L k).page.currentTerminal = t :=
    (congrArg Paging.currentTerminal her.page).trans hcur
  refine ⟨hcur1, ?_⟩
  have hwait := termEnter_wait (termBackspace L k)
  rw [hcur1] at hwait
  exact (congrFun hwait t).trans (Function.update_self ..)

/-- What the reader gets is a line the row starts with, up to a newline or a NUL. -/
theorem eraseEnter_delivers (hcur : k.page.currentTerminal = t) {w : List Byte} {n : Int}
    (hn : 128 ≤ n) (hlen : w.length ≤ 127) (hplain : ∀ b ∈ w, ¬ IsEnd b)
    (hbytes : ∀ j, j < w.length → (eraseEnter L k).line t j = cstr w j)
    (hend : IsEnd ((eraseEnter L k).line t w.length)) : DeliversLine L t n (eraseEnter L k) w := by
  obtain ⟨hshown, hwait⟩ := eraseEnter_woken (L := L) hcur
  exact deliversLine_of ⟨hshown, hplain, hbytes⟩ hlen hend hwait (by omega)

/-- With the cursor behind the line, its last character goes. -/
theorem erase_end (h : Edits k t z) (hcur : k.page.currentTerminal = t)
    (hplain : ∀ b ∈ z.text, ¬ IsEnd b) (hpos : 1 ≤ z.cursor) (hend : z.cursor = z.text.length)
    {n : Int} (hn : 128 ≤ n) : DeliversLine L t n (eraseEnter L k) z.text.dropLast := by
  have hfits := z.text_length_le
  have hline := eraseEnter_line (L := L) h hcur hpos
  have hsize : erasedSize z = z.text.length - 1 := if_pos (by omega)
  refine eraseEnter_delivers hcur hn ?_ (fun b hb => hplain b (List.dropLast_subset _ hb)) ?_ ?_
  · rw [List.length_dropLast]
    omega
  · intro j hj
    rw [List.length_dropLast] at hj
    rw [hline, hsize, if_neg (by omega), if_neg (by omega), h.bytes j (by omega)]
    unfold cstr
    rw [List.getD_eq_getElem _ _ (by omega), List.getD_eq_getElem _ _ (by
      rw [List.length_dropLast]; omega), List.getElem_dropLast]
  · rw [hline, hsize, List.length_dropLast, if_pos rfl]
    exact .inl rfl

/-- Well before the end, the character before the cursor turns into a blank. -/
theorem erase_middle (h : Edits k t z) (hcur : k.page.currentTerminal = t)
    (hplain : ∀ b ∈ z.text, ¬ IsEnd b) (hpos : 1 ≤ z.cursor) (hmid : z.cursor + 1 < z.text.length)
    {n : Int} (hn : 128 ≤ n) :
    DeliversLine L t n (eraseEnter L k) (z.text.set (z.cursor - 1) 0x20) := by
  have hfits := z.text_length_le
  have hline := eraseEnter_line (L := L) h hcur hpos
  have hsize : erasedSize z = z.text.length := if_neg (by omega)
  refine eraseEnter_delivers hcur hn ?_ ?_ ?_ ?_
  · rw [List.length_set]
    exact hfits
  · intro b hb
    rcases List.mem_or_eq_of_mem_set hb with hold | rfl
    · exact hplain b hold
    -- the blank is no end of the line
    · unfold IsEnd
      decide
  · intro j hj
    rw [List.length_set] at hj
    rw [hline, hsize, if_neg (by omega), if_neg (by omega : ¬ z.text.length ≤ z.cursor + 1)]
    unfold cstr
    rw [List.getD_eq_getElem _ _ (by rw [List.length_set]; exact hj), List.getElem_set]
    by_cases hj' : j = z.cursor - 1
    · rw [if_pos hj', if_pos hj'.symm]
    · rw [if_neg hj', if_neg (fun he => hj' he.symm), h.bytes j hj, List.getD_eq_getElem _ _ hj]
  · rw [hline, hsize, List.length_set, if_pos rfl]
    exact .inl rfl

/-- One place before the end, the NUL ends the line there: two characters are gone. -/
theorem erase_last (h : Edits k t z) (hcur : k.page.currentTerminal = t)
    (hplain : ∀ b ∈ z.text, ¬ IsEnd b) (hpos : 1 ≤ z.cursor) (hlast : z.cursor + 1 = z.text.length)
    {n : Int} (hn : 128 ≤ n) :
    DeliversLine L t n (eraseEnter L k) (z.text.take (z.cursor - 1)) := by
  have hfits := z.text_length_le
  have hline := eraseEnter_line (L := L) h hcur hpos
  have hsize : erasedSize z = z.text.length - 1 := if_pos (by omega)
  have htake : (z.text.take (z.cursor - 1)).length = z.cursor - 1 :=
    List.length_take_of_le (by omega)
  refine eraseEnter_delivers hcur hn ?_ (fun b hb => hplain b (List.mem_of_mem_take hb)) ?_ ?_
  · omega
  · intro j hj
    rw [htake] at hj
    rw [hline, hsize, if_neg (by omega), if_neg (by omega), h.bytes j (by omega)]
    unfold cstr
    rw [List.getD_eq_getElem?_getD, List.getD_eq_getElem?_getD, List.getElem?_take_of_lt hj]
  · rw [hline, hsize, htake, if_neg (by omega), if_pos rfl, if_pos (by omega)]
    exact .inr rfl

/--
**Backspace erases one character exactly when the cursor is not one place before the end.**
There it goes by the rule for the end, and Enter takes the last character for the newline.
-/
theorem backspace_erases_one_iff (L : Layout) (h : Edits k t z) (hcur : k.page.currentTerminal = t)
    (hplain : ∀ b ∈ z.text, ¬ IsEnd b) (hpos : 1 ≤ z.cursor) {n : Int} (hn : 128 ≤ n) :
    DeliversLine L t n (eraseEnter L k) (erasedText z) ↔ z.cursor + 1 ≠ z.text.length := by
  have hle := z.cursor_le
  unfold erasedText
  refine ⟨?_, ?_⟩
  · intro hdel hlast
    have hlen := hdel.length_eq (erase_last h hcur hplain hpos hlast hn)
    rw [if_neg (by omega), List.length_set, List.length_take_of_le (by omega)] at hlen
    omega
  · intro hne
    by_cases hend : z.cursor = z.text.length
    · rw [if_pos hend]
      exact erase_end h hcur hplain hpos hend hn
    · rw [if_neg hend]
      exact erase_middle h hcur hplain hpos (by omega) hn

end Erase

/-- "ab" and Backspace behind it: "a" is delivered. -/
theorem backspace_erases_b :
    DeliversLine someLayout 0 128 (eraseEnter someLayout (typedAb []).1) [0x61] := by
  obtain ⟨hedits, hcur⟩ := typedAb_edits [] (fun e he => absurd he List.not_mem_nil)
  have htext : ∀ b ∈ (typedAb []).2.text, ¬ IsEnd b := by
    unfold IsEnd
    decide
  exact (backspace_erases_one_iff someLayout hedits hcur htext (by decide) (Int.le_refl 128)).mpr
    (by decide)

/-- "ab", left, and Backspace: nothing is delivered, where a blank and "b" should be. -/
theorem backspace_erases_two :
    (typedAb [.left]).2.text = [0x61, 0x62] ∧ (typedAb [.left]).2.cursor = 1 ∧
      DeliversLine someLayout 0 128 (eraseEnter someLayout (typedAb [.left]).1) [] ∧
      ¬ DeliversLine someLayout 0 128 (eraseEnter someLayout (typedAb [.left]).1)
        (erasedText (typedAb [.left]).2) := by
  obtain ⟨hedits, hcur⟩ := typedAb_edits [.left] (by
    intro e he
    rw [List.mem_singleton.mp he]
    trivial)
  have htext : ∀ b ∈ (typedAb [.left]).2.text, ¬ IsEnd b := by
    unfold IsEnd
    decide
  have hnone : DeliversLine someLayout 0 128 (eraseEnter someLayout (typedAb [.left]).1) [] :=
    erase_last hedits hcur htext (by decide) (by decide) (Int.le_refl 128)
  refine ⟨by decide, by decide, hnone, ?_⟩
  intro hdel
  exact absurd (hdel.length_eq hnone) (by decide)

end Zbiggie.Proof
