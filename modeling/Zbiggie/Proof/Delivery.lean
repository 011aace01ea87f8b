import Mathlib.Data.List.GetD
import Zbiggie.Proof.Lines
import Zbiggie.Proof.ProcTable
import Zbiggie.Proof.Reschedule

/-!
# What a reader is given

A process that reads its terminal spins until Enter is typed there, and then takes
the line out of the terminal's row of `buffer`, byte by byte. It should be given the
line as it stood at that Enter. Two things get in the way: between the Enter and the
copy anything may be typed, and the copy takes its row from whichever terminal is on
display.

The system here is the kernel together with one reader per terminal. A ghost records
for each call the line its Enter was typed on. `Undisturbed` says of a step that it
does neither of those things, nor types a line the row cannot hold; in runs of such
steps every reader is given its line.
-/

namespace Zbiggie.Proof

open Zbiggie Machine

/-! ## The system -/

/-- The call has not returned. -/
def Reader.active : Reader → Bool
  | .returned .. => false
  | _ => true

/-- The machine, the call each terminal's process is in, and what is recorded of the calls. -/
structure Sys where
  k : Kernel
  reader : Term → Option Reader
  /-- Recorded: the `numbytes` of the last call. -/
  asked : Term → Int
  /-- Recorded: the line the first Enter since that call was typed on. -/
  line : Term → Option (List Byte)

namespace Sys

/-- No call yet. -/
def start (k : Kernel) : Sys := ⟨k, fun _ => none, fun _ => 0, fun _ => none⟩

/-- A process of `t` is in a call. -/
def inCall (s : Sys) (t : Term) : Bool := (s.reader t).any Reader.active

/-- It is in a call, before the Enter. -/
def waiting (s : Sys) (t : Term) : Bool := s.inCall t && (s.line t).isNone

/-- It is in a call, after the Enter. -/
def armed (s : Sys) (t : Term) : Bool := s.inCall t && (s.line t).isSome

end Sys

/-- The line in terminal `t`'s buffer. -/
def heldLine (k : Kernel) (t : Term) : List Byte :=
  (List.range (k.term.curSize t).toNat).map (fun j : Nat => k.line t j)

/-- A key is typed; a first Enter is recorded. -/
def typed (L : Layout) (inp : Byte) (s : Sys) : Sys :=
  { s with
    k := keyHandler L inp s.k
    line :=
      if inp = enterKey ∧ s.waiting s.k.page.currentTerminal then
        Function.update s.line s.k.page.currentTerminal
          (some (heldLine s.k s.k.page.currentTerminal))
      else s.line }

/-- The running process calls `term_read`. -/
def called (n : Int) (buf : Mem) (s : Sys) : Sys :=
  let t := s.k.task.currentActiveProcess
  { k := (termReadCall t n buf s.k).2
    reader := Function.update s.reader t (some (termReadCall t n buf s.k).1)
    asked := Function.update s.asked t n
    line := Function.update s.line t none }

/-- The running process, at `r` in its call, goes on. -/
def stepped (L : Layout) (r : Reader) (s : Sys) : Sys :=
  let t := s.k.task.currentActiveProcess
  { s with
    k := (termReadStep L t r s.k).2
    reader := Function.update s.reader t (some (termReadStep L t r s.k).1) }

/-- What can happen. -/
inductive ReadAct where
  | key (inp : Byte)
  /-- A tick, an `execute` or a `halt`. -/
  | proc (a : Act)
  | write (buf : List Byte)
  | call (n : Int) (buf : Mem)
  | step

/-- One thing happening. A process in a call does nothing else, but may be interrupted. -/
inductive ReadStep (L : Layout) (img : Image) : Sys → ReadAct → Sys → Prop where
  | key {s : Sys} {inp : Byte} : ReadStep L img s (.key inp) (typed L inp s)
  | tick {s : Sys} {loc : ExecLocals} {esp : Nat} {k' : Kernel} :
      procStep L img s.k (.tick loc esp) k' →
      ReadStep L img s (.proc (.tick loc esp)) { s with k := k' }
  | proc {s : Sys} {a : Act} {k' : Kernel} :
      s.inCall s.k.task.currentActiveProcess = false → procStep L img s.k a k' →
      ReadStep L img s (.proc a) { s with k := k' }
  | write {s : Sys} {buf : List Byte} :
      s.inCall s.k.task.currentActiveProcess = false →
      ReadStep L img s (.write buf) { s with k := termWrite L buf s.k }
  | call {s : Sys} {n : Int} {buf : Mem} :
      s.inCall s.k.task.currentActiveProcess = false →
      ReadStep L img s (.call n buf) (called n buf s)
  | step {s : Sys} {r : Reader} :
      s.reader s.k.task.currentActiveProcess = some r →
      ReadStep L img s .step (stepped L r s)

/-! ## What a call should do -/

/-- A call for a line or more that has returned gave the line recorded, and a newline. -/
def Delivered (s : Sys) (t : Term) : Prop :=
  ∀ i buf, s.reader t = some (.returned i buf) → bufSize ≤ s.asked t →
    ∃ ℓ, s.line t = some ℓ ∧ (List.range i).map buf = ℓ ++ [0x0A]

/-- Nothing about terminal `u` changed: its line, its counters, its cursor. -/
structure Untouched (u : Term) (k k' : Kernel) : Prop where
  row : RowKept u k k'
  curPos : k'.term.curPos u = k.term.curPos u
  curSize : k'.term.curSize u = k.term.curSize u
  screenX : k'.screen.screenX u = k.screen.screenX u
  screenY : k'.screen.screenY u = k.screen.screenY u

/-- The actions that are a call's own. -/
def ReadAct.IsRead : ReadAct → Prop
  | .call _ _ => True
  | .step => True
  | _ => False

/-! ## When it does -/

/-- A byte that ends a line. -/
def IsEnd (b : Byte) : Prop := b = 0x0A ∨ b = 0

/--
The row can hold the line with its newline, and the line reads as one line. A size
below zero leaves no newline in the row, so a byte that ends it must be there already.
-/
def EnterOk (k : Kernel) (t : Term) : Prop :=
  k.term.curSize t < bufSize ∧ (∀ j : Nat, (j : Int) < k.term.curSize t → ¬ IsEnd (k.line t j)) ∧
    (k.term.curSize t < 0 → IsEnd (k.line t 0))

/-- The reader is past its Enter, and about to draw or to copy. -/
def Reader.Copies (k : Kernel) (t : Term) : Reader → Prop
  | .spinning _ _ => k.term.waitForNl t = false
  | .loading _ _ _ => True
  | .clearing _ _ _ => True
  | .returned _ _ => False

/--
**The condition.** An Enter that a call waits for is typed on a line the row can hold;
while a call is between its Enter and its return, its line is not edited and nothing
typed elsewhere runs into its row; and a call copies only while its terminal is on display.
-/
def Undisturbed (s : Sys) : ReadAct → Prop
  | .key inp =>
      (inp = enterKey → s.waiting s.k.page.currentTerminal = true →
        bufSize ≤ s.asked s.k.page.currentTerminal → EnterOk s.k s.k.page.currentTerminal) ∧
      (s.armed s.k.page.currentTerminal = true → ¬ EditKey inp s.k) ∧
      ((∃ t, t ≠ s.k.page.currentTerminal ∧ s.armed t = true) → KeyInRow inp s.k)
  | .step => ∀ r, s.reader s.k.task.currentActiveProcess = some r →
      Reader.Copies s.k s.k.task.currentActiveProcess r →
      s.k.page.currentTerminal = s.k.task.currentActiveProcess
  | _ => True

/-! ## The invariant -/

/-- Row `t` still has line `ℓ` from byte `i` on, and what ends it. -/
structure Pending (k : Kernel) (t : Term) (i : Nat) (ℓ : List Byte) : Prop where
  fits : ℓ.length < bufSize
  plain : ∀ b ∈ ℓ, ¬ IsEnd b
  bytes : ∀ j : Nat, i ≤ j → j < ℓ.length → k.line t j = ℓ.getD j 0
  terminator : i ≤ ℓ.length → IsEnd (k.line t ℓ.length)

/-- The first `i` bytes of `ℓ` have been copied. -/
def Copied (buf : Mem) (i : Nat) (ℓ : List Byte) : Prop := ∀ j, j < i → buf j = ℓ.getD j 0

/-- Where a call stands, against what was recorded of it. -/
def ReaderInv (k : Kernel) (t : Term) (asked : Int) (line : Option (List Byte)) : Reader → Prop
  | .spinning n _ => n = asked ∧
      match line with
      | none => k.term.waitForNl t = true
      | some ℓ => k.term.waitForNl t = false ∧ (bufSize ≤ n → Pending k t 0 ℓ)
  | .loading n i buf => n = asked ∧ ∃ ℓ, line = some ℓ ∧
      (bufSize ≤ n → i ≤ ℓ.length ∧ Pending k t i ℓ ∧ Copied buf i ℓ)
  | .clearing n i buf => n = asked ∧ (i : Int) < n ∧ ∃ ℓ, line = some ℓ ∧
      (bufSize ≤ n → i ≤ ℓ.length ∧ Pending k t (i + 1) ℓ ∧ Copied buf i ℓ ∧
        if i < ℓ.length then buf i = ℓ.getD i 0 else IsEnd (buf i))
  | .returned i buf => bufSize ≤ asked →
      ∃ ℓ, line = some ℓ ∧ i = ℓ.length + 1 ∧ Copied buf ℓ.length ℓ ∧ buf ℓ.length = 0x0A

/-- What holds between any two steps. -/
structure ReadInv (s : Sys) : Prop where
  pos : ∀ u, 0 ≤ s.k.term.curPos u
  reader : ∀ t r, s.reader t = some r → ReaderInv s.k t (s.asked t) (s.line t) r

theorem readInv_start {k : Kernel} (h : ∀ u, 0 ≤ k.term.curPos u) : ReadInv (Sys.start k) :=
  ⟨h, fun _ _ hr => by cases hr⟩

theorem Pending.congr {k k' : Kernel} {t : Term} {i : Nat} {ℓ : List Byte} (h : Pending k t i ℓ)
    (hr : RowKept t k k') : Pending k' t i ℓ where
  fits := h.fits
  plain := h.plain
  bytes := fun j h1 h2 => by
    have := h.fits
    rw [hr j ⟨by omega, by omega⟩]
    exact h.bytes j h1 h2
  terminator := fun h1 => by
    have := h.fits
    rw [hr _ ⟨by omega, by omega⟩]
    exact h.terminator h1

/--
A call is where it was if its flag and, once its Enter is typed, its row are as they
were.
-/
theorem ReaderInv.congr {k k' : Kernel} {t : Term} {n : Int} {line : Option (List Byte)}
    {r : Reader} (h : ReaderInv k t n line r)
    (hw : k'.term.waitForNl t = k.term.waitForNl t)
    (hr : Reader.active r = true → line.isSome = true → RowKept t k k') :
    ReaderInv k' t n line r := by
  cases r with
  | spinning m buf =>
      obtain ⟨hm, h⟩ := h
      refine ⟨hm, ?_⟩
      cases line with
      | none => exact hw.trans h
      | some ℓ => exact ⟨hw.trans h.1, fun hn => (h.2 hn).congr (hr rfl rfl)⟩
  | loading m i buf =>
      obtain ⟨hm, ℓ, rfl, h⟩ := h
      refine ⟨hm, ℓ, rfl, ?_⟩
      intro hn
      obtain ⟨h1, h2, h3⟩ := h hn
      exact ⟨h1, h2.congr (hr rfl rfl), h3⟩
  | clearing m i buf =>
      obtain ⟨hm, hi, ℓ, rfl, h⟩ := h
      refine ⟨hm, hi, ℓ, rfl, ?_⟩
      intro hn
      obtain ⟨h1, h2, h3⟩ := h hn
      exact ⟨h1, h2.congr (hr rfl rfl), h3⟩
  | returned i buf => exact h

/-- A call that has returned is what it was. -/
theorem ReaderInv.of_returned {k k' : Kernel} {t : Term} {n : Int} {line : Option (List Byte)}
    {r : Reader} (h : ReaderInv k t n line r) (hr : Reader.active r = false) :
    ReaderInv k' t n line r := by
  cases r with
  | spinning m buf => cases hr
  | loading m i buf => cases hr
  | clearing m i buf => cases hr
  | returned i buf => exact h

theorem waiting_of {s : Sys} {t : Term} {r : Reader} (hr : s.reader t = some r)
    (ha : Reader.active r = true) (hl : s.line t = none) : s.waiting t = true := by
  simp [Sys.waiting, Sys.inCall, hr, ha, hl]

theorem waiting_elim {s : Sys} {t : Term} {r : Reader} (hr : s.reader t = some r)
    (h : s.waiting t = true) : Reader.active r = true ∧ s.line t = none := by
  simpa [Sys.waiting, Sys.inCall, hr] using h

theorem armed_of {s : Sys} {t : Term} {r : Reader} (hr : s.reader t = some r)
    (ha : Reader.active r = true) (hl : (s.line t).isSome = true) : s.armed t = true := by
  simp [Sys.armed, Sys.inCall, hr, ha, hl]

/-- A step of the machine that no call notices. -/
theorem ReadInv.quiet {s : Sys} (h : ReadInv s) {k' : Kernel}
    (hw : k'.term.waitForNl = s.k.term.waitForNl) (hp : k'.term.curPos = s.k.term.curPos)
    (hb : k'.term.buffer = s.k.term.buffer) : ReadInv { s with k := k' } := by
  refine ⟨?_, fun t r hr => (h.reader t r hr).congr (by rw [hw]) fun _ _ => .of_buffer hb t⟩
  intro u
  show 0 ≤ k'.term.curPos u
  rw [hp]
  exact h.pos u

/-! ## Keys -/

/-- The line recorded at an Enter is what the row then holds. -/
theorem pending_enter {k : Kernel} (h : EnterOk k k.page.currentTerminal) :
    Pending (termEnter k) k.page.currentTerminal 0 (heldLine k k.page.currentTerminal) := by
  obtain ⟨hsize, hplain, hneg⟩ := h
  have hlen : (heldLine k k.page.currentTerminal).length
      = (k.term.curSize k.page.currentTerminal).toNat := by simp [heldLine]
  have hget : ∀ j, j < (k.term.curSize k.page.currentTerminal).toNat →
      (heldLine k k.page.currentTerminal).getD j 0 = k.line k.page.currentTerminal j := by
    intro j hj
    simp [heldLine, List.getD, hj]
  refine ⟨by rw [hlen]; simp only [bufSize] at hsize ⊢; omega, ?_, ?_, ?_⟩
  · intro b hb
    simp only [heldLine, List.mem_map, List.mem_range] at hb
    obtain ⟨j, hj, rfl⟩ := hb
    exact hplain j (by omega)
  · intro j _ hj
    rw [hlen] at hj
    rw [termEnter_line, if_neg (by omega), hget j hj]
  · intro _
    rw [hlen, termEnter_line]
    split
    · exact .inl rfl
    · -- the newline went elsewhere, below the row
      rename_i hne
      have hlt : k.term.curSize k.page.currentTerminal < 0 := by omega
      rw [Int.toNat_of_nonpos (Int.le_of_lt hlt)]
      exact hneg hlt

/-- **A key.** -/
theorem readInv_key {L : Layout} {s : Sys} {inp : Byte} (h : ReadInv s)
    (hc : Undisturbed s (.key inp)) : ReadInv (typed L inp s) := by
  have hf := keyHandler_frame L inp h.pos
  obtain ⟨henter, hedit, hrow⟩ := hc
  refine ⟨hf.pos, fun t r (hr : s.reader t = some r) => ?_⟩
  have hold := h.reader t r hr
  show ReaderInv (keyHandler L inp s.k) t (s.asked t) ((typed L inp s).line t) r
  by_cases hfirst : inp = enterKey ∧ s.waiting s.k.page.currentTerminal = true ∧
      t = s.k.page.currentTerminal
  · -- the Enter this call was waiting for
    obtain ⟨rfl, hwait, rfl⟩ := hfirst
    have hline : (typed L enterKey s).line s.k.page.currentTerminal
        = some (heldLine s.k s.k.page.currentTerminal) := by
      unfold typed
      dsimp only
      rw [if_pos ⟨rfl, hwait⟩, Function.update_self]
    obtain ⟨hactive, hnone⟩ := waiting_elim hr hwait
    rw [hline, keyHandler_enter]
    rw [hnone] at hold
    cases r with
    | spinning n buf =>
        refine ⟨hold.1, ?_, fun hn => pending_enter (henter rfl hwait (hold.1 ▸ hn))⟩
        rw [termEnter_wait, Function.update_self]
    | loading n i buf => obtain ⟨_, ℓ, hℓ, _⟩ := hold; cases hℓ
    | clearing n i buf => obtain ⟨_, _, ℓ, hℓ, _⟩ := hold; cases hℓ
    | returned i buf => cases hactive
  · have hline : (typed L inp s).line t = s.line t := by
      unfold typed
      dsimp only
      split
      · rename_i hw
        exact Function.update_of_ne (fun ht => hfirst ⟨hw.1, hw.2, ht⟩) _ _
      · rfl
    rw [hline]
    by_cases ht : t = s.k.page.currentTerminal
    · subst ht
      cases hactive : Reader.active r with
      | false => exact hold.of_returned hactive
      | true =>
          cases hl : s.line s.k.page.currentTerminal with
          | none =>
              -- still waiting, so this was not Enter
              have hne : inp ≠ enterKey :=
                fun he => hfirst ⟨he, waiting_of hr hactive hl, rfl⟩
              rw [hl] at hold
              exact hold.congr (by rw [hf.wait, if_neg hne]) (fun _ h => by cases h)
          | some ℓ =>
              have hq := hedit (armed_of hr hactive (by rw [hl]; rfl))
              have hne : inp ≠ enterKey := by rintro rfl; exact hq (editKey_enter s.k)
              rw [hl] at hold
              exact hold.congr (by rw [hf.wait, if_neg hne]) (fun _ _ => .of_buffer (hf.quiet hq) _)
    · refine hold.congr ?_ (fun ha hl => hf.rows (hrow ⟨t, ht, armed_of hr ha hl⟩) t ht)
      rw [hf.wait]
      split
      · exact Function.update_of_ne ht _ _
      · rfl

/-! ## Calls and their steps -/

/-- **A call** sets one flag. -/
theorem readInv_call {s : Sys} (h : ReadInv s) (n : Int) (buf : Mem) :
    ReadInv (called n buf s) := by
  refine ⟨h.pos, ?_⟩
  intro t r hr
  by_cases ht : t = s.k.task.currentActiveProcess
  · subst ht
    have hr' : r = .spinning n buf := by
      simp only [called, Function.update_self, Option.some.injEq] at hr
      exact hr.symm
    subst hr'
    have ha : (called n buf s).asked s.k.task.currentActiveProcess = n := Function.update_self ..
    have hl : (called n buf s).line s.k.task.currentActiveProcess = none := Function.update_self ..
    rw [ha, hl]
    exact ⟨rfl, Function.update_self (f := s.k.term.waitForNl) ..⟩
  · have hr' : s.reader t = some r := by
      simp only [called, Function.update_of_ne ht] at hr
      exact hr
    have ha : (called n buf s).asked t = s.asked t := Function.update_of_ne ht _ _
    have hl : (called n buf s).line t = s.line t := Function.update_of_ne ht _ _
    rw [ha, hl]
    exact (h.reader t r hr').congr (Function.update_of_ne ht _ _) (fun _ _ => .refl t _)

/-- The machine after a step of a call: the line and the flags of no other terminal change. -/
structure StepKept (t : Term) (k k' : Kernel) : Prop where
  page : k'.page = k.page
  task : k'.task = k.task
  wait : k'.term.waitForNl = k.term.waitForNl
  pos : k'.term.curPos = k.term.curPos
  others : ∀ u, u ≠ t → Untouched u k k'

theorem StepKept.refl (t : Term) (k : Kernel) : StepKept t k k :=
  ⟨rfl, rfl, rfl, rfl, fun u _ => ⟨.refl u k, rfl, rfl, rfl, rfl⟩⟩

theorem Shows.stepKept {t : Term} {k k' : Kernel} (h : Shows t k k') : StepKept t k k' :=
  ⟨h.page, h.task, h.waitForNl, h.curPos, fun u hu =>
    ⟨.of_buffer h.buffer u, by rw [h.curPos], by rw [h.curSize], h.screenX u hu, h.screenY u hu⟩⟩

theorem stepKept_clear {t : Term} (k : Kernel) {i : Int} (hi : InRow i) :
    StepKept t k (k.setLine t i 0) :=
  ⟨rfl, rfl, rfl, rfl, fun _ hu => ⟨rowKept_setLine k hu hi 0, rfl, rfl, rfl, rfl⟩⟩

/-- The index a call clears is in its row. -/
theorem ReaderInv.clearing_inRow {k : Kernel} {t : Term} {asked n : Int}
    {line : Option (List Byte)} {i : Nat} {buf : Mem}
    (h : ReaderInv k t asked line (.clearing n i buf)) : InRow i := by
  obtain ⟨_, hi, ℓ, _, h⟩ := h
  by_cases hn : (bufSize : Int) ≤ n
  · obtain ⟨h1, h2, _⟩ := h hn
    have := h2.fits
    exact ⟨by omega, by omega⟩
  · exact ⟨by omega, by omega⟩

theorem termReadStep_kept {L : Layout} {k : Kernel} {t : Term} {asked : Int}
    {line : Option (List Byte)} {r : Reader} (h : ReaderInv k t asked line r)
    (hc : Reader.Copies k t r → k.page.currentTerminal = t) :
    StepKept t k (termReadStep L t r k).2 := by
  cases r with
  | spinning n buf =>
      unfold termReadStep
      dsimp only
      split
      · exact .refl t k
      · rename_i hw
        have hcur := hc (by simpa [Reader.Copies] using hw)
        have hx := Shows.setX hcur startPos
        exact (hx.trans (Shows.putc (hx.current.trans hcur) 0x0A)).stepKept
  | loading n i buf =>
      unfold termReadStep
      dsimp only
      split
      · exact .refl t k
      · exact .refl t k
  | clearing n i buf =>
      have hcur := hc trivial
      have hk : (termReadStep L t (.clearing n i buf) k).2 = k.setLine t i 0 := by
        unfold termReadStep
        dsimp only
        rw [hcur]
        split
        · rfl
        · rfl
      rw [hk]
      exact stepKept_clear k h.clearing_inRow
  | returned i buf => exact .refl t k

theorem Pending.succ {k : Kernel} {t : Term} {i : Nat} {ℓ : List Byte} (h : Pending k t i ℓ) :
    Pending k t (i + 1) ℓ :=
  ⟨h.fits, h.plain, fun j h1 h2 => h.bytes j (by omega) h2, fun h1 => h.terminator (by omega)⟩

/-- Clearing a byte already copied. -/
theorem Pending.clear {k : Kernel} {t : Term} {i : Nat} {ℓ : List Byte}
    (h : Pending k t (i + 1) ℓ) : Pending (k.setLine t i 0) t (i + 1) ℓ where
  fits := h.fits
  plain := h.plain
  bytes := fun j h1 h2 => by
    rw [line_setLine, if_neg (by omega)]
    exact h.bytes j h1 h2
  terminator := fun h1 => by
    rw [line_setLine, if_neg (by omega)]
    exact h.terminator h1

/-- **One step of a call**, taken with its terminal on display if it copies. -/
theorem readerInv_step {L : Layout} {k : Kernel} {t : Term} {asked : Int}
    {line : Option (List Byte)} {r : Reader} (h : ReaderInv k t asked line r)
    (hc : Reader.Copies k t r → k.page.currentTerminal = t) :
    ReaderInv (termReadStep L t r k).2 t asked line (termReadStep L t r k).1 := by
  cases r with
  | spinning n buf =>
      unfold termReadStep
      dsimp only
      split
      · exact h
      · rename_i hw
        have hw : k.term.waitForNl t = false := by simpa using hw
        have hcur := hc hw
        have hx := Shows.setX hcur startPos
        have hput := hx.trans (Shows.putc (L := L) (hx.current.trans hcur) 0x0A)
        obtain ⟨hn, h⟩ := h
        cases line with
        | none => rw [hw] at h; cases h
        | some ℓ =>
            refine ⟨hn, ℓ, rfl, fun hn => ⟨Nat.zero_le _, ?_, fun j hj => absurd hj (by omega)⟩⟩
            exact (h.2 hn).congr (.of_buffer hput.buffer t)
  | loading n i buf =>
      obtain ⟨hn, ℓ, rfl, h⟩ := h
      unfold termReadStep
      dsimp only
      split
      · rename_i hi
        refine ⟨hn, hi, ℓ, rfl, ?_⟩
        intro hn
        obtain ⟨h1, h2, h3⟩ := h hn
        -- the byte loaded is the next of the line, or the newline behind it
        refine ⟨h1, h2.succ, ?_, ?_⟩
        · intro j hj
          rw [store_of_ne (by omega)]
          exact h3 j hj
        · rw [store_self, hc trivial]
          split
          · rename_i hlt
            exact h2.bytes i (Nat.le_refl i) hlt
          · obtain rfl : i = ℓ.length := by omega
            exact h2.terminator h1
      · -- the line is shorter than what was asked for
        rename_i hi
        intro hask
        have h' := h (hn ▸ hask)
        have := h'.2.1.fits
        omega
  | clearing n i buf =>
      obtain ⟨hn, hi, ℓ, rfl, h⟩ := h
      unfold termReadStep
      dsimp only
      rw [hc trivial]
      split
      · rename_i hend
        intro hask
        obtain ⟨h1, h2, h3, h4⟩ := h (hn ▸ hask)
        -- a line holds no terminator of its own
        have hlen : i = ℓ.length := by
          by_contra hne
          have hlt : i < ℓ.length := by omega
          rw [if_pos hlt] at h4
          refine h2.plain (ℓ.getD i 0) ?_ (h4 ▸ hend)
          rw [List.getD_eq_getElem _ _ hlt]
          exact List.getElem_mem hlt
        subst hlen
        refine ⟨ℓ, rfl, rfl, ?_, ?_⟩
        · intro j hj
          rw [store_of_ne (by omega), store_of_ne (by omega)]
          exact h3 j hj
        · rw [store_of_ne (by omega), store_self]
      · rename_i hend
        refine ⟨hn, ℓ, rfl, ?_⟩
        intro hn
        obtain ⟨h1, h2, h3, h4⟩ := h hn
        have hlt : i < ℓ.length := by
          by_contra hge
          rw [if_neg hge] at h4
          exact hend h4
        rw [if_pos hlt] at h4
        refine ⟨hlt, h2.clear, ?_⟩
        intro j hj
        rcases Nat.eq_or_lt_of_le (Nat.le_of_lt_succ hj) with rfl | hj
        · exact h4
        · exact h3 j hj
  | returned i buf => exact h

/-- **A step**, for every call. -/
theorem readInv_step {L : Layout} {s : Sys} (h : ReadInv s) {r : Reader}
    (hr : s.reader s.k.task.currentActiveProcess = some r) (hc : Undisturbed s .step) :
    ReadInv (stepped L r s) := by
  have hown := h.reader _ r hr
  have hk := termReadStep_kept (L := L) hown (hc r hr)
  refine ⟨?_, ?_⟩
  · intro u
    show 0 ≤ (termReadStep L s.k.task.currentActiveProcess r s.k).2.term.curPos u
    rw [hk.pos]
    exact h.pos u
  · intro t r' hr'
    by_cases ht : t = s.k.task.currentActiveProcess
    · subst ht
      have hr'' : r' = (termReadStep L s.k.task.currentActiveProcess r s.k).1 := by
        simp only [stepped, Function.update_self, Option.some.injEq] at hr'
        exact hr'.symm
      subst hr''
      exact readerInv_step hown (hc r hr)
    · have hr'' : s.reader t = some r' := by
        simp only [stepped, Function.update_of_ne ht] at hr'
        exact hr'
      exact (h.reader t r' hr'').congr (by
        show (termReadStep L s.k.task.currentActiveProcess r s.k).2.term.waitForNl t = _
        rw [hk.wait]) (fun _ _ => (hk.others t ht).row)

/-! ## Runs -/

theorem readInv_preserved {L : Layout} {img : Image} {s s' : Sys} {a : ReadAct} (h : ReadInv s)
    (hc : Undisturbed s a) (hs : ReadStep L img s a s') : ReadInv s' := by
  cases hs with
  | key => exact readInv_key h hc
  | tick hp =>
      have hk := (procStep_resched hp).termKept
      exact h.quiet hk.waitForNl hk.curPos hk.buffer
  | proc _ hp =>
      have hk := (procStep_resched hp).termKept
      exact h.quiet hk.waitForNl hk.curPos hk.buffer
  | write _ =>
      have hk := Shows.termWrite (L := L) (k := s.k) rfl ‹List Byte›
      exact h.quiet hk.waitForNl hk.curPos hk.buffer
  | call _ => exact readInv_call h _ _
  | step hr => exact readInv_step h hr hc

theorem ReadInv.delivered {s : Sys} (h : ReadInv s) (t : Term) : Delivered s t := by
  intro i buf hr hn
  obtain ⟨ℓ, hl, rfl, hcopied, hnl⟩ := h.reader t _ hr hn
  refine ⟨ℓ, hl, ?_⟩
  rw [List.range_succ, List.map_append, List.map_singleton, hnl]
  congr 1
  apply List.ext_getElem
  · simp
  · intro j h1 h2
    simp only [List.getElem_map, List.getElem_range]
    rw [hcopied j h2, List.getD_eq_getElem _ _ h2]

/-- How many steps a call that has its line may still take. -/
def stepsLeft (ℓ : List Byte) : Reader → Nat
  | .spinning _ _ => 2 * ℓ.length + 3
  | .loading _ i _ => 2 * (ℓ.length - i) + 2
  | .clearing _ i _ => 2 * (ℓ.length - i) + 1
  | .returned _ _ => 0

theorem stepsLeft_step {L : Layout} {k : Kernel} {t : Term} {asked : Int} {ℓ : List Byte}
    {r : Reader} (h : ReaderInv k t asked (some ℓ) r) (hn : bufSize ≤ asked)
    (ha : Reader.active r = true) (hcur : k.page.currentTerminal = t) :
    stepsLeft ℓ (termReadStep L t r k).1 < stepsLeft ℓ r := by
  have hnext := readerInv_step (L := L) h (fun _ => hcur)
  cases r with
  | spinning n buf =>
      have hw : ¬ k.term.waitForNl t = true := by rw [h.2.1]; decide
      simp only [termReadStep, if_neg hw, stepsLeft]
      omega
  | loading n i buf =>
      obtain ⟨rfl, ℓ', hℓ, h⟩ := h
      cases hℓ
      obtain ⟨h1, h2, _⟩ := h hn
      have := h2.fits
      have hi : (i : Int) < n := by omega
      simp only [termReadStep, if_pos hi, stepsLeft]
      omega
  | clearing n i buf =>
      unfold termReadStep at hnext ⊢
      dsimp only at hnext ⊢
      split
      · simp only [stepsLeft]
        omega
      · rename_i hend
        rw [if_neg hend] at hnext
        obtain ⟨rfl, ℓ', hℓ, h'⟩ := hnext
        cases hℓ
        have := (h' hn).1
        simp only [stepsLeft]
        omega
  | returned i buf => cases ha

/-- **A call that has its line returns**, if it is left running with its terminal on display. -/
theorem armed_returns {L : Layout} (img : Image) : ∀ (m : Nat) {s : Sys} {t : Term} {r : Reader}
    {ℓ : List Byte}, ReadInv s → s.reader t = some r → s.line t = some ℓ → bufSize ≤ s.asked t →
    s.k.task.currentActiveProcess = t → s.k.page.currentTerminal = t → stepsLeft ℓ r ≤ m →
    ∃ n s', Run (Guarded (ReadStep L img) Undisturbed) s (List.replicate n .step) s' ∧
      ∃ i buf, s'.reader t = some (.returned i buf) := by
  intro m
  induction m with
  | zero =>
      intro s t r ℓ _ hr _ _ _ _ hm
      refine ⟨0, s, .nil, ?_⟩
      cases r with
      | spinning n buf => simp only [stepsLeft] at hm; omega
      | loading n i buf => simp only [stepsLeft] at hm; omega
      | clearing n i buf => simp only [stepsLeft] at hm; omega
      | returned i buf => exact ⟨i, buf, hr⟩
  | succ m ih =>
      intro s t r ℓ h hr hl hn hactive hcur hm
      cases ha : Reader.active r with
      | false =>
          refine ⟨0, s, .nil, ?_⟩
          cases r with
          | spinning n buf => cases ha
          | loading n i buf => cases ha
          | clearing n i buf => cases ha
          | returned i buf => exact ⟨i, buf, hr⟩
      | true =>
          subst hactive
          have hown := h.reader _ r hr
          rw [hl] at hown
          have hless := stepsLeft_step (L := L) hown hn ha hcur
          have hkept := termReadStep_kept (L := L) hown (fun _ => hcur)
          have hund : Undisturbed s .step := fun _ _ _ => hcur
          have hstep : Guarded (ReadStep L img) Undisturbed s .step (stepped L r s) :=
            ⟨hund, .step hr⟩
          have hactive' : (stepped L r s).k.task.currentActiveProcess
              = s.k.task.currentActiveProcess := congrArg Tasking.currentActiveProcess hkept.task
          have hcur' : (stepped L r s).k.page.currentTerminal = s.k.task.currentActiveProcess :=
            (congrArg Paging.currentTerminal hkept.page).trans hcur
          obtain ⟨n, s', hrun, hret⟩ := ih (readInv_step (L := L) h hr hund)
            (Function.update_self ..) hl hn hactive' hcur' (Nat.le_of_lt_succ (hless.trans_le hm))
          exact ⟨n + 1, s', (Run.one hstep).append hrun, hret⟩

/--
**Every reader is given its line.** In every state that undisturbed steps lead to, each
call for a line or more that has returned gave exactly the line its terminal held at the
first Enter typed there since the call, and a newline; what a call does next touches no
other terminal; and a call that has its line returns once it is left running on display.
-/
theorem read_delivers {L : Layout} {img : Image} {k : Kernel} {s : Sys} {as : List ReadAct}
    (h0 : ∀ u, 0 ≤ k.term.curPos u)
    (hrun : Run (Guarded (ReadStep L img) Undisturbed) (Sys.start k) as s) :
    (∀ t, Delivered s t) ∧
      (∀ a s', a.IsRead → Undisturbed s a → ReadStep L img s a s' →
        ∀ u, u ≠ s.k.task.currentActiveProcess → Untouched u s.k s'.k) ∧
      ∀ t, s.armed t = true → bufSize ≤ s.asked t → s.k.task.currentActiveProcess = t →
        s.k.page.currentTerminal = t →
        ∃ n s', Run (Guarded (ReadStep L img) Undisturbed) s (List.replicate n .step) s' ∧
          ∃ i buf, s'.reader t = some (.returned i buf) := by
  have hinv : ReadInv s := Run.invariant (I := ReadInv) (readInv_start h0)
    (fun _ _ _ hs hi => readInv_preserved hi hs.1 hs.2) hrun
  refine ⟨hinv.delivered, ?_, ?_⟩
  · intro a s' hread hc hs u hu
    cases hs with
    | key => cases hread
    | tick _ => cases hread
    | proc _ _ => cases hread
    | write _ => cases hread
    | call _ => exact ⟨.refl u _, rfl, rfl, rfl, rfl⟩
    | step hr => exact (termReadStep_kept (hinv.reader _ _ hr) (hc _ hr)).others u hu
  · intro t harmed hn hactive hcur
    simp only [Sys.armed, Sys.inCall, Bool.and_eq_true, Option.any_eq_true,
      Option.isSome_iff_exists] at harmed
    obtain ⟨⟨r, hr, _⟩, ℓ, hl⟩ := harmed
    exact armed_returns img _ hinv hr hl hn hactive hcur (Nat.le_refl _)

/-! ## Typing ahead -/

/-- Terminal `t` is on display and running, its line has `p` bytes and no modifier is down. -/
structure AtPrompt (k : Kernel) (t : Term) (p : Nat) : Prop where
  current : k.page.currentTerminal = t
  active : k.task.currentActiveProcess = t
  pos : k.term.curPos t = p
  size : k.term.curSize t = p
  ctrl : k.keys.ctrlFlag t = false
  shiftR : k.keys.shiftRFlag t = false
  shiftL : k.keys.shiftLFlag t = false
  caps : k.keys.capsLockFlag = false

/-- A letter typed at the end of a line goes there. -/
theorem AtPrompt.letter {L : Layout} {k : Kernel} {t : Term} {p : Nat} (h : AtPrompt k t p)
    (hp : p < 127) {inp : Byte} {b : Byte} (he : EditKey inp k) (h50 : inp.toNat ≠ 0x50)
    (h48 : inp.toNat ≠ 0x48) (hch : BitVec.ofNat 8 (scan2Ascii.getD inp.toNat 0) = b)
    (hplain : b ≠ 0x0A ∧ b ≠ 0x0D ∧ b ≠ 0x08) :
    AtPrompt (keyHandler L inp k) t (p + 1) ∧
      (∀ j, (keyHandler L inp k).line t j = if j = p then b else k.line t j) ∧
      (∀ u, u ≠ t → RowKept u k (keyHandler L inp k)) ∧
      (keyHandler L inp k).term.waitForNl = k.term.waitForNl := by
  have hkey : keyHandler L inp k = termInsert L b k := by
    rw [keyHandler_prints he h50 h48]
    unfold keyChar
    dsimp only
    rw [h.current, h.ctrl, h.shiftR, h.shiftL, h.caps, hch]
    rw [if_neg (by simp), if_neg (by simp), if_neg (by simp)]
    unfold termPutc
    dsimp only
    rw [if_neg (not_or.mpr ⟨hplain.1, hplain.2.1⟩), if_neg hplain.2.2, if_pos]
    rw [h.current, h.pos, h.size]
    simp only [bufSize]
    omega
  obtain ⟨h1, h2, h3, h4, h5, h6, h7⟩ := termInsert_end (L := L) b k
    (by rw [h.current, h.pos, h.size])
  rw [h.current] at h1 h2 h3
  rw [hkey]
  refine ⟨⟨by rw [h5]; exact h.current, by rw [h7]; exact h.active, ?_, ?_,
    by rw [h6]; exact h.ctrl, by rw [h6]; exact h.shiftR, by rw [h6]; exact h.shiftL,
    by rw [h6]; exact h.caps⟩, ?_, ?_, h4⟩
  · rw [h2, Function.update_self, h.pos]; omega
  · rw [h3, Function.update_self, h.size]; omega
  · intro j
    rw [← h.pos, ← line_setLine]
    exact congrFun h1 _
  · intro u hu
    rw [h.pos] at h1
    exact (rowKept_setLine k hu (i := p) ⟨by omega, by simp only [bufSize]; omega⟩ b).trans
      (.of_buffer h1 u)

theorem AtPrompt.enter {L : Layout} {k : Kernel} {t : Term} {p : Nat} (h : AtPrompt k t p)
    (hp : p < 128) :
    AtPrompt (keyHandler L enterKey k) t 0 ∧
      (∀ j, (keyHandler L enterKey k).line t j = if j = p then 0x0A else k.line t j) ∧
      (∀ u, u ≠ t → RowKept u k (keyHandler L enterKey k)) ∧
      (keyHandler L enterKey k).term.waitForNl t = false := by
  rw [keyHandler_enter]
  have hline := termEnter_line k
  rw [h.current, h.size] at hline
  refine ⟨⟨h.current, h.active, ?_, ?_, h.ctrl, h.shiftR, h.shiftL, h.caps⟩, hline, ?_, ?_⟩
  · rw [termEnter_curPos, h.current, Function.update_self]; rfl
  · simp [termEnter, h.current]
  · intro u hu
    refine termEnter_rows ?_ (by rw [h.current]; exact hu)
    rw [h.current, h.size]
    exact ⟨by omega, by simp only [bufSize]; omega⟩
  · rw [termEnter_wait, h.current, Function.update_self]

/-- `n` steps of a call of terminal `t`, uninterrupted. -/
def readSteps (L : Layout) (t : Term) : Nat → Reader × Kernel → Reader × Kernel
  | 0, x => x
  | n + 1, x => readSteps L t n (termReadStep L t x.1 x.2)

theorem termReadStep_task (L : Layout) (t : Term) (r : Reader) (k : Kernel) :
    (termReadStep L t r k).2.task = k.task := by
  cases r with
  | spinning n buf =>
      have hx := Shows.setX (k := k) rfl startPos
      have hput := hx.trans (Shows.putc (L := L) hx.current 0x0A)
      unfold termReadStep
      dsimp only
      split
      · rfl
      · exact hput.task
  | loading n i buf => unfold termReadStep; dsimp only; split <;> rfl
  | clearing n i buf => unfold termReadStep; dsimp only; split <;> rfl
  | returned i buf => rfl

theorem run_readSteps {L : Layout} (img : Image) {t : Term} : ∀ (n : Nat) {s : Sys} {r : Reader},
    s.k.task.currentActiveProcess = t → s.reader t = some r →
    Run (ReadStep L img) s (List.replicate n .step)
      { s with
        k := (readSteps L t n (r, s.k)).2
        reader := Function.update s.reader t (some (readSteps L t n (r, s.k)).1) } := by
  intro n
  induction n with
  | zero =>
      intro s r _ hr
      have hs : ({ s with reader := Function.update s.reader t (some r) } : Sys) = s := by
        rw [← hr, Function.update_eq_self]
      show Run _ s [] { s with reader := Function.update s.reader t (some r) }
      rw [hs]
      exact .nil
  | succ n ih =>
      intro s r hactive hr
      subst hactive
      have hrest := ih (s := stepped L r s)
        (congrArg Tasking.currentActiveProcess (termReadStep_task L _ r s.k))
        (Function.update_self ..)
      simp only [stepped, Function.update_idem] at hrest
      exact (Run.one (ReadStep.step hr)).append hrest

/-- A call that finds the row on display empty takes three steps. -/
theorem readSteps_empty {L : Layout} {k : Kernel} {t : Term} {n : Int} (hn : 0 < n) (buf : Mem)
    (hw : k.term.waitForNl t = false) (h0 : k.line k.page.currentTerminal 0 = 0) :
    ∃ k' buf', readSteps L t 3 (.spinning n buf, k) = (.returned 1 buf', k') ∧
      (List.range 1).map buf' = [0x0A] := by
  have hx := Shows.setX (k := k) rfl startPos
  have hput := hx.trans (Shows.putc (L := L) hx.current 0x0A)
  obtain ⟨k1, hk1⟩ : ∃ k1, k1 = putc L 0x0A (setX startPos k) := ⟨_, rfl⟩
  rw [← hk1] at hput
  have h0' : k1.line k1.page.currentTerminal 0 = 0 := by
    rw [hput.current, RowKept.of_buffer hput.buffer _ 0 ⟨by decide, by decide⟩]
    exact h0
  have e1 : termReadStep L t (.spinning n buf) k = (.loading n 0 buf, k1) := by
    simp [termReadStep, hw, hk1]
  have e2 : termReadStep L t (.loading n 0 buf) k1 = (.clearing n 0 (store buf 0 0), k1) := by
    simp only [termReadStep, Int.natCast_zero, if_pos hn, h0']
  have e3 : termReadStep L t (.clearing n 0 (store buf 0 0)) k1
      = (.returned 1 (store (store (store buf 0 0) 0 0x0A) 1 0),
          k1.setLine k1.page.currentTerminal 0 0) := by
    simp only [termReadStep, store_self, or_true, if_true]
    rfl
  exact ⟨_, _, by simp only [readSteps, e1, e2, e3]; rfl, rfl⟩

/-- A tick moves on to the next terminal. -/
theorem nextTask_active {L : Layout} {img : Image} {loc : ExecLocals} {esp : Nat} {k k' : Kernel}
    (h : nextTask L img loc esp k = some k') :
    k'.task.currentActiveProcess = k.task.currentActiveProcess + 1 := by
  obtain ⟨m, ha, _, hv⟩ := tick_move h
  have hactive := congrArg ProcView.active hv
  cases m with
  | resume => exact hactive
  | launch n => exact hactive
  | refuse => cases ha
  | exec n => cases ha
  | relaunch n => cases ha
  | leave => cases ha

/-- Three ticks after boot, terminal `0` is on display and running, with an empty line. -/
theorem boot_prompt : ∃ k,
    Run (Guarded (ReadStep someLayout shellDisk) Undisturbed) (Sys.start .zero)
        [.proc (.tick someLocals 0), .proc (.tick someLocals 0), .proc (.tick someLocals 0)]
        (Sys.start k) ∧ AtPrompt k 0 0 ∧ ∀ u i, k.line u i = 0 := by
  have s0 := starting_zero
  obtain ⟨k1, h1⟩ := starting_tick_runs (L := someLayout) shellDisk_loads s0 someLocals 0
  have s1 := starting_tick s0 (by decide) h1
  obtain ⟨k2, h2⟩ := starting_tick_runs (L := someLayout) shellDisk_loads s1 someLocals 0
  have s2 := starting_tick s1 (by decide) h2
  obtain ⟨k3, h3⟩ := starting_tick_runs (L := someLayout) shellDisk_loads s2 someLocals 0
  have htick : ∀ {k k' : Kernel}, nextTask someLayout shellDisk someLocals 0 k = some k' →
      Guarded (ReadStep someLayout shellDisk) Undisturbed (Sys.start k) (.proc (.tick someLocals 0))
        (Sys.start k') := fun h => ⟨trivial, .tick h⟩
  have r1 := procStep_resched (a := .tick someLocals 0) h1
  have r2 := procStep_resched (a := .tick someLocals 0) h2
  have r3 := procStep_resched (a := .tick someLocals 0) h3
  have hterm := (r1.termKept.trans r2.termKept).trans r3.termKept
  have hkeys : k3.keys = Kernel.zero.keys := r3.keys.trans (r2.keys.trans r1.keys)
  refine ⟨k3, ((Run.one (htick h1)).append (Run.one (htick h2))).append (Run.one (htick h3)), ?_⟩
  refine ⟨⟨?_, ?_, by rw [hterm.curPos]; rfl, by rw [hterm.curSize]; rfl, by rw [hkeys]; rfl,
    by rw [hkeys]; rfl, by rw [hkeys]; rfl, by rw [hkeys]; rfl⟩, ?_⟩
  · rw [r3.currentTerminal, r2.currentTerminal, r1.currentTerminal]
    rfl
  · rw [nextTask_active h3, nextTask_active h2, nextTask_active h1]
    rfl
  · intro u i
    unfold Kernel.line
    rw [hterm.buffer]
    rfl

theorem AtPrompt.call {s : Sys} {t : Term} {p : Nat} (h : AtPrompt s.k t p) (n : Int) (buf : Mem) :
    AtPrompt (called n buf s).k t p :=
  ⟨h.current, h.active, h.pos, h.size, h.ctrl, h.shiftR, h.shiftL, h.caps⟩

theorem editKey_letter (k : Kernel) : EditKey 0x1E k := by
  unfold EditKey
  exact ⟨by decide, .inr (.inr ⟨by decide, by decide, by decide, fun h => absurd h.1 (by decide)⟩)⟩

theorem typed_line {L : Layout} {inp : Byte} (h : inp ≠ enterKey) (s : Sys) :
    (typed L inp s).line = s.line := if_neg (fun he => h he.1)

/-- A call on an empty line of terminal `0`, then an `a`. -/
theorem called_typed {L : Layout} {k : Kernel} (h : AtPrompt k 0 0) (buf : Mem) :
    let s := typed L 0x1E (called 128 buf (Sys.start k))
    AtPrompt s.k 0 1 ∧ s.k.line 0 0 = 0x61 ∧ (∀ u, u ≠ 0 → RowKept u k s.k) ∧
      s.reader = Function.update (fun _ => none) 0 (some (.spinning 128 buf)) ∧
      s.asked 0 = 128 ∧ s.line = fun _ => none := by
  intro s
  have hcall := AtPrompt.call (s := Sys.start k) h 128 buf
  obtain ⟨h1, h2, h3, _⟩ := hcall.letter (L := L) (by decide) (editKey_letter _)
    (by decide) (by decide) (b := 0x61) (by decide) (by decide)
  have hactive : (Sys.start k).k.task.currentActiveProcess = 0 := h.active
  have hline : (called 128 buf (Sys.start k)).line = fun _ => none := by
    show Function.update (fun _ => none) _ none = _
    exact Function.update_eq_self ..
  refine ⟨h1, ?_, ?_, ?_, ?_, ?_⟩
  · exact (h2 0).trans (if_pos rfl)
  · exact fun u hu => h3 u hu
  · show Function.update (fun _ => none) _ _ = _
    rw [hactive]
    rfl
  · show Function.update (fun _ => (0 : Int)) _ 128 0 = 128
    rw [hactive, Function.update_self]
  · exact (typed_line (by decide) _).trans hline

/-- Then Enter: the line is recorded, and the row holds it. -/
theorem called_entered {L : Layout} {k : Kernel} (h : AtPrompt k 0 0) (buf : Mem) :
    let s := typed L enterKey (typed L 0x1E (called 128 buf (Sys.start k)))
    AtPrompt s.k 0 0 ∧ s.k.line 0 1 = 0x0A ∧ (∀ u, u ≠ 0 → RowKept u k s.k) ∧
      s.k.term.waitForNl 0 = false ∧
      s.reader = Function.update (fun _ => none) 0 (some (.spinning 128 buf)) ∧
      s.asked 0 = 128 ∧ s.line 0 = some [0x61] := by
  obtain ⟨hp, hbyte, hrows, hreader, hasked, hline⟩ := called_typed (L := L) h buf
  generalize typed L 0x1E (called 128 buf (Sys.start k)) = s at hp hbyte hrows hreader hasked hline
  obtain ⟨h1, h2, h3, h4⟩ := hp.enter (L := L) (by decide)
  refine ⟨h1, ?_, fun u hu => (hrows u hu).trans (h3 u hu), h4, hreader, hasked, ?_⟩
  · exact (h2 1).trans (if_pos (by decide))
  · have hwait : s.waiting 0 = true := by
      simp [Sys.waiting, Sys.inCall, hreader, hline, Reader.active]
    have hheld : heldLine s.k 0 = [0x61] := by
      unfold heldLine
      rw [hp.size]
      show [s.k.line 0 (0 : Nat)] = [0x61]
      rw [Int.natCast_zero, hbyte]
    show (if enterKey = enterKey ∧ s.waiting s.k.page.currentTerminal then
      Function.update s.line s.k.page.currentTerminal
        (some (heldLine s.k s.k.page.currentTerminal)) else s.line) 0 = _
    rw [hp.current, if_pos ⟨rfl, hwait⟩, Function.update_self, hheld]

/-- From boot, a process of terminal `0` reads, and `a` and Enter are typed there. -/
theorem read_delivers_typed : ∃ s,
    Run (Guarded (ReadStep someLayout shellDisk) Undisturbed) (Sys.start .zero)
        ([.proc (.tick someLocals 0), .proc (.tick someLocals 0), .proc (.tick someLocals 0)] ++
          [.call 128 (fun _ => 0), .key 0x1E, .key enterKey]) s ∧
      (s.armed 0 = true ∧ bufSize ≤ s.asked 0 ∧ s.line 0 = some [0x61]) ∧
      (∀ t, Delivered s t) ∧
      (∀ a s', a.IsRead → Undisturbed s a → ReadStep someLayout shellDisk s a s' →
        ∀ u, u ≠ s.k.task.currentActiveProcess → Untouched u s.k s'.k) ∧
      ∀ t, s.armed t = true → bufSize ≤ s.asked t → s.k.task.currentActiveProcess = t →
        s.k.page.currentTerminal = t →
        ∃ n s', Run (Guarded (ReadStep someLayout shellDisk) Undisturbed) s
            (List.replicate n .step) s' ∧ ∃ i buf, s'.reader t = some (.returned i buf) := by
  obtain ⟨k, hboot, hp, _⟩ := boot_prompt
  obtain ⟨h1, h2, _, _, _, h6⟩ := called_typed (L := someLayout) hp (fun _ => 0)
  obtain ⟨_, _, _, _, e5, e6, e7⟩ := called_entered (L := someLayout) hp (fun _ => 0)
  have hcall : Guarded (ReadStep someLayout shellDisk) Undisturbed (Sys.start k)
      (.call 128 (fun _ => 0)) (called 128 (fun _ => 0) (Sys.start k)) := ⟨trivial, .call rfl⟩
  have hline : (called 128 (fun _ => 0) (Sys.start k)).line = fun _ => none :=
    (typed_line (L := someLayout) (by decide) _).symm.trans h6
  -- nobody is past an Enter before this one
  have hnone : ∀ {s : Sys}, (s.line = fun _ => none) → ∀ t, ¬ s.armed t = true := by
    intro s hl t
    simp [Sys.armed, hl]
  have hkey : Guarded (ReadStep someLayout shellDisk) Undisturbed
      (called 128 (fun _ => 0) (Sys.start k)) (.key 0x1E) _ :=
    ⟨⟨fun h => absurd h (by decide), fun h => absurd h (hnone hline _),
      fun ⟨t, _, h⟩ => absurd h (hnone hline t)⟩, .key⟩
  have henter : Guarded (ReadStep someLayout shellDisk) Undisturbed
      (typed someLayout 0x1E (called 128 (fun _ => 0) (Sys.start k))) (.key enterKey)
      (typed someLayout enterKey
        (typed someLayout 0x1E (called 128 (fun _ => 0) (Sys.start k)))) := by
    refine ⟨⟨fun _ _ _ => ?_, fun h => absurd h (hnone h6 _),
      fun ⟨t, _, h⟩ => absurd h (hnone h6 t)⟩, .key⟩
    rw [h1.current]
    refine ⟨by rw [h1.size]; decide, ?_, ?_⟩
    · intro j hj
      rw [h1.size] at hj
      obtain rfl : j = 0 := by omega
      rw [Int.natCast_zero, h2]
      unfold IsEnd
      decide
    · intro hneg
      rw [h1.size] at hneg
      exact absurd hneg (by decide)
  have hrun := hboot.append (((Run.one hcall).append (Run.one hkey)).append (Run.one henter))
  refine ⟨_, hrun, ⟨?_, by rw [e6]; decide, e7⟩, read_delivers (fun _ => Int.le_refl 0) hrun⟩
  exact armed_of (r := .spinning 128 (fun _ => 0)) (by rw [e5]; exact Function.update_self ..) rfl
    (by rw [e7]; rfl)

/-- Then terminal `1` is put on display. -/
theorem called_switched {L : Layout} {k : Kernel} (h : AtPrompt k 0 0)
    (hempty : ∀ u i, k.line u i = 0) (buf : Mem) :
    let s := typed L 0x3C (typed L 0x38 (typed L enterKey (typed L 0x1E
      (called 128 buf (Sys.start k)))))
    s.k.page.currentTerminal = 1 ∧ s.k.task.currentActiveProcess = 0 ∧ s.k.line 1 0 = 0 ∧
      s.k.term.waitForNl 0 = false ∧ s.reader 0 = some (.spinning 128 buf) ∧
      s.asked 0 = 128 ∧ s.line 0 = some [0x61] := by
  obtain ⟨e1, _, e3, e4, e5, e6, e7⟩ := called_entered (L := L) h buf
  generalize typed L enterKey (typed L 0x1E (called 128 buf (Sys.start k))) = s
    at e1 e3 e4 e5 e6 e7
  have hk : (typed L 0x3C (typed L 0x38 s)).k
      = switchTo L 1 { s.k with keys := { s.k.keys with altFlag := true } } := by
    show keyHandler L 0x3C (keyHandler L 0x38 s.k) = _
    rw [keyHandler_alt, keyHandler_altF2 _ rfl]
  obtain ⟨hshown, hactive⟩ := switchTo_shown L 1
    { s.k with keys := { s.k.keys with altFlag := true } }
  have hterm := switchTo_term L 1 { s.k with keys := { s.k.keys with altFlag := true } }
  rw [← hk] at hshown hactive hterm
  refine ⟨hshown, hactive.trans e1.active, ?_, by rw [hterm]; exact e4, ?_, e6, ?_⟩
  · refine Eq.trans ?_ ((e3 1 (by decide) 0 ⟨by decide, by decide⟩).trans (hempty 1 0))
    unfold Kernel.line
    rw [hterm]
  · show s.reader 0 = _
    rw [e5, Function.update_self]
  · rw [typed_line (by decide), typed_line (by decide)]
    exact e7

/--
The same, but with terminal `1` put on display between the Enter and the reader's next
step: the reader takes the empty line of terminal `1`.
-/
theorem switching_takes_other_line : ∃ s,
    Run (ReadStep someLayout shellDisk) (Sys.start .zero)
        ([.proc (.tick someLocals 0), .proc (.tick someLocals 0), .proc (.tick someLocals 0)] ++
          ([.call 128 (fun _ => 0), .key 0x1E, .key enterKey, .key 0x38, .key 0x3C] ++
            List.replicate 3 .step)) s ∧
      s.asked 0 = 128 ∧ s.line 0 = some [0x61] ∧
      (∃ buf, s.reader 0 = some (.returned 1 buf) ∧ (List.range 1).map buf = [0x0A]) ∧
      ¬ Delivered s 0 := by
  obtain ⟨k, hboot, hp, hempty⟩ := boot_prompt
  have hboot : Run (ReadStep someLayout shellDisk) _ _ _ := hboot.mono (fun _ _ _ h => h.2)
  obtain ⟨hshown, hactive, hbyte, hwait, hreader, hasked, hline⟩ :=
    called_switched (L := someLayout) hp hempty (fun _ => 0)
  have hkeys : Run (ReadStep someLayout shellDisk) (Sys.start k)
      [.call 128 (fun _ => 0), .key 0x1E, .key enterKey, .key 0x38, .key 0x3C]
      (typed someLayout 0x3C (typed someLayout 0x38 (typed someLayout enterKey
        (typed someLayout 0x1E (called 128 (fun _ => 0) (Sys.start k)))))) :=
    ((((Run.one (.call rfl)).append (Run.one .key)).append (Run.one .key)).append
      (Run.one .key)).append (Run.one .key)
  generalize typed someLayout 0x3C (typed someLayout 0x38 (typed someLayout enterKey
    (typed someLayout 0x1E (called 128 (fun _ => 0) (Sys.start k))))) = s
    at hkeys hshown hactive hbyte hwait hreader hasked hline
  obtain ⟨k', buf, hread, hbytes⟩ := readSteps_empty (L := someLayout) (t := 0) (n := 128)
    (by decide) (fun _ => 0) hwait (by rw [hshown]; exact hbyte)
  have hsteps := run_readSteps (L := someLayout) shellDisk 3 hactive hreader
  rw [hread] at hsteps
  have hret : Function.update s.reader 0 (some (.returned 1 buf)) 0 = some (.returned 1 buf) :=
    Function.update_self ..
  refine ⟨_, hboot.append (hkeys.append hsteps), hasked, hline, ⟨buf, hret, hbytes⟩, ?_⟩
  intro hd
  obtain ⟨ℓ, hℓ, hgiven⟩ := hd 1 buf hret (by
    show (bufSize : Int) ≤ s.asked 0
    rw [hasked]
    decide)
  have hℓ : ℓ = [0x61] := Option.some.inj (hℓ.symm.trans hline)
  rw [hbytes, hℓ] at hgiven
  exact absurd hgiven (by decide)

end Zbiggie.Proof
