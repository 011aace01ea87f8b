import Zbiggie.Proof.Drawing

/-!
# Who writes a line

A terminal's line is a row of `buffer` and its two counters. Only the keyboard
edits it, and only the reader of a finished line clears it again; everything that
draws on a screen leaves it alone.

Here the keyboard's routines are gone through: which of them store into a line
(`EditKey`), what they store and where (`Inserted`, `Erased`), and when that is in the
row they mean to store into (`KeyInRow`), for no routine checks that an index lies in
its row.
-/

namespace Zbiggie.Proof

open Zbiggie Machine

/-! ## What a key does -/

/-- The scancode of Enter, and of Backspace. -/
def enterKey : Byte := 0x1C
def backspaceKey : Byte := 0x0E

/--
Keys that edit the line of the foreground terminal: the history, and whatever
prints, less the two arrows, the modifiers and the switch of terminals.
-/
def EditKey (inp : Byte) (k : Kernel) : Prop :=
  inp.toNat ∉ notPrintableArray ∧
    (inp.toNat = 0x50 ∨ inp.toNat = 0x48 ∨
      (inp.toNat ∉ [0x4B, 0x4D, 0x38, 0x1D, 0x2A, 0x36, 0x3A] ∧ 1 < inp.toNat ∧ inp.toNat < 123 ∧
        ¬ (inp.toNat ∈ [0x3B, 0x3C, 0x3D] ∧ k.keys.altFlag = true)))

/-- What `key_handler` comes to. -/
inductive KeyEffect (L : Layout) (inp : Byte) (k : Kernel) : Kernel → Prop where
  | flags (keys : Keyboard) : ¬ EditKey inp k → KeyEffect L inp k { k with keys := keys }
  | left : ¬ EditKey inp k → KeyEffect L inp k (termMoveLeft k)
  | right : ¬ EditKey inp k → KeyEffect L inp k (termMoveRight k)
  | switch (u : Term) : ¬ EditKey inp k → KeyEffect L inp k (switchTo L u k)
  | down : EditKey inp k → inp = 0x50 → KeyEffect L inp k (downHist L k)
  | up : EditKey inp k → inp = 0x48 → KeyEffect L inp k (upHist L k)
  | clear : EditKey inp k → inp ≠ enterKey → KeyEffect L inp k (termInit (termClear L k))
  | enter : EditKey inp k → inp = enterKey → KeyEffect L inp k (termEnter k)
  | backspace : EditKey inp k → inp = backspaceKey → KeyEffect L inp k (termBackspace L k)
  | insert (c : Byte) : EditKey inp k → inp ≠ enterKey →
      k.term.curPos k.page.currentTerminal < bufSize - 1 →
      k.term.curSize k.page.currentTerminal < bufSize - 1 → KeyEffect L inp k (termInsert L c k)
  | full : EditKey inp k → inp ≠ enterKey → KeyEffect L inp k k

/-- A character the tables give for a scancode is a line break only for Enter. -/
def CharOf (c : Nat) (ch : Byte) : Prop :=
  (ch = 0x0A ∨ ch = 0x0D ↔ c = 0x1C) ∧ (ch = 0x08 → c = 0x0E)

instance (c : Nat) (ch : Byte) : Decidable (CharOf c ch) := by unfold CharOf; infer_instance

theorem charOf_plain : ∀ c, c < 123 → CharOf c (BitVec.ofNat 8 (scan2Ascii.getD c 0)) := by decide

theorem charOf_shift : ∀ c, c < 123 → CharOf c (BitVec.ofNat 8 (shift2Ascii.getD c 0)) := by decide

theorem charOf_letter : ∀ c, c < 123 →
    96 < scan2Ascii.getD c 0 ∧ scan2Ascii.getD c 0 < 123 →
    CharOf c (BitVec.ofNat 8 (scan2Ascii.getD c 0 - 32)) := by decide

theorem keyChar_cases (L : Layout) {c : Nat} (hc : c < 123) (k : Kernel) :
    (c ≠ 0x1C ∧ keyChar L c k = termInit (termClear L k)) ∨
      ∃ ch, CharOf c ch ∧ keyChar L c k = termPutc L ch k := by
  unfold keyChar
  dsimp only
  split
  · rename_i h
    refine .inl ⟨?_, rfl⟩
    rintro rfl
    exact absurd h.1 (by decide)
  · split
    · rename_i h
      exact .inr ⟨_, charOf_letter c hc h.1, rfl⟩
    · split
      · exact .inr ⟨_, charOf_shift c hc, rfl⟩
      · exact .inr ⟨_, charOf_plain c hc, rfl⟩

theorem toNat_eq_ofNat {inp : Byte} {n : Nat} (h : inp.toNat = n) : inp = BitVec.ofNat 8 n := by
  rw [← h, BitVec.ofNat_toNat, BitVec.setWidth_eq]

/-- The keys that print. -/
theorem keyChar_effect (L : Layout) {inp : Byte} {k : Kernel} (he : EditKey inp k)
    (hc : inp.toNat < 123) : KeyEffect L inp k (keyChar L inp.toNat k) := by
  have henter : inp.toNat ≠ 0x1C → inp ≠ enterKey := by
    rintro hn rfl
    exact hn rfl
  rcases keyChar_cases L hc k with ⟨hne, h⟩ | ⟨ch, hch, h⟩
  · rw [h]
    exact .clear he (henter hne)
  · rw [h]
    unfold termPutc
    dsimp only
    split
    · rename_i hnl
      exact .enter he (toNat_eq_ofNat (hch.1.mp hnl))
    · rename_i hnl
      have hne : inp ≠ enterKey := henter (fun h => hnl (hch.1.mpr h))
      split
      · rename_i hbs
        exact .backspace he (toNat_eq_ofNat (hch.2 hbs))
      · split
        · rename_i hroom
          exact .insert ch he hne hroom.1 hroom.2
        · exact .full he hne

theorem KeyEffect.ite {L : Layout} {inp : Byte} {k a b : Kernel} {p : Prop} [Decidable p]
    (ha : p → KeyEffect L inp k a) (hb : ¬ p → KeyEffect L inp k b) :
    KeyEffect L inp k (if p then a else b) := by
  split
  · exact ha ‹_›
  · exact hb ‹_›

/-- **The keyboard, case by case.** -/
theorem keyHandler_effect (L : Layout) (inp : Byte) (k : Kernel) :
    KeyEffect L inp k (keyHandler L inp k) := by
  refine .ite (fun h => .flags k.keys (fun he => he.1 h)) ?_
  intro hprint
  refine .ite (fun h => .down ⟨hprint, .inl h⟩ (toNat_eq_ofNat h)) ?_
  intro h50
  refine .ite (fun h => .up ⟨hprint, .inr (.inl h)⟩ (toNat_eq_ofNat h)) ?_
  intro h48
  -- what is left edits only as a key that prints
  have hedit : EditKey inp k →
      inp.toNat ∉ [0x4B, 0x4D, 0x38, 0x1D, 0x2A, 0x36, 0x3A] ∧ 1 < inp.toNat ∧ inp.toNat < 123 ∧
        ¬ (inp.toNat ∈ [0x3B, 0x3C, 0x3D] ∧ k.keys.altFlag = true) := by
    rintro ⟨_, h | h | h⟩
    · exact absurd h h50
    · exact absurd h h48
    · exact h
  have hmod : ∀ {n}, n ∈ [0x4B, 0x4D, 0x38, 0x1D, 0x2A, 0x36, 0x3A] → inp.toNat = n →
      ¬ EditKey inp k := fun hn h he => (hedit he).1 (h ▸ hn)
  have hhigh : ∀ {n}, 123 ≤ n → inp.toNat = n → ¬ EditKey inp k := by
    intro n hn h he
    have := (hedit he).2.2.1
    omega
  have hswitch : ∀ {n}, n ∈ [0x3B, 0x3C, 0x3D] → inp.toNat = n ∧ k.keys.altFlag = true →
      ¬ EditKey inp k := fun hn h he => (hedit he).2.2.2 ⟨h.1 ▸ hn, h.2⟩
  refine .ite (fun h => .left (hmod (by decide) h)) ?_
  intro h4B
  refine .ite (fun h => .right (hmod (by decide) h)) ?_
  intro h4D
  refine .ite (fun h => .flags _ (hmod (by decide) h)) ?_
  intro h38
  refine .ite (fun h => .flags _ (hmod (by decide) h)) ?_
  intro h1D
  refine .ite (fun h => .flags _ (hmod (by decide) h)) ?_
  intro h2A
  refine .ite (fun h => .flags _ (hmod (by decide) h)) ?_
  intro h36
  refine .ite (fun h => .flags _ (hmod (by decide) h)) ?_
  intro h3A
  refine .ite (fun h => .flags _ (hhigh (by decide) h)) fun _ => ?_
  refine .ite (fun h => .flags _ (hhigh (by decide) h)) fun _ => ?_
  refine .ite (fun h => .flags _ (hhigh (by decide) h)) fun _ => ?_
  refine .ite (fun h => .flags _ (hhigh (by decide) h)) fun _ => ?_
  refine .ite ?_ fun hrange => .flags k.keys (fun he => hrange ⟨(hedit he).2.1, (hedit he).2.2.1⟩)
  intro hrange
  refine .ite (fun h => .switch 0 (hswitch (by decide) h)) ?_
  intro h3B
  refine .ite (fun h => .switch 1 (hswitch (by decide) h)) ?_
  intro h3C
  refine .ite (fun h => .switch 2 (hswitch (by decide) h)) ?_
  intro h3D
  have hplain : inp.toNat ∉ [0x4B, 0x4D, 0x38, 0x1D, 0x2A, 0x36, 0x3A] := by
    simp [h4B, h4D, h38, h1D, h2A, h36, h3A]
  refine keyChar_effect L ⟨hprint, .inr (.inr ⟨hplain, hrange.1, hrange.2, ?_⟩)⟩ hrange.2
  rintro ⟨hm, ha⟩
  simp only [List.mem_cons, List.not_mem_nil, or_false] at hm
  rcases hm with h | h | h
  · exact h3B ⟨h, ha⟩
  · exact h3C ⟨h, ha⟩
  · exact h3D ⟨h, ha⟩

/-! ## Rows -/

/-- Index `i` is inside a row. -/
def InRow (i : Int) : Prop := 0 ≤ i ∧ i < bufSize

/-- Row `u` was not written to. -/
def RowKept (u : Term) (k k' : Kernel) : Prop := ∀ j, InRow j → k'.line u j = k.line u j

theorem RowKept.refl (u : Term) (k : Kernel) : RowKept u k k := fun _ _ => rfl

theorem RowKept.trans {u : Term} {k k' k'' : Kernel} (h : RowKept u k k') (h' : RowKept u k' k'') :
    RowKept u k k'' := fun j hj => (h' j hj).trans (h j hj)

theorem RowKept.of_buffer {k k' : Kernel} (h : k'.term.buffer = k.term.buffer) (u : Term) :
    RowKept u k k' := by
  intro j _
  unfold Kernel.line
  rw [h]

theorem line_setLine (k : Kernel) (t : Term) (i j : Int) (b : Byte) :
    (k.setLine t i b).line t j = if j = i then b else k.line t j := by
  unfold Kernel.setLine Kernel.line Kernel.lineAddr
  by_cases h : j = i
  · simp [h]
  · rw [if_neg h]
    exact Function.update_of_ne (fun he => h (by omega)) _ _

/-- Rows do not overlap: what is kept outside one of them is kept in the others. -/
theorem rowKept_of_line {k k' : Kernel} {t u : Term} (hu : u ≠ t)
    (h : ∀ i, ¬ InRow i → k'.line t i = k.line t i) : RowKept u k k' := by
  intro j hj
  have hne : u.val ≠ t.val := fun he => hu (Fin.ext he)
  have haddr : Kernel.lineAddr u j =
      Kernel.lineAddr t (bufSize * ((u : Nat) - (t : Nat) : Int) + j) := by
    unfold Kernel.lineAddr
    simp only [bufSize]
    omega
  have hout : ¬ InRow (bufSize * ((u : Nat) - (t : Nat) : Int) + j) := by
    unfold InRow at hj ⊢
    simp only [bufSize] at hj ⊢
    omega
  have hkept := h _ hout
  unfold Kernel.line at hkept ⊢
  rw [haddr]
  exact hkept

/-- A store inside a row is a store into no other. -/
theorem rowKept_setLine (k : Kernel) {t u : Term} (hu : u ≠ t) {i : Int} (hi : InRow i) (b : Byte) :
    RowKept u k (k.setLine t i b) := by
  refine rowKept_of_line hu ?_
  intro j hj
  rw [line_setLine, if_neg]
  rintro rfl
  exact hj hi

/-- The counters and flags a key leaves: no reader is woken, no position turns negative. -/
structure Edited (k k' : Kernel) : Prop where
  wait : k'.term.waitForNl = k.term.waitForNl
  pos : (∀ u, 0 ≤ k.term.curPos u) → ∀ u, 0 ≤ k'.term.curPos u

theorem Edited.trans {k k' k'' : Kernel} (h : Edited k k') (h' : Edited k' k'') : Edited k k'' :=
  ⟨h'.wait.trans h.wait, fun h0 => h'.pos (h.pos h0)⟩

/-- A position that is set is set to no negative number. -/
theorem Edited.of_update {k k' : Kernel} {t : Term} {n : Int}
    (hw : k'.term.waitForNl = k.term.waitForNl)
    (hp : k'.term.curPos = Function.update k.term.curPos t n) (hn : 0 ≤ k.term.curPos t → 0 ≤ n) :
    Edited k k' := by
  refine ⟨hw, ?_⟩
  intro h u
  rw [hp]
  by_cases hu : u = t
  · subst hu; rw [Function.update_self]; exact hn (h u)
  · rw [Function.update_of_ne hu]; exact h u

theorem Shows.edited {t : Term} {k k' : Kernel} (h : Shows t k k') : Edited k k' :=
  ⟨h.waitForNl, fun h0 u => by rw [h.curPos]; exact h0 u⟩

/-! ## The line editor -/

section Editor

variable {L : Layout} {k : Kernel} {t : Term}

/-- The position moved, and nothing else of the line. -/
structure Moved (p : Int) (k k' : Kernel) (t : Term) : Prop where
  buffer : k'.term.buffer = k.term.buffer
  wait : k'.term.waitForNl = k.term.waitForNl
  curSize : k'.term.curSize = k.term.curSize
  curPos : k'.term.curPos = Function.update k.term.curPos t p

theorem Moved.edited {p : Int} {k k' : Kernel} (h : Moved p k k' t)
    (hp : 0 ≤ k.term.curPos t → 0 ≤ p) : Edited k k' :=
  .of_update h.wait h.curPos hp

/-- Where `term_move_left` leaves the position. -/
def leftPos (k : Kernel) (t : Term) : Int :=
  if k.term.curPos t > 0 ∧ pastWrite k t then k.term.curPos t - 1 else k.term.curPos t

/-- And `term_move_right`. -/
def rightPos (k : Kernel) (t : Term) : Int :=
  if k.term.curPos t < k.term.curSize t then k.term.curPos t + 1 else k.term.curPos t

theorem leftPos_nonneg (h : 0 ≤ k.term.curPos t) : 0 ≤ leftPos k t := by
  unfold leftPos
  split <;> omega

theorem rightPos_nonneg (h : 0 ≤ k.term.curPos t) : 0 ≤ rightPos k t := by
  unfold rightPos
  split <;> omega

theorem termMoveLeft_spec (k : Kernel) (hcur : k.page.currentTerminal = t) :
    Moved (leftPos k t) k (termMoveLeft k) t := by
  have hmove := Shows.moveLeft hcur
  unfold termMoveLeft leftPos
  dsimp only
  rw [hcur]
  split
  · refine ⟨hmove.buffer, hmove.waitForNl, hmove.curSize, ?_⟩
    rw [← hmove.curPos]
    rfl
  · exact ⟨rfl, rfl, rfl, (Function.update_eq_self ..).symm⟩

theorem termMoveRight_spec (k : Kernel) (hcur : k.page.currentTerminal = t) :
    Moved (rightPos k t) k (termMoveRight k) t := by
  have hmove := Shows.moveRight hcur
  unfold termMoveRight rightPos
  dsimp only
  rw [hcur]
  split
  · refine ⟨hmove.buffer, hmove.waitForNl, hmove.curSize, ?_⟩
    rw [← hmove.curPos]
    rfl
  · exact ⟨rfl, rfl, rfl, (Function.update_eq_self ..).symm⟩

theorem switchContext_term (p : Nat) (k : Kernel) : (switchContext p k).term = k.term := rfl

theorem termSwitch_term (k : Kernel) : (termSwitch k).term = k.term := rfl

theorem kmemcpy_term (L : Layout) (dest src : Word) (n : Nat) (k : Kernel) :
    (kmemcpy L dest src n k).term = k.term :=
  forLoop_inv (P := fun _ (k' : Kernel) => k'.term = k.term) rfl n
    (fun _ _ _ h => (kstore_term ..).trans h)

theorem switchTo_term (L : Layout) (u : Term) (k : Kernel) : (switchTo L u k).term = k.term := by
  have hpage : ∀ (k : Kernel) (p : Paging), ({ k with page := p } : Kernel).term = k.term :=
    fun _ _ => rfl
  unfold switchTo
  rw [termSwitch_term]
  unfold switchVideo
  split
  · rfl
  · rw [switchContext_term, kmemcpy_term, hpage, kmemcpy_term]

theorem kmemcpy_task (L : Layout) (dest src : Word) (n : Nat) (k : Kernel) :
    (kmemcpy L dest src n k).task = k.task :=
  forLoop_inv (P := fun _ (k' : Kernel) => k'.task = k.task) rfl n
    (fun _ _ _ h => (kstore_task ..).trans h)

/-- After a switch the terminal is on display, and the same process runs. -/
theorem switchTo_shown (L : Layout) (u : Term) (k : Kernel) :
    (switchTo L u k).page.currentTerminal = u ∧
      (switchTo L u k).task.currentActiveProcess = k.task.currentActiveProcess := by
  have hcontext : ∀ (p : Nat) (k : Kernel),
      (termSwitch (switchContext p k)).page.currentTerminal = k.page.currentTerminal ∧
        (termSwitch (switchContext p k)).task.currentActiveProcess
          = k.task.currentActiveProcess := fun _ _ => ⟨rfl, rfl⟩
  have hpage : ∀ (k : Kernel) (p : Paging), ({ k with page := p } : Kernel).task = k.task :=
    fun _ _ => rfl
  unfold switchTo switchVideo
  split
  · rename_i h
    exact ⟨h, rfl⟩
  · obtain ⟨h1, h2⟩ := hcontext _ (kmemcpy L _ _ offset4K _)
    refine ⟨h1.trans ?_, h2.trans ?_⟩
    · rw [kmemcpy_page]
    · rw [kmemcpy_task, hpage, kmemcpy_task]

theorem termEnter_buffer (k : Kernel) :
    (termEnter k).term.buffer = (k.setLine k.page.currentTerminal
      (k.term.curSize k.page.currentTerminal) 0x0A).term.buffer := by
  simp [termEnter]

theorem termEnter_line (k : Kernel) (j : Int) :
    (termEnter k).line k.page.currentTerminal j
      = if j = k.term.curSize k.page.currentTerminal then 0x0A
        else k.line k.page.currentTerminal j := by
  rw [← line_setLine]
  exact congrFun (termEnter_buffer k) _

theorem termEnter_rows (h : InRow (k.term.curSize k.page.currentTerminal)) {u : Term}
    (hu : u ≠ k.page.currentTerminal) : RowKept u k (termEnter k) :=
  (rowKept_setLine k hu h 0x0A).trans (.of_buffer (termEnter_buffer k) u)

theorem termEnter_wait (k : Kernel) :
    (termEnter k).term.waitForNl
      = Function.update k.term.waitForNl k.page.currentTerminal false := by
  simp [termEnter]

theorem termEnter_curPos (k : Kernel) :
    (termEnter k).term.curPos = Function.update k.term.curPos k.page.currentTerminal 0 := by
  simp [termEnter]

theorem termEnter_pos (k : Kernel) (h : ∀ u, 0 ≤ k.term.curPos u) (u : Term) :
    0 ≤ (termEnter k).term.curPos u := by
  rw [termEnter_curPos]
  by_cases hu : u = k.page.currentTerminal
  · rw [hu, Function.update_self]
  · rw [Function.update_of_ne hu]; exact h u

/-- The row `term_init` has emptied the first `n` bytes of. -/
def blankLine (t : Term) (n : Nat) (k : Kernel) : Kernel :=
  forLoop n (fun i k => k.setLine t (i : Int) 0) k

theorem blankLine_line (t : Term) (n : Nat) (k : Kernel) (i : Int) :
    (blankLine t n k).line t i = if 0 ≤ i ∧ i < n then 0 else k.line t i := by
  revert i
  refine forLoop_inv (P := fun m (k' : Kernel) => ∀ i, k'.line t i =
    if 0 ≤ i ∧ i < (m : Int) then 0 else k.line t i) ?_ n ?_
  · intro i
    rw [if_neg (by omega)]
  · intro m k' _ ih i
    rw [line_setLine]
    by_cases hi : i = m
    · rw [if_pos hi, if_pos (by omega)]
    · rw [if_neg hi, ih]
      by_cases hin : 0 ≤ i ∧ i < (m : Int)
      · rw [if_pos hin, if_pos (by omega)]
      · rw [if_neg hin, if_neg (by omega)]

theorem blankLine_frame {t : Term} (k : Kernel) {n : Nat} (hn : n ≤ bufSize) :
    ((blankLine t n k).term.waitForNl = k.term.waitForNl ∧
        (blankLine t n k).term.curPos = k.term.curPos) ∧
      ∀ u, u ≠ t → RowKept u k (blankLine t n k) := by
  refine ⟨?_, fun u hu => rowKept_of_line hu ?_⟩
  · exact forLoop_inv (P := fun _ (k' : Kernel) =>
      k'.term.waitForNl = k.term.waitForNl ∧ k'.term.curPos = k.term.curPos)
      ⟨rfl, rfl⟩ n (fun _ _ _ h => h)
  · intro i hi
    unfold InRow at hi
    rw [blankLine_line, if_neg (by omega)]

theorem termInit_eq (k : Kernel) :
    termInit k = ((((blankLine k.page.currentTerminal bufSize k).setCurPos
      k.page.currentTerminal 0).setCurSize k.page.currentTerminal 0).setWriteX
        k.page.currentTerminal 0).setWriteY k.page.currentTerminal 0 := by
  unfold termInit blankLine
  rfl

/-- `term_init` empties its own row. -/
theorem termInit_frame (k : Kernel) :
    Edited k (termInit k) ∧ ∀ u, u ≠ k.page.currentTerminal → RowKept u k (termInit k) := by
  have hloop := blankLine_frame (t := k.page.currentTerminal) k (Nat.le_refl bufSize)
  rw [termInit_eq]
  generalize blankLine k.page.currentTerminal bufSize k = k' at hloop ⊢
  refine ⟨.of_update (t := k.page.currentTerminal) (n := 0) ?_ ?_ (fun _ => by omega),
    fun u hu => (hloop.2 u hu).trans (.of_buffer ?_ u)⟩
  · simp [hloop.1.1]
  · simp [hloop.1.2]
  · simp

/-- Neither a line nor a position changed; the sizes may have. -/
structure Unedited (k k' : Kernel) : Prop where
  page : k'.page = k.page
  buffer : k'.term.buffer = k.term.buffer
  curPos : k'.term.curPos = k.term.curPos
  waitForNl : k'.term.waitForNl = k.term.waitForNl

theorem Unedited.refl (k : Kernel) : Unedited k k := ⟨rfl, rfl, rfl, rfl⟩

/-! Backspace has two halves that do not agree on where the line ends. -/

/-- What Backspace takes for the end of the line: the position before it, too. -/
def AtEnd (k : Kernel) (t : Term) : Prop := k.term.curPos t ≥ k.term.curSize t - 1

instance instDecidableAtEnd (k : Kernel) (t : Term) : Decidable (AtEnd k t) :=
  inferInstanceAs (Decidable (k.term.curPos t ≥ k.term.curSize t - 1))

/-- What it stores, and what it makes of the size. -/
def eraseChar (k : Kernel) (t : Term) : Byte := if AtEnd k t then 0 else 0x20

def shrunk (k : Kernel) (t : Term) : Kernel :=
  if AtEnd k t then k.setCurSize t (k.term.curSize t - 1) else k

/-- Where it stores: before the cursor, or at the cursor at the start of the line. -/
def erasePos (k : Kernel) (t : Term) : Int :=
  if k.term.curPos t > 0 then k.term.curPos t - 1 else k.term.curPos t

/-- The branch away from the start. -/
def eraseBack (L : Layout) (t : Term) (bs : Byte) (k : Kernel) : Kernel :=
  let k := if pastWrite k t then moveLeft (putcKb L bs (moveLeft k)) else k
  let k := k.setCurPos t (k.term.curPos t - 1)
  k.setLine t (k.term.curPos t) bs

/-- The branch at the start. -/
def eraseHere (L : Layout) (t : Term) (bs : Byte) (k : Kernel) : Kernel :=
  let k := k.setLine t (k.term.curPos t) bs
  if pastWrite k t then moveLeft (putc L bs k) else k

theorem termBackspace_eq (k : Kernel) (hcur : k.page.currentTerminal = t) :
    termBackspace L k = if (shrunk k t).term.curPos t > 0 then
      eraseBack L t (eraseChar k t) (shrunk k t)
      else eraseHere L t (eraseChar k t) (shrunk k t) := by
  subst hcur
  rfl

/-- One byte stored at `i`, and the position there. -/
structure ErasedAt (bs : Byte) (i : Int) (k k' : Kernel) (t : Term) : Prop where
  page : k'.page = k.page
  wait : k'.term.waitForNl = k.term.waitForNl
  curPos : k'.term.curPos = Function.update k.term.curPos t i
  curSize : k'.term.curSize = k.term.curSize
  line : ∀ j, k'.line t j = if j = i then bs else k.line t j

theorem eraseBack_spec (bs : Byte) (k : Kernel) (hcur : k.page.currentTerminal = t) :
    ErasedAt bs (k.term.curPos t - 1) k (eraseBack L t bs k) t := by
  have hshow : Shows t k (if pastWrite k t then moveLeft (putcKb L bs (moveLeft k)) else k) := by
    have hl := Shows.moveLeft hcur
    have hp := hl.trans (Shows.putcKb (L := L) (hl.current.trans hcur) bs)
    exact .ite (hp.trans (Shows.moveLeft (hp.current.trans hcur))) (.refl t k)
  unfold eraseBack
  dsimp only
  generalize (if pastWrite k t then moveLeft (putcKb L bs (moveLeft k)) else k) = k1 at hshow ⊢
  have hat : (k1.setCurPos t (k1.term.curPos t - 1)).term.curPos t = k.term.curPos t - 1 := by
    simp [hshow.curPos]
  refine ⟨hshow.page, hshow.waitForNl, ?_, hshow.curSize, ?_⟩
  · simp [hshow.curPos]
  · intro i
    rw [hat, line_setLine]
    split
    · rfl
    · exact congrFun hshow.buffer _

theorem eraseHere_spec (bs : Byte) (k : Kernel) (hcur : k.page.currentTerminal = t) :
    ErasedAt bs (k.term.curPos t) k (eraseHere L t bs k) t := by
  obtain ⟨k1, hk1⟩ : ∃ k1, k1 = k.setLine t (k.term.curPos t) bs := ⟨_, rfl⟩
  have hcur1 : k1.page.currentTerminal = t := by
    rw [hk1]
    exact hcur
  have hshow : Shows t k1 (eraseHere L t bs k) := by
    have hp := Shows.putc (L := L) hcur1 bs
    rw [hk1] at hp hcur1 ⊢
    exact .ite (hp.trans (Shows.moveLeft (hp.current.trans hcur1))) (.refl t _)
  refine ⟨?_, ?_, ?_, ?_, ?_⟩
  · rw [hshow.page, hk1]
    rfl
  · rw [hshow.waitForNl, hk1]
    rfl
  · rw [hshow.curPos, hk1, Function.update_eq_self]
    rfl
  · rw [hshow.curSize, hk1]
    rfl
  · intro i
    rw [← line_setLine, ← hk1]
    exact congrFun hshow.buffer _

/-- What Backspace leaves of the variables of the editor. -/
structure Erased (k k' : Kernel) (t : Term) : Prop where
  page : k'.page = k.page
  wait : k'.term.waitForNl = k.term.waitForNl
  curPos : k'.term.curPos = Function.update k.term.curPos t (erasePos k t)
  curSize : k'.term.curSize = if AtEnd k t then
    Function.update k.term.curSize t (k.term.curSize t - 1) else k.term.curSize
  line : ∀ i, k'.line t i = if i = erasePos k t then eraseChar k t else k.line t i

theorem shrunk_size (k : Kernel) (t : Term) : (shrunk k t).term.curSize =
    if AtEnd k t then Function.update k.term.curSize t (k.term.curSize t - 1)
    else k.term.curSize := by
  unfold shrunk
  split
  · rfl
  · rfl

/-- **Backspace** stores one byte: a NUL at what it takes for the end, a blank elsewhere. -/
theorem termBackspace_spec (k : Kernel) (hcur : k.page.currentTerminal = t) :
    Erased k (termBackspace L k) t := by
  have hshrunk : Unedited k (shrunk k t) := by
    unfold shrunk
    split
    · exact ⟨rfl, rfl, rfl, rfl⟩
    · exact .refl k
  have hcur' : (shrunk k t).page.currentTerminal = t :=
    (congrArg Paging.currentTerminal hshrunk.page).trans hcur
  have hat : ErasedAt (eraseChar k t) (erasePos k t) (shrunk k t) (termBackspace L k) t := by
    unfold erasePos
    rw [termBackspace_eq k hcur, ← hshrunk.curPos]
    split
    · exact eraseBack_spec (eraseChar k t) (shrunk k t) hcur'
    · exact eraseHere_spec (eraseChar k t) (shrunk k t) hcur'
  refine ⟨hat.page.trans hshrunk.page, hat.wait.trans hshrunk.waitForNl, ?_,
    hat.curSize.trans (shrunk_size k t), ?_⟩
  · rw [hat.curPos, hshrunk.curPos]
  · intro i
    rw [hat.line, show (shrunk k t).line t i = k.line t i from congrFun hshrunk.buffer _]

/-- At a position in the row, or right behind it, that is in the row. -/
theorem termBackspace_frame (k : Kernel) :
    Edited k (termBackspace L k) ∧
      (0 ≤ k.term.curPos k.page.currentTerminal → k.term.curPos k.page.currentTerminal ≤ bufSize →
        ∀ u, u ≠ k.page.currentTerminal → RowKept u k (termBackspace L k)) := by
  have her := termBackspace_spec (L := L) k rfl
  have hwhere : erasePos k k.page.currentTerminal ≤ k.term.curPos k.page.currentTerminal ∧
      (0 ≤ k.term.curPos k.page.currentTerminal → 0 ≤ erasePos k k.page.currentTerminal ∧
        (k.term.curPos k.page.currentTerminal ≤ bufSize →
          erasePos k k.page.currentTerminal < bufSize)) := by
    unfold erasePos
    simp only [bufSize]
    split <;> omega
  refine ⟨.of_update her.wait her.curPos fun h0 => (hwhere.2 h0).1, ?_⟩
  intro h0 h1 u hu
  refine rowKept_of_line hu ?_
  intro i hi
  obtain ⟨hlow, hhigh⟩ := hwhere.2 h0
  unfold InRow at hi
  rw [her.line, if_neg]
  rintro rfl
  exact hi ⟨hlow, hhigh h1⟩

/-- Making room changes nothing but the line buffer. -/
theorem shiftLine_only (t : Term) (k : Kernel) :
    ∃ b, shiftLine t k = { k with term := { k.term with buffer := b } } := by
  refine forLoop_inv (P := fun _ (k' : Kernel) =>
    ∃ b, k' = { k with term := { k.term with buffer := b } }) ⟨_, rfl⟩ _ ?_
  intro i k' _ hk'
  obtain ⟨b, rfl⟩ := hk'
  exact ⟨_, rfl⟩

/-- **The shifting loop.** The bytes from the position to the size move up by one. -/
theorem shiftLine_line (t : Term) (k : Kernel) (h : k.term.curPos t ≤ k.term.curSize t) (i : Int) :
    (shiftLine t k).line t i =
      if k.term.curPos t < i ∧ i ≤ k.term.curSize t then k.line t (i - 1) else k.line t i := by
  -- after `n` rounds the top `n` bytes have moved
  have hloop : ∀ i, (shiftLine t k).line t i =
      if k.term.curSize t - ((k.term.curSize t - k.term.curPos t).toNat : Nat) < i ∧
        i ≤ k.term.curSize t then k.line t (i - 1) else k.line t i := by
    refine forLoop_inv (P := fun n (k' : Kernel) => ∀ i, k'.line t i =
      if k.term.curSize t - (n : Int) < i ∧ i ≤ k.term.curSize t then k.line t (i - 1)
      else k.line t i) ?_ _ ?_
    · intro i
      rw [if_neg (by omega)]
    · intro n k' _ ih i
      rw [line_setLine]
      by_cases hi : i = k.term.curSize t - n
      · rw [if_pos hi, hi, ih, if_neg (by omega), if_pos (by omega)]
      · rw [if_neg hi, ih]
        by_cases hin : k.term.curSize t - (n : Int) < i ∧ i ≤ k.term.curSize t
        · rw [if_pos hin, if_pos (by omega)]
        · rw [if_neg hin, if_neg (by omega)]
  have hn : k.term.curSize t - ((k.term.curSize t - k.term.curPos t).toNat : Int)
      = k.term.curPos t := by omega
  rw [hloop, hn]

/-- What a character typed into the line leaves of the variables of the editor. -/
structure Inserted (c : Byte) (k k' : Kernel) (t : Term) : Prop where
  page : k'.page = k.page
  wait : k'.term.waitForNl = k.term.waitForNl
  curPos : k'.term.curPos = Function.update k.term.curPos t (k.term.curPos t + 1)
  curSize : k'.term.curSize = Function.update k.term.curSize t (k.term.curSize t + 1)
  line : ∀ i, k'.line t i =
    if i = k.term.curPos t then c
    else if k.term.curPos t < i ∧ i ≤ k.term.curSize t then k.line t (i - 1) else k.line t i

/-- Room for a character, where one is typed in the middle. -/
theorem makeRoom_spec (k : Kernel) {k' : Kernel}
    (hk' : k' = if k.term.curPos t < k.term.curSize t then shiftLine t (scootText L k) else k) :
    (k'.page = k.page ∧ k'.term.waitForNl = k.term.waitForNl ∧ k'.term.curPos = k.term.curPos ∧
      k'.term.curSize = k.term.curSize) ∧
      ∀ i, k'.line t i = if k.term.curPos t < i ∧ i ≤ k.term.curSize t then k.line t (i - 1)
        else k.line t i := by
  subst hk'
  split
  · rename_i h
    have hs := Shows.scootText (L := L) t k
    have hline : ∀ i, (scootText L k).line t i = k.line t i :=
      fun i => congrFun hs.buffer _
    have hshift := shiftLine_line t (scootText L k) (by rw [hs.curPos, hs.curSize]; omega)
    rw [hs.curPos, hs.curSize] at hshift
    obtain ⟨b, hb⟩ := shiftLine_only t (scootText L k)
    refine ⟨?_, ?_⟩
    · rw [hb]
      exact ⟨hs.page, hs.waitForNl, hs.curPos, hs.curSize⟩
    · intro i
      rw [hshift, hline, hline]
  · exact ⟨⟨rfl, rfl, rfl, rfl⟩, fun i => by rw [if_neg (by omega)]⟩

/-- **An ordinary character** goes in at the position, after making room for it. -/
theorem termInsert_spec (c : Byte) (k : Kernel) (hcur : k.page.currentTerminal = t) :
    Inserted c k (termInsert L c k) t := by
  obtain ⟨k1, hk1⟩ : ∃ k1, k1 = if k.term.curPos t < k.term.curSize t then
      shiftLine t (scootText L k) else k := ⟨_, rfl⟩
  obtain ⟨⟨hpage, hwait, hpos, hsize⟩, hline⟩ := makeRoom_spec (L := L) k hk1
  -- the character is drawn between the shift and the store
  have hput := Shows.putcKb (L := L) (k := k1) ((congrArg Paging.currentTerminal hpage).trans hcur)
    c
  unfold termInsert
  dsimp only
  rw [hcur, ← hk1]
  refine ⟨hput.page.trans hpage, ?_, ?_, ?_, ?_⟩
  · simp [hput.waitForNl, hwait]
  · simp [hput.curPos, hpos]
  · simp [hput.curSize, hsize]
  · intro i
    have hset : (((putcKb L c k1).setLine t ((putcKb L c k1).term.curPos t) c).line t i)
        = if i = k.term.curPos t then c else k1.line t i := by
      rw [line_setLine, hput.curPos, hpos]
      split
      · rfl
      · exact congrFun hput.buffer _
    rw [hline] at hset
    exact hset

/-- With room for it, that is in the row. -/
theorem termInsert_frame (c : Byte) (k : Kernel) (h0 : 0 ≤ k.term.curPos k.page.currentTerminal)
    (hp : k.term.curPos k.page.currentTerminal < bufSize - 1)
    (hs : k.term.curSize k.page.currentTerminal < bufSize - 1) :
    Edited k (termInsert L c k) ∧
      ∀ u, u ≠ k.page.currentTerminal → RowKept u k (termInsert L c k) := by
  have hins := termInsert_spec (L := L) c k rfl
  refine ⟨.of_update hins.wait hins.curPos (by omega), ?_⟩
  intro u hu
  refine rowKept_of_line hu ?_
  intro i hi
  unfold InRow at hi
  rw [hins.line, if_neg (by omega), if_neg (by omega)]

/-- At the end of a line there is no room to make. -/
theorem termInsert_end (c : Byte) (k : Kernel)
    (h : k.term.curPos k.page.currentTerminal = k.term.curSize k.page.currentTerminal) :
    (termInsert L c k).term.buffer = (k.setLine k.page.currentTerminal
        (k.term.curPos k.page.currentTerminal) c).term.buffer ∧
      (termInsert L c k).term.curPos = Function.update k.term.curPos k.page.currentTerminal
        (k.term.curPos k.page.currentTerminal + 1) ∧
      (termInsert L c k).term.curSize = Function.update k.term.curSize k.page.currentTerminal
        (k.term.curSize k.page.currentTerminal + 1) ∧
      (termInsert L c k).term.waitForNl = k.term.waitForNl ∧
      (termInsert L c k).page = k.page ∧ (termInsert L c k).keys = k.keys ∧
      (termInsert L c k).task = k.task := by
  have hput := Shows.putcKb (L := L) (k := k) rfl c
  unfold termInsert
  dsimp only
  rw [if_neg (by omega)]
  refine ⟨?_, ?_, ?_, ?_, hput.page, hput.keys, hput.task⟩
  · simp [hput.buffer, hput.curPos]
  · simp [hput.curPos]
  · simp [hput.curSize]
  · simp [hput.waitForNl]

/-! ### History -/

/-- The row `up_hist` or `down_hist` is about to recall. -/
def recalledRow (move : Term → Kernel → Kernel) (k : Kernel) : Int :=
  (histSkip move k.page.currentTerminal histSize
    (move k.page.currentTerminal k)).term.histIndeces k.page.currentTerminal

/-- A row of the history ends within the room of one. -/
def Terminated (k : Kernel) (t : Term) (row : Int) : Prop :=
  ∃ j : Nat, j ≤ bufSize ∧ k.hist t row j = 0

/-- Only the place in the history changed. -/
def Browsed (k k' : Kernel) : Prop :=
  ∃ h, k' = { k with term := { k.term with histIndeces := h } }

theorem Browsed.trans {k k' k'' : Kernel} (h : Browsed k k') (h' : Browsed k' k'') :
    Browsed k k'' := by
  obtain ⟨h1, rfl⟩ := h
  obtain ⟨h2, rfl⟩ := h'
  exact ⟨h2, rfl⟩

theorem Browsed.unedited {k k' : Kernel} (h : Browsed k k') : Unedited k k' := by
  obtain ⟨_, rfl⟩ := h
  exact ⟨rfl, rfl, rfl, rfl⟩

theorem Browsed.history {k k' : Kernel} (h : Browsed k k') : k'.term.history = k.term.history := by
  obtain ⟨_, rfl⟩ := h
  rfl

theorem hist_congr {k k' : Kernel} (hh : k'.term.history = k.term.history)
    (hi : k'.term.histIndeces = k.term.histIndeces) (t : Term) (j : Nat) :
    k'.hist t (k'.term.histIndeces t) j = k.hist t (k.term.histIndeces t) j := by
  unfold Kernel.hist
  rw [hh, hi]

theorem browsed_histUp (t : Term) (k : Kernel) : Browsed k (histUp t k) := by
  unfold histUp
  dsimp only
  split
  · exact ⟨_, rfl⟩
  · exact ⟨_, rfl⟩

theorem browsed_histDown (t : Term) (k : Kernel) : Browsed k (histDown t k) := ⟨_, rfl⟩

theorem browsed_histSkip {move : Term → Kernel → Kernel} (hmove : ∀ t k, Browsed k (move t k))
    (t : Term) (fuel : Nat) (k : Kernel) : Browsed k (histSkip move t fuel k) := by
  induction fuel generalizing k with
  | zero => exact ⟨_, rfl⟩
  | succ fuel ih =>
      unfold histSkip
      split
      · exact (hmove t k).trans (ih _)
      · exact ⟨_, rfl⟩

theorem Shows.histErase (ht : k.page.currentTerminal = t) (fuel i : Nat) :
    Shows t k (histErase L t fuel i k) := by
  induction fuel generalizing i k with
  | zero => exact .refl t k
  | succ fuel ih =>
      have hput := Shows.putc (L := L) ht 0
      exact .ite (hput.trans (ih (hput.current.trans ht) (i + 1))) (.refl t k)

/-- A round of the copying loop: a byte of the row stored, drawn and counted. -/
def recallByte (L : Layout) (t : Term) (i : Nat) (k : Kernel) : Kernel :=
  let b := k.hist t (k.term.histIndeces t) i
  let k := putc L b (k.setLine t i b)
  (k.setCurPos t (k.term.curPos t + 1)).setCurSize t (k.term.curSize t + 1)

theorem histCopy_next {i : Nat} (hgo : k.hist t (k.term.histIndeces t) i ≠ 0) (fuel : Nat) :
    histCopy L t (fuel + 1) i k = histCopy L t fuel (i + 1) (recallByte L t i k) := by
  rw [histCopy, if_pos hgo]
  dsimp only
  rw [line_setLine, if_pos rfl]
  rfl

theorem histCopy_stop {i : Nat} (hz : k.hist t (k.term.histIndeces t) i = 0) (fuel : Nat) :
    histCopy L t fuel i k = k := by
  cases fuel with
  | zero => rfl
  | succ fuel => rw [histCopy, if_neg (not_not.mpr hz)]

/-- What is drawn of the row does not touch the line. -/
theorem recallByte_shows (ht : k.page.currentTerminal = t) (i : Nat) (b : Byte) :
    Shows t (k.setLine t i b) (putc L b (k.setLine t i b)) :=
  Shows.putc (k := k.setLine t i b) ht b

/-- One byte of the row recalled. -/
theorem recallByte_frame (ht : k.page.currentTerminal = t) (i : Nat) :
    (recallByte L t i k).page = k.page ∧
      (recallByte L t i k).term.history = k.term.history ∧
      (recallByte L t i k).term.histIndeces = k.term.histIndeces ∧
      Edited k (recallByte L t i k) ∧
      (i < bufSize → ∀ u, u ≠ t → RowKept u k (recallByte L t i k)) := by
  have hput := recallByte_shows (L := L) ht i (k.hist t (k.term.histIndeces t) i)
  refine ⟨hput.page, hput.history, hput.histIndeces,
    .of_update (t := t) (n := k.term.curPos t + 1) ?_ ?_ (by omega), ?_⟩
  · simp [recallByte, hput.waitForNl]
  · simp [recallByte, hput.curPos]
  · intro hi u hu
    exact (rowKept_setLine k hu (i := i) ⟨by omega, by omega⟩
      (k.hist t (k.term.histIndeces t) i)).trans (.of_buffer hput.buffer u)

/-- The row recalled ends up in the line from its start, up to its terminator. -/
theorem histCopy_frame (ht : k.page.currentTerminal = t) (fuel i : Nat) :
    Edited k (histCopy L t fuel i k) ∧
      ((∃ j : Nat, i ≤ j ∧ j ≤ bufSize ∧ k.hist t (k.term.histIndeces t) j = 0) →
        ∀ u, u ≠ t → RowKept u k (histCopy L t fuel i k)) := by
  induction fuel generalizing i k with
  | zero => exact ⟨(Shows.refl t k).edited, fun _ u _ => .refl u k⟩
  | succ fuel ih =>
      by_cases hz : k.hist t (k.term.histIndeces t) i = 0
      · rw [histCopy_stop hz]
        exact ⟨(Shows.refl t k).edited, fun _ u _ => .refl u k⟩
      · obtain ⟨hpage, hhist, hind, hed, hrow⟩ := recallByte_frame (L := L) ht i
        have hrest := ih (congrArg Paging.currentTerminal hpage |>.trans ht) (i + 1)
        rw [histCopy_next hz]
        refine ⟨hed.trans hrest.1, ?_⟩
        rintro ⟨j, hij, hj, hend⟩ u hu
        have hlt : i < j := by
          rcases Nat.eq_or_lt_of_le hij with rfl | h
          · exact absurd hend hz
          · exact h
        exact (hrow (by omega) u hu).trans
          (hrest.2 ⟨j, hlt, hj, (hist_congr hhist hind t j).trans hend⟩ u hu)

/-- What the counters start from. -/
def recallBase (t : Term) (reset : Bool) (k : Kernel) : Kernel :=
  if reset then (k.setCurPos t 0).setCurSize t 0 else k

theorem recallBase_frame (t : Term) (reset : Bool) (k : Kernel) :
    (recallBase t reset k).page = k.page ∧ (recallBase t reset k).term.buffer = k.term.buffer ∧
      (recallBase t reset k).term.history = k.term.history ∧
      (recallBase t reset k).term.histIndeces = k.term.histIndeces := by
  unfold recallBase
  split
  · exact ⟨rfl, rfl, rfl, rfl⟩
  · exact ⟨rfl, rfl, rfl, rfl⟩

theorem recallBase_edited (t : Term) (reset : Bool) (k : Kernel) :
    Edited k (recallBase t reset k) := by
  unfold recallBase
  split
  · exact .of_update (t := t) (n := 0) (by simp) (by simp) (by omega)
  · exact (Shows.refl t k).edited

/-- A recall, with what `reset` clears under a name. -/
theorem histRecall_eq (L : Layout) (t : Term) (reset : Bool) (k : Kernel) :
    let k1 := recallBase t reset (setPos (k.term.writeX t) (k.term.writeY t) k)
    let k2 := histErase L t histBytes 0 k1
    histRecall L t reset k
      = histCopy L t histBytes 0 (setPos (k2.term.writeX t) (k2.term.writeY t) k2) := by
  unfold histRecall recallBase
  rfl

/-- What a recall does before it copies: it draws, clears the counters, and draws again. -/
theorem histRecall_copies (ht : k.page.currentTerminal = t) (reset : Bool) :
    ∃ k1 k2, Shows t k k1 ∧ Shows t (recallBase t reset k1) k2 ∧
      histRecall L t reset k = histCopy L t histBytes 0 k2 := by
  have h1 := Shows.setPos ht (k.term.writeX t) (k.term.writeY t)
  have hcur :
      (recallBase t reset
        (setPos (k.term.writeX t) (k.term.writeY t) k)).page.currentTerminal = t := by
    rw [(recallBase_frame t reset _).1]
    exact h1.current.trans ht
  have h2 := Shows.histErase (L := L) hcur histBytes 0
  exact ⟨_, _, h1, h2.trans (Shows.setPos (h2.current.trans hcur) _ _), histRecall_eq L t reset k⟩

theorem histRecall_frame (ht : k.page.currentTerminal = t) (reset : Bool) :
    Edited k (histRecall L t reset k) ∧
      (Terminated k t (k.term.histIndeces t) →
        ∀ u, u ≠ t → RowKept u k (histRecall L t reset k)) := by
  obtain ⟨k1, k2, h1, h2, hcopies⟩ := histRecall_copies (L := L) ht reset
  obtain ⟨hpage, hbuffer, hhist, hind⟩ := recallBase_frame t reset k1
  have hcur : k2.page.currentTerminal = t := by
    rw [h2.page, hpage]
    exact h1.current.trans ht
  obtain ⟨hed, hrows⟩ := histCopy_frame (L := L) hcur histBytes 0
  rw [hcopies]
  refine ⟨((h1.edited.trans (recallBase_edited t reset k1)).trans h2.edited).trans hed, ?_⟩
  rintro ⟨j, hj, hz⟩ u hu
  have hrow : k2.hist t (k2.term.histIndeces t) j = k.hist t (k.term.histIndeces t) j :=
    hist_congr (h2.history.trans (hhist.trans h1.history))
      (h2.histIndeces.trans (hind.trans h1.histIndeces)) t j
  exact (RowKept.of_buffer (h2.buffer.trans (hbuffer.trans h1.buffer)) u).trans
    (hrows ⟨j, Nat.zero_le j, hj, hrow.trans hz⟩ u hu)

/-- **What Up and Down do**: they move in the history, and recall the row they come to, if any. -/
theorem histStep_cases {move : Term → Kernel → Kernel} (hmove : ∀ t k, Browsed k (move t k))
    (reset : Bool) (ht : k.page.currentTerminal = t) :
    ∃ k1, k1 = histSkip move t histSize (move t k) ∧ Browsed k k1 ∧
      recalledRow move k = k1.term.histIndeces t ∧
      (k1.hist t (k1.term.histIndeces t) 0 = 0 ∧ histStep L move reset k = k1 ∨
        k1.hist t (k1.term.histIndeces t) 0 ≠ 0 ∧
          histStep L move reset k = histRecall L t reset k1) := by
  subst ht
  refine ⟨_, rfl, (hmove _ k).trans (browsed_histSkip hmove _ _ _), rfl, ?_⟩
  unfold histStep
  dsimp only
  split
  · rename_i hz
    exact .inl ⟨hz, rfl⟩
  · rename_i hz
    exact .inr ⟨hz, rfl⟩

/-- **Up and down** store the row they recall from the start of the line. -/
theorem histStep_frame {move : Term → Kernel → Kernel} (hmove : ∀ t k, Browsed k (move t k))
    (reset : Bool) (k : Kernel) :
    Edited k (histStep L move reset k) ∧
      (Terminated k k.page.currentTerminal (recalledRow move k) →
        ∀ u, u ≠ k.page.currentTerminal → RowKept u k (histStep L move reset k)) := by
  obtain ⟨k1, -, hb, hrow, hcases⟩ := histStep_cases (L := L) hmove reset (k := k) rfl
  have hu := hb.unedited
  have hed : Edited k k1 := ⟨hu.waitForNl, fun h u => by rw [hu.curPos]; exact h u⟩
  rcases hcases with ⟨-, hstep⟩ | ⟨-, hstep⟩
  · rw [hstep]
    exact ⟨hed, fun _ u _ => .of_buffer hu.buffer u⟩
  · rw [hstep, hrow]
    obtain ⟨h1, h2⟩ := histRecall_frame (L := L) (k := k1) (t := k.page.currentTerminal)
      (by rw [hu.page]) reset
    refine ⟨hed.trans h1, fun hterm u hne => (RowKept.of_buffer hu.buffer u).trans (h2 ?_ u hne)⟩
    obtain ⟨j, hj, hz⟩ := hterm
    refine ⟨j, hj, ?_⟩
    unfold Kernel.hist at hz ⊢
    rw [hb.history]
    exact hz

end Editor

/-! ## Every key -/

theorem editKey_enter (k : Kernel) : EditKey enterKey k := by
  unfold EditKey enterKey
  exact ⟨by decide, .inr (.inr ⟨by decide, by decide, by decide, fun h => absurd h.1 (by decide)⟩)⟩

theorem keyHandler_enter (L : Layout) (k : Kernel) : keyHandler L enterKey k = termEnter k := by
  have he := keyHandler_effect L enterKey k
  generalize keyHandler L enterKey k = k' at he
  cases he with
  | flags keys h => exact absurd (editKey_enter k) h
  | left h => exact absurd (editKey_enter k) h
  | right h => exact absurd (editKey_enter k) h
  | switch u h => exact absurd (editKey_enter k) h
  | down _ h => exact absurd h (by decide)
  | up _ h => exact absurd h (by decide)
  | clear _ h => exact absurd rfl h
  | enter _ _ => rfl
  | backspace _ h => exact absurd h (by decide)
  | insert c _ h _ _ => exact absurd rfl h
  | full _ h => exact absurd rfl h

/-- A key that prints is a character. -/
theorem keyHandler_prints {L : Layout} {inp : Byte} {k : Kernel} (h : EditKey inp k)
    (h50 : inp.toNat ≠ 0x50) (h48 : inp.toNat ≠ 0x48) :
    keyHandler L inp k = keyChar L inp.toNat k := by
  obtain ⟨hprint, h⟩ := h
  obtain ⟨hmod, h1, h123, hswitch⟩ := (h.resolve_left h50).resolve_left h48
  simp only [List.mem_cons, List.not_mem_nil, or_false, not_or] at hmod
  obtain ⟨h4B, h4D, h38, h1D, h2A, h36, h3A⟩ := hmod
  have hno : ∀ n, n ∈ [0x3B, 0x3C, 0x3D] → ¬ (inp.toNat = n ∧ k.keys.altFlag = true) :=
    fun n hn he => hswitch ⟨he.1 ▸ hn, he.2⟩
  unfold keyHandler
  dsimp only
  rw [if_neg hprint, if_neg h50, if_neg h48, if_neg h4B, if_neg h4D, if_neg h38, if_neg h1D,
    if_neg h2A, if_neg h36, if_neg h3A, if_neg (by omega), if_neg (by omega), if_neg (by omega),
    if_neg (by omega), if_pos ⟨h1, h123⟩, if_neg (hno _ (by decide)), if_neg (hno _ (by decide)),
    if_neg (hno _ (by decide))]

/-- Alt, and with it the function keys. -/
theorem keyHandler_alt (L : Layout) (k : Kernel) :
    keyHandler L 0x38 k = { k with keys := { k.keys with altFlag := true } } := by
  unfold keyHandler
  dsimp only
  rw [if_neg (by decide), if_neg (by decide), if_neg (by decide), if_neg (by decide),
    if_neg (by decide), if_pos (by decide)]

theorem keyHandler_altF2 (L : Layout) {k : Kernel} (h : k.keys.altFlag = true) :
    keyHandler L 0x3C k = switchTo L 1 k := by
  unfold keyHandler
  dsimp only
  rw [if_neg (by decide), if_neg (by decide), if_neg (by decide), if_neg (by decide),
    if_neg (by decide), if_neg (by decide), if_neg (by decide), if_neg (by decide),
    if_neg (by decide), if_neg (by decide), if_neg (by decide), if_neg (by decide),
    if_neg (by decide), if_neg (by decide), if_pos (by decide),
    if_neg (fun h => absurd h.1 (by decide)), if_pos ⟨by decide, h⟩]

/--
The key stores inside the row of the foreground terminal: the size is a size at
Enter, the position one at Backspace, and a row recalled ends.
-/
def KeyInRow (inp : Byte) (k : Kernel) : Prop :=
  (inp = enterKey → InRow (k.term.curSize k.page.currentTerminal)) ∧
    (inp = backspaceKey → k.term.curPos k.page.currentTerminal ≤ bufSize) ∧
    (inp = 0x50 → Terminated k k.page.currentTerminal (recalledRow histDown k)) ∧
    (inp = 0x48 → Terminated k k.page.currentTerminal (recalledRow histUp k))

/-- **What any key leaves alone**, `k'` being the machine after it. -/
structure KeyFrame (inp : Byte) (k k' : Kernel) : Prop where
  pos : ∀ u, 0 ≤ k'.term.curPos u
  /-- Only Enter wakes a reader, and only that of its terminal. -/
  wait : k'.term.waitForNl
    = if inp = enterKey then Function.update k.term.waitForNl k.page.currentTerminal false
      else k.term.waitForNl
  quiet : ¬ EditKey inp k → k'.term.buffer = k.term.buffer
  rows : KeyInRow inp k → ∀ u, u ≠ k.page.currentTerminal → RowKept u k k'

theorem KeyFrame.of_quiet {inp : Byte} {k k' : Kernel} (hq : ¬ EditKey inp k) (he : Edited k k')
    (h0 : ∀ u, 0 ≤ k.term.curPos u) (hb : k'.term.buffer = k.term.buffer) : KeyFrame inp k k' where
  pos := he.pos h0
  wait := by
    have hne : inp ≠ enterKey := by
      rintro rfl
      exact hq (editKey_enter k)
    rw [if_neg hne, he.wait]
  quiet := fun _ => hb
  rows := fun _ u _ => .of_buffer hb u

theorem KeyFrame.of_edit {inp : Byte} {k k' : Kernel} (hq : EditKey inp k) (hne : inp ≠ enterKey)
    (he : Edited k k') (h0 : ∀ u, 0 ≤ k.term.curPos u)
    (hr : KeyInRow inp k → ∀ u, u ≠ k.page.currentTerminal → RowKept u k k') :
    KeyFrame inp k k' where
  pos := he.pos h0
  wait := by rw [if_neg hne, he.wait]
  quiet := fun h => absurd hq h
  rows := hr

theorem keyHandler_frame (L : Layout) (inp : Byte) {k : Kernel} (h0 : ∀ u, 0 ≤ k.term.curPos u) :
    KeyFrame inp k (keyHandler L inp k) := by
  have he := keyHandler_effect L inp k
  generalize keyHandler L inp k = k' at he
  have hsame := (Shows.refl k.page.currentTerminal k).edited
  cases he with
  | flags keys h => exact .of_quiet h ⟨rfl, fun h0 => h0⟩ h0 rfl
  | left h =>
    have hleft := termMoveLeft_spec k rfl
    exact .of_quiet h (hleft.edited leftPos_nonneg) h0 hleft.buffer
  | right h =>
    have hright := termMoveRight_spec k rfl
    exact .of_quiet h (hright.edited rightPos_nonneg) h0 hright.buffer
  | switch u h =>
      have ht := switchTo_term L u k
      exact .of_quiet h ⟨by rw [ht], fun h0 => by rw [ht]; exact h0⟩ h0 (by rw [ht])
  | down h hi =>
      obtain ⟨h1, h2⟩ := histStep_frame (L := L) browsed_histDown false k
      exact .of_edit h (by rw [hi]; decide) h1 h0 (fun hr => h2 (hr.2.2.1 hi))
  | up h hi =>
      obtain ⟨h1, h2⟩ := histStep_frame (L := L) browsed_histUp true k
      exact .of_edit h (by rw [hi]; decide) h1 h0 (fun hr => h2 (hr.2.2.2 hi))
  | clear h hi =>
      have hc := Shows.termClear (L := L) (k := k) rfl
      obtain ⟨h1, h2⟩ := termInit_frame (termClear L k)
      refine .of_edit h hi (hc.edited.trans h1) h0 ?_
      intro _ u hu
      exact (RowKept.of_buffer hc.buffer u).trans (h2 u (by rw [hc.page]; exact hu))
  | enter h hi =>
      refine ⟨termEnter_pos k h0, ?_, fun hq => absurd h hq,
        fun hr u hu => termEnter_rows (hr.1 hi) hu⟩
      rw [if_pos hi, termEnter_wait]
  | backspace h hi =>
      obtain ⟨h1, h2⟩ := termBackspace_frame (L := L) k
      exact .of_edit h (by rw [hi]; decide) h1 h0 (fun hr => h2 (h0 _) (hr.2.1 hi))
  | insert c h hi hp hs =>
      obtain ⟨h1, h2⟩ := termInsert_frame (L := L) c k (h0 _) hp hs
      exact .of_edit h hi h1 h0 (fun _ => h2)
  | full h hi => exact .of_edit h hi hsame h0 (fun _ u _ => .refl u _)

end Zbiggie.Proof
