import Zbiggie.Machine.CString
import Zbiggie.Machine.Footprint
import Zbiggie.Proof.LineEditor

/-!
# The indices of the line editor

The position and the size of a line are changed by five routines, each of which looks
at what it needs and no more. `LineOk` is what they are to keep: a position within the
size and a size that leaves room for the newline. Two keys can break it. Backspace on an
empty line makes the size negative, for it lowers the size before it looks at the
position; and Down, unlike Up, does not start from an empty line, so that what it
recalls is counted on top of what was typed.

`KeyOk` rules these two out, and no more than these two: from a state that is in order,
a key leads to one that is exactly when it is `KeyOk`. No key stores outside the row
before that.
-/

namespace Zbiggie.Proof

open Zbiggie Machine

/-! ## Recalling a row -/

/-- A command of the history. -/
def histRow (k : Kernel) (t : Term) (row : Int) : List Byte :=
  upToNul (fun j => k.hist t row j) bufSize 0

/-- The row the history stands at goes on for `m` bytes from `i`. -/
structure RowFrom (k : Kernel) (t : Term) (i m : Nat) : Prop where
  bytes : ∀ j, j < m → k.hist t (k.term.histIndeces t) (i + j : Nat) ≠ 0
  stop : k.hist t (k.term.histIndeces t) (i + m : Nat) = 0

/-- `m` bytes of a row were stored from `i` on, and counted. -/
structure Recalled (row : Mem) (k k' : Kernel) (t : Term) (i m : Nat) : Prop where
  curPos : k'.term.curPos t = k.term.curPos t + m
  curSize : k'.term.curSize t = k.term.curSize t + m
  line : ∀ j : Int, k'.line t j = if (i : Int) ≤ j ∧ j < i + m then row j.toNat else k.line t j

section Recall

variable {L : Layout} {k : Kernel} {t : Term} {row : Mem}

theorem Recalled.refl (row : Mem) (k : Kernel) (t : Term) (i : Nat) : Recalled row k k t i 0 :=
  ⟨(Int.add_zero _).symm, (Int.add_zero _).symm, fun _ => (if_neg (by omega)).symm⟩

theorem Recalled.succ {k k' k'' : Kernel} {i m : Nat} (h : Recalled row k k' t i 1)
    (h' : Recalled row k' k'' t (i + 1) m) : Recalled row k k'' t i (m + 1) := by
  refine ⟨?_, ?_, ?_⟩
  · rw [h'.curPos, h.curPos]
    omega
  · rw [h'.curSize, h.curSize]
    omega
  · intro j
    rw [h'.line, h.line]
    by_cases hrest : ((i + 1 : Nat) : Int) ≤ j ∧ j < (i + 1 : Nat) + m
    · rw [if_pos hrest, if_pos (by omega)]
    · rw [if_neg hrest]
      by_cases hfirst : (i : Int) ≤ j ∧ j < i + (1 : Nat)
      · rw [if_pos hfirst, if_pos (by omega)]
      · rw [if_neg hfirst, if_neg (by omega)]

/-- The bytes that count are those that were stored. -/
theorem Recalled.congr {row' : Mem} {k k' : Kernel} {m : Nat} (h : Recalled row k k' t 0 m)
    (hrow : ∀ j, j < m → row j = row' j) : Recalled row' k k' t 0 m := by
  refine ⟨h.curPos, h.curSize, ?_⟩
  intro j
  rw [h.line]
  by_cases hin : ((0 : Nat) : Int) ≤ j ∧ j < (0 : Nat) + m
  · rw [if_pos hin, if_pos hin, hrow _ (by omega)]
  · rw [if_neg hin, if_neg hin]

/-- Drawing before or after is of no account. -/
theorem Recalled.of_shows {k k1 k' : Kernel} {i m : Nat} (h : Shows t k k1)
    (h' : Recalled row k1 k' t i m) : Recalled row k k' t i m := by
  refine ⟨?_, ?_, ?_⟩
  · rw [h'.curPos, h.curPos]
  · rw [h'.curSize, h.curSize]
  · intro j
    rw [h'.line, show k1.line t j = k.line t j from congrFun h.buffer _]

/-- What is left of a row after one byte of it. -/
theorem RowFrom.next {i m : Nat} (h : RowFrom k t i (m + 1)) {k' : Kernel}
    (hhist : k'.term.history = k.term.history) (hind : k'.term.histIndeces = k.term.histIndeces) :
    RowFrom k' t (i + 1) m := by
  have hnext : ∀ j, (i + 1 + j : Nat) = i + (j + 1) := fun j => Nat.add_right_comm i 1 j
  refine ⟨?_, ?_⟩
  · intro j hj
    rw [hist_congr hhist hind, hnext]
    exact h.bytes (j + 1) (Nat.succ_lt_succ hj)
  · rw [hist_congr hhist hind, hnext]
    exact h.stop

theorem RowFrom.copy_stop {i : Nat} (h : RowFrom k t i 0) (fuel : Nat) :
    histCopy L t fuel i k = k :=
  histCopy_stop h.stop fuel

theorem RowFrom.copy_next {i m : Nat} (h : RowFrom k t i (m + 1)) (fuel : Nat) :
    histCopy L t (fuel + 1) i k = histCopy L t fuel (i + 1) (recallByte L t i k) :=
  histCopy_next (h.bytes 0 (Nat.succ_pos m)) fuel

/-- One byte of the row: what the loop of `up_hist` and `down_hist` does in a round. -/
theorem recallByte_recalled (ht : k.page.currentTerminal = t) (i : Nat) :
    Recalled (fun j => k.hist t (k.term.histIndeces t) j) k (recallByte L t i k) t i 1 := by
  have hput := recallByte_shows (L := L) ht i (k.hist t (k.term.histIndeces t) i)
  refine ⟨?_, ?_, ?_⟩
  · simp [recallByte, hput.curPos]
  · simp [recallByte, hput.curSize]
  · intro j
    refine ((congrFun hput.buffer _).trans (line_setLine k t i j _)).trans ?_
    by_cases hj : j = i
    · rw [if_pos hj, if_pos (by omega), hj]
      rfl
    · rw [if_neg hj, if_neg (by omega)]

/-- **The copying loop.** -/
theorem histCopy_spec : ∀ (m fuel i : Nat) {k : Kernel}, k.page.currentTerminal = t →
    RowFrom k t i m → m ≤ fuel →
      Recalled (fun j => k.hist t (k.term.histIndeces t) j) k (histCopy L t fuel i k) t i m := by
  -- on what is left of the row: each round takes one byte of it, and some of the fuel
  intro m
  induction m with
  | zero =>
      intro fuel i k _ hrow _
      rw [hrow.copy_stop]
      exact .refl _ k t i
  | succ m ih =>
      intro fuel i k ht hrow hfuel
      obtain ⟨fuel, rfl⟩ : ∃ f, fuel = f + 1 := ⟨fuel - 1, by omega⟩
      obtain ⟨hpage, hhist, hind, -, -⟩ := recallByte_frame (L := L) ht i
      have hrest := ih fuel (i + 1) ((congrArg Paging.currentTerminal hpage).trans ht)
        (hrow.next hhist hind) (by omega)
      rw [funext (hist_congr hhist hind t)] at hrest
      rw [hrow.copy_next]
      exact (recallByte_recalled ht i).succ hrest

/-- The counters start from zero or from what they were, whatever was drawn. -/
theorem recallBase_counters {k k' : Kernel} (hp : k'.term.curPos = k.term.curPos)
    (hs : k'.term.curSize = k.term.curSize) (reset : Bool) :
    (recallBase t reset k').term.curPos = (recallBase t reset k).term.curPos ∧
      (recallBase t reset k').term.curSize = (recallBase t reset k).term.curSize := by
  unfold recallBase
  split
  · simp [hp, hs]
  · exact ⟨hp, hs⟩

theorem histRecall_spec (ht : k.page.currentTerminal = t) (reset : Bool) {m : Nat}
    (hrow : RowFrom k t 0 m) (hm : m ≤ bufSize) :
    Recalled (fun j => k.hist t (k.term.histIndeces t) j) (recallBase t reset k)
      (histRecall L t reset k) t 0 m := by
  -- drawing comes before and after the reset of the counters, the copy last
  obtain ⟨k1, k2, h1, h2, hcopies⟩ := histRecall_copies (L := L) ht reset
  obtain ⟨hpage, hbuffer, hhist, hind⟩ := recallBase_frame t reset k1
  obtain ⟨hpos, hsize⟩ := recallBase_counters (t := t) h1.curPos h1.curSize reset
  have hrow' := hist_congr (h2.history.trans (hhist.trans h1.history))
    (h2.histIndeces.trans (hind.trans h1.histIndeces)) t
  have hcopy : Recalled (fun j => k.hist t (k.term.histIndeces t) j) k2
      (histRecall L t reset k) t 0 m := by
    have hcur : k2.page.currentTerminal = t := by
      rw [h2.page, hpage]
      exact h1.current.trans ht
    have hfuel : bufSize ≤ histBytes := by decide
    rw [hcopies, ← funext hrow']
    refine histCopy_spec m _ 0 hcur ⟨?_, ?_⟩ (Nat.le_trans hm hfuel)
    · intro j hj
      rw [hrow']
      exact hrow.bytes j hj
    · rw [hrow']
      exact hrow.stop
  have hdrawn := Recalled.of_shows h2 hcopy
  have hline : ∀ j, (recallBase t reset k1).line t j = (recallBase t reset k).line t j :=
    fun j => congrFun (hbuffer.trans (h1.buffer.trans (recallBase_frame t reset k).2.1.symm)) _
  refine ⟨?_, ?_, ?_⟩
  · rw [hdrawn.curPos, hpos]
  · rw [hdrawn.curSize, hsize]
  · intro j
    rw [hdrawn.line, hline]

/-- A command that ends within its row is one to recall. -/
theorem rowFrom_histRow (h : (histRow k t (k.term.histIndeces t)).length < bufSize) :
    RowFrom k t 0 (histRow k t (k.term.histIndeces t)).length := by
  refine ⟨?_, upToNul_end h⟩
  intro j hj hz
  have hget := upToNul_getElem (s := fun j => k.hist t (k.term.histIndeces t) j) (n := bufSize)
    (i := 0) hj
  refine zero_not_mem_upToNul (fun j => k.hist t (k.term.histIndeces t) j) bufSize 0 ?_
  rw [← hz, ← hget]
  exact List.getElem_mem hj

theorem histRow_eq_nil_iff {row : Int} : (histRow k t row).length = 0 ↔ k.hist t row 0 = 0 := by
  have hsize : bufSize = 127 + 1 := rfl
  unfold histRow
  rw [hsize, upToNul]
  split
  · rename_i h
    exact ⟨fun _ => h, fun _ => rfl⟩
  · rename_i h
    exact ⟨fun hlen => absurd hlen (Nat.succ_ne_zero _), fun hz => absurd hz h⟩

theorem cstr_histRow {row : Int} {j : Nat} (hj : j < (histRow k t row).length) :
    cstr (histRow k t row) j = k.hist t row j := by
  have hget := upToNul_getElem (s := fun j => k.hist t row j) (n := bufSize) (i := 0) hj
  rw [Nat.zero_add] at hget
  unfold cstr
  rw [List.getD_eq_getElem _ _ hj]
  exact hget

/-- **Up and Down** count the command they recall, on top of what the counters start from. -/
theorem histStep_spec {move : Term → Kernel → Kernel} (hmove : ∀ t k, Browsed k (move t k))
    (reset : Bool) (hcur : k.page.currentTerminal = t)
    (hlen : (histRow k t (recalledRow move k)).length < bufSize) :
    Recalled (cstr (histRow k t (recalledRow move k)))
      (if (histRow k t (recalledRow move k)).length = 0 then k else recallBase t reset k)
      (histStep L move reset k) t 0 (histRow k t (recalledRow move k)).length := by
  -- the state once the history has moved, over its empty rows too
  obtain ⟨k1, -, hb, hrow, hcases⟩ := histStep_cases (L := L) hmove reset hcur
  have hhist : histRow k1 t = histRow k t := by
    funext row
    unfold histRow Kernel.hist
    rw [hb.history]
  have hsize : k1.term.curSize = k.term.curSize := by
    obtain ⟨_, rfl⟩ := hb
    rfl
  rw [hrow, ← hhist] at hlen ⊢
  rcases hcases with ⟨hz, hstep⟩ | ⟨hz, hstep⟩
  · -- no row to recall: the place in the history moved, and that is all
    rw [hstep, histRow_eq_nil_iff.mpr hz, if_pos rfl]
    refine ⟨?_, ?_, ?_⟩
    · rw [hb.unedited.curPos]
      exact (Int.add_zero _).symm
    · rw [hsize]
      exact (Int.add_zero _).symm
    · intro j
      rw [if_neg (by omega)]
      exact congrFun hb.unedited.buffer _
  · rw [hstep, if_neg fun hn => hz (histRow_eq_nil_iff.mp hn)]
    have hcur1 : k1.page.currentTerminal = t := by
      rw [hb.unedited.page]
      exact hcur
    have hspec := histRecall_spec (L := L) hcur1 reset (rowFrom_histRow hlen) (Nat.le_of_lt hlen)
    obtain ⟨hp, hs⟩ := recallBase_counters (t := t) hb.unedited.curPos hsize reset
    have hbuffer : (recallBase t reset k1).term.buffer = (recallBase t reset k).term.buffer := by
      rw [(recallBase_frame t reset k1).2.1, (recallBase_frame t reset k).2.1]
      exact hb.unedited.buffer
    have hline : ∀ j, (recallBase t reset k1).line t j = (recallBase t reset k).line t j :=
      fun j => congrFun hbuffer _
    have hmid : Recalled (fun j => k1.hist t (k1.term.histIndeces t) j) (recallBase t reset k)
        (histRecall L t reset k1) t 0 (histRow k1 t (k1.term.histIndeces t)).length := by
      refine ⟨?_, ?_, ?_⟩
      · rw [hspec.curPos, hp]
      · rw [hspec.curSize, hs]
      · intro j
        rw [hspec.line, hline]
    exact hmid.congr fun j hj => (cstr_histRow hj).symm

end Recall

/-! ## The history stays in order -/

/-- The place in the history is a row of it. -/
def InHist (k : Kernel) (t : Term) : Prop :=
  0 ≤ k.term.histIndeces t ∧ k.term.histIndeces t < histSize

/-- A history of commands shorter than a row. -/
structure HistOk (k : Kernel) (t : Term) : Prop where
  place : InHist k t
  rows : ∀ row : Int, 0 ≤ row → row < histSize → (histRow k t row).length < bufSize

/-- The commands are as they were, and the place is still one of them. -/
structure HistKept (k k' : Kernel) : Prop where
  history : k'.term.history = k.term.history
  place : ∀ u, InHist k u → InHist k' u

theorem HistKept.of_eq {k k' : Kernel} (hh : k'.term.history = k.term.history)
    (hi : k'.term.histIndeces = k.term.histIndeces) : HistKept k k' := by
  refine ⟨hh, ?_⟩
  intro u hu
  unfold InHist
  rw [hi]
  exact hu

/-- A move to a row. -/
theorem HistKept.setHistIndex (k : Kernel) (t : Term) {n : Int} (h0 : InHist k t → 0 ≤ n)
    (h1 : InHist k t → n < histSize) : HistKept k (k.setHistIndex t n) := by
  refine ⟨rfl, ?_⟩
  intro u hu
  unfold InHist Kernel.setHistIndex
  dsimp only
  by_cases he : u = t
  · subst he
    rw [Function.update_self]
    exact ⟨h0 hu, h1 hu⟩
  · rw [Function.update_of_ne he]
    exact hu

theorem HistKept.histUp (t : Term) (k : Kernel) : HistKept k (histUp t k) := by
  have hindex : (k.setHistIndex t (k.term.histIndeces t - 1)).term.histIndeces t
      = k.term.histIndeces t - 1 := Function.update_self ..
  have htwice : ∀ n m, (k.setHistIndex t n).setHistIndex t m = k.setHistIndex t m := by
    intro n m
    unfold Kernel.setHistIndex
    dsimp only
    rw [Function.update_idem]
  unfold Zbiggie.histUp
  dsimp only
  rw [hindex, htwice]
  split
  · exact .setHistIndex k t (fun _ => by decide) (fun _ => by decide)
  · rename_i hn
    refine .setHistIndex k t (fun _ => by omega) ?_
    intro h
    have := h.2
    omega

theorem HistKept.histDown (t : Term) (k : Kernel) : HistKept k (histDown t k) :=
  .setHistIndex k t (fun _ => Int.emod_nonneg _ (by decide))
    (fun _ => Int.emod_lt_of_pos _ (by decide))

/-- Only Up and Down move in the history, and nothing a key does writes to it. -/
theorem HistKept.frame : EditFrame HistKept where
  refl := fun _ => .of_eq rfl rfl
  trans := fun h h' => ⟨h'.history.trans h.history, fun u hu => h'.place u (h.place u hu)⟩
  setLine := fun _ _ _ _ => .of_eq rfl rfl
  setCurPos := fun _ _ _ => .of_eq rfl rfl
  setCurSize := fun _ _ _ => .of_eq rfl rfl
  setPrevSize := fun _ _ _ => .of_eq rfl rfl
  setWaitForNl := fun _ _ _ => .of_eq rfl rfl
  setWrite := fun _ _ _ _ => .of_eq rfl rfl
  histUp := HistKept.histUp
  histDown := HistKept.histDown
  shows := fun h => .of_eq h.history h.histIndeces

theorem HistOk.kept {k k' : Kernel} {t : Term} (h : HistOk k t) (hk : HistKept k k') :
    HistOk k' t := by
  refine ⟨hk.place t h.place, ?_⟩
  intro row h0 h1
  have hrow := h.rows row h0 h1
  unfold histRow Kernel.hist at hrow ⊢
  rw [hk.history]
  exact hrow

theorem HistOk.keyHandler {k : Kernel} {t : Term} (h : HistOk k t) (L : Layout) (inp : Byte) :
    HistOk (keyHandler L inp k) t := by
  refine h.kept (HistKept.frame.keyHandler (fun _ _ => .of_eq rfl rfl) ?_ inp k)
  intro u k
  exact .of_eq (by rw [switchTo_term]) (by rw [switchTo_term])

/-- The command Up or Down recalls is shorter than a row. -/
theorem HistOk.recalled {k : Kernel} {t : Term} (h : HistOk k t)
    (hcur : k.page.currentTerminal = t) {move : Term → Kernel → Kernel}
    (hmove : ∀ t k, HistKept k (move t k)) :
    (histRow k t (recalledRow move k)).length < bufSize := by
  have hskip := HistKept.frame.trans (hmove t k)
    (HistKept.frame.histSkip hmove t histSize (move t k))
  obtain ⟨h0, h1⟩ := hskip.place t h.place
  unfold recalledRow
  rw [hcur]
  exact h.rows _ h0 h1

/-! ## Every key -/

/-- The position is in the line, and the line leaves room for its newline. -/
structure LineOk (k : Kernel) (t : Term) : Prop where
  pos : 0 ≤ k.term.curPos t
  le : k.term.curPos t ≤ k.term.curSize t
  room : k.term.curSize t ≤ 127

/-- Backspace has something to erase, and Down room for what it recalls. -/
def KeyOk (k : Kernel) (inp : Byte) : Prop :=
  (inp = backspaceKey → 0 < k.term.curSize k.page.currentTerminal) ∧
    (inp = 0x50 → k.term.curSize k.page.currentTerminal
      + (histRow k k.page.currentTerminal (recalledRow histDown k)).length ≤ 127)

theorem keyHandler_down (L : Layout) (k : Kernel) : keyHandler L 0x50 k = downHist L k := by
  unfold keyHandler
  dsimp only
  rw [if_neg (by decide), if_pos (by decide)]

theorem keyHandler_backspace (L : Layout) (k : Kernel) :
    keyHandler L backspaceKey k = termBackspace L k := by
  have hedit : EditKey backspaceKey k :=
    ⟨by decide, .inr (.inr ⟨by decide, by decide, by decide, fun h => absurd h.1 (by decide)⟩)⟩
  have hchar : keyChar L backspaceKey.toNat k = termPutc L 0x08 k := by
    unfold keyChar
    dsimp only
    rw [if_neg (fun h => absurd h.1 (by decide)), if_neg (fun h => absurd h.1 (by decide))]
    split
    · rfl
    · rfl
  rw [keyHandler_prints hedit (by decide) (by decide), hchar]
  rfl

section Keys

variable {L : Layout} {k : Kernel} {t : Term}

theorem LineOk.of_counters {k k' : Kernel} (h : LineOk k t) (hp : k'.term.curPos = k.term.curPos)
    (hs : k'.term.curSize = k.term.curSize) : LineOk k' t := by
  obtain ⟨h0, h1, h2⟩ := h
  exact ⟨by rw [hp]; exact h0, by rw [hp, hs]; exact h1, by rw [hs]; exact h2⟩

/-- **Backspace** keeps the counters in order exactly when the line is not empty. -/
theorem lineOk_backspace_iff (h : LineOk k t) (hcur : k.page.currentTerminal = t) :
    LineOk (termBackspace L k) t ↔ 0 < k.term.curSize t := by
  obtain ⟨h0, h1, h2⟩ := h
  have her := termBackspace_spec (L := L) k hcur
  have hpos : (termBackspace L k).term.curPos t = erasePos k t := by
    rw [her.curPos, Function.update_self]
  have hsize : (AtEnd k t ∧ (termBackspace L k).term.curSize t = k.term.curSize t - 1) ∨
      (¬ AtEnd k t ∧ (termBackspace L k).term.curSize t = k.term.curSize t) := by
    rw [her.curSize]
    by_cases hend : AtEnd k t
    · rw [if_pos hend, Function.update_self]
      exact .inl ⟨hend, rfl⟩
    · rw [if_neg hend]
      exact .inr ⟨hend, rfl⟩
  unfold erasePos at hpos
  unfold AtEnd at hsize
  refine ⟨?_, ?_⟩
  · -- on an empty line the size turns negative
    intro h'
    have h3 := h'.pos
    have h4 := h'.le
    omega
  · intro hne
    refine ⟨?_, ?_, ?_⟩
    · rw [hpos]
      split <;> omega
    · rw [hpos]
      split <;> omega
    · omega

/-- **Down** keeps them in order exactly when there is room for what it adds. -/
theorem lineOk_down_iff (h : LineOk k t) (hcur : k.page.currentTerminal = t) (hh : HistOk k t) :
    LineOk (downHist L k) t ↔
      k.term.curSize t + (histRow k t (recalledRow histDown k)).length ≤ 127 := by
  obtain ⟨h0, h1, h2⟩ := h
  have hspec := histStep_spec (L := L) browsed_histDown false hcur
    (hh.recalled hcur HistKept.histDown)
  have hbase : (if (histRow k t (recalledRow histDown k)).length = 0 then k
      else recallBase t false k) = k := by
    split
    · rfl
    · rfl
  rw [hbase] at hspec
  have hp : (downHist L k).term.curPos t = _ := hspec.curPos
  have hs : (downHist L k).term.curSize t = _ := hspec.curSize
  refine ⟨?_, fun hroom => ⟨?_, ?_, ?_⟩⟩
  · intro h'
    rw [← hs]
    exact h'.room
  · omega
  · omega
  · omega

/-- **Up** starts from an empty line. -/
theorem lineOk_up (h : LineOk k t) (hcur : k.page.currentTerminal = t) (hh : HistOk k t) :
    LineOk (upHist L k) t := by
  obtain ⟨h0, h1, h2⟩ := h
  have hlen := hh.recalled hcur HistKept.histUp
  have hspec := histStep_spec (L := L) browsed_histUp true hcur hlen
  have hp : (upHist L k).term.curPos t = _ := hspec.curPos
  have hs : (upHist L k).term.curSize t = _ := hspec.curSize
  simp only [bufSize] at hlen
  by_cases hnil : (histRow k t (recalledRow histUp k)).length = 0
  · rw [if_pos hnil] at hp hs
    exact ⟨by omega, by omega, by omega⟩
  · rw [if_neg hnil] at hp hs
    have hp0 : (recallBase t true k).term.curPos t = 0 := Function.update_self ..
    have hs0 : (recallBase t true k).term.curSize t = 0 := Function.update_self ..
    exact ⟨by omega, by omega, by omega⟩

theorem lineOk_left (h : LineOk k t) (hcur : k.page.currentTerminal = t) :
    LineOk (termMoveLeft k) t := by
  obtain ⟨h0, h1, h2⟩ := h
  have hmove := termMoveLeft_spec k hcur
  have hp : (termMoveLeft k).term.curPos t = leftPos k t := by
    rw [hmove.curPos, Function.update_self]
  have hle : leftPos k t ≤ k.term.curPos t := by
    unfold leftPos
    split <;> omega
  have hnonneg := leftPos_nonneg h0
  exact ⟨by omega, by rw [hmove.curSize]; omega, by rw [hmove.curSize]; exact h2⟩

theorem lineOk_right (h : LineOk k t) (hcur : k.page.currentTerminal = t) :
    LineOk (termMoveRight k) t := by
  obtain ⟨h0, h1, h2⟩ := h
  have hmove := termMoveRight_spec k hcur
  have hp : (termMoveRight k).term.curPos t = rightPos k t := by
    rw [hmove.curPos, Function.update_self]
  have hle : rightPos k t ≤ k.term.curSize t := by
    unfold rightPos
    split <;> omega
  have hnonneg := rightPos_nonneg h0
  exact ⟨by omega, by rw [hmove.curSize]; omega, by rw [hmove.curSize]; exact h2⟩

theorem lineOk_insert (h : LineOk k t) (hcur : k.page.currentTerminal = t) (c : Byte)
    (hroom : k.term.curSize t < bufSize - 1) : LineOk (termInsert L c k) t := by
  obtain ⟨h0, h1, h2⟩ := h
  have hins := termInsert_spec (L := L) c k hcur
  have hp : (termInsert L c k).term.curPos t = k.term.curPos t + 1 := by
    rw [hins.curPos, Function.update_self]
  have hs : (termInsert L c k).term.curSize t = k.term.curSize t + 1 := by
    rw [hins.curSize, Function.update_self]
  simp only [bufSize] at hroom
  exact ⟨by omega, by omega, by omega⟩

/-- A line that is empty is in order. -/
theorem lineOk_empty (hp : k.term.curPos t = 0) (hs : k.term.curSize t = 0) : LineOk k t :=
  ⟨by omega, by omega, by omega⟩

theorem lineOk_enter (hcur : k.page.currentTerminal = t) : LineOk (termEnter k) t := by
  subst hcur
  exact lineOk_empty (by simp [termEnter]) (by simp [termEnter])

theorem lineOk_init (hcur : k.page.currentTerminal = t) : LineOk (termInit k) t := by
  subst hcur
  rw [termInit_eq]
  exact lineOk_empty (by simp) (by simp)

/-- **Any other key** keeps them in order. -/
theorem lineOk_other (h : LineOk k t) (hcur : k.page.currentTerminal = t) (hh : HistOk k t)
    {inp : Byte} (hbs : inp ≠ backspaceKey) (hdown : inp ≠ 0x50) :
    LineOk (keyHandler L inp k) t := by
  have he := keyHandler_effect L inp k
  generalize keyHandler L inp k = k' at he
  cases he with
  | flags keys _ => exact h.of_counters rfl rfl
  | left _ => exact lineOk_left h hcur
  | right _ => exact lineOk_right h hcur
  | switch u _ => exact h.of_counters (by rw [switchTo_term]) (by rw [switchTo_term])
  | down _ hd => exact absurd hd hdown
  | up _ _ => exact lineOk_up h hcur hh
  | clear _ _ => exact lineOk_init ((Shows.termClear rfl).current.trans hcur)
  | enter _ _ => exact lineOk_enter hcur
  | backspace _ hb => exact absurd hb hbs
  | insert c _ _ _ hroom =>
      rw [hcur] at hroom
      exact lineOk_insert h hcur c hroom
  | full _ _ => exact h

/-- **One key.** It leaves the counters in order exactly when it is `KeyOk`. -/
theorem lineOk_key_iff (h : LineOk k t) (hcur : k.page.currentTerminal = t) (hh : HistOk k t)
    (inp : Byte) : LineOk (keyHandler L inp k) t ↔ KeyOk k inp := by
  unfold KeyOk
  rw [hcur]
  by_cases hbs : inp = backspaceKey
  · subst hbs
    rw [keyHandler_backspace, lineOk_backspace_iff h hcur]
    exact ⟨fun hpos => ⟨fun _ => hpos, fun hd => absurd hd (by decide)⟩, fun hok => hok.1 rfl⟩
  · by_cases hdown : inp = 0x50
    · subst hdown
      rw [keyHandler_down, lineOk_down_iff h hcur hh]
      exact ⟨fun hroom => ⟨fun hb => absurd hb hbs, fun _ => hroom⟩, fun hok => hok.2 rfl⟩
    · exact ⟨fun _ => ⟨fun hb => absurd hb hbs, fun hd => absurd hd hdown⟩,
        fun _ => lineOk_other h hcur hh hbs hdown⟩

/-! No key stores outside the row. -/

theorem histStep_line {move : Term → Kernel → Kernel} (hmove : ∀ t k, Browsed k (move t k))
    (reset : Bool) (hcur : k.page.currentTerminal = t)
    (hlen : (histRow k t (recalledRow move k)).length < bufSize) {i : Int} (hi : ¬ InRow i) :
    (histStep L move reset k).line t i = k.line t i := by
  have hspec := histStep_spec (L := L) hmove reset hcur hlen
  have hbase : ∀ j, (if (histRow k t (recalledRow move k)).length = 0 then k
      else recallBase t reset k).line t j = k.line t j := by
    intro j
    split
    · rfl
    · exact congrFun (recallBase_frame t reset k).2.1 _
  unfold InRow at hi
  rw [hspec.line, if_neg (by omega), hbase]

theorem termInit_line {k k1 : Kernel} (hdrawn : Shows t k k1) (hcur : k.page.currentTerminal = t)
    {i : Int} (hi : ¬ InRow i) : (termInit k1).line t i = k.line t i := by
  have hcounters : ∀ (k : Kernel) (u : Term) (p n : Int),
      ((k.setCurPos u p).setCurSize u n).term.buffer = k.term.buffer := fun _ _ _ _ => rfl
  have hwrite : ∀ (k : Kernel) (u : Term) (x y : Int),
      ((k.setWriteX u x).setWriteY u y).term.buffer = k.term.buffer := fun _ _ _ _ => rfl
  have hblank := blankLine_line t bufSize k1 i
  unfold InRow at hi
  unfold Kernel.line at hblank ⊢
  rw [termInit_eq, hwrite, hcounters, hdrawn.current.trans hcur, hblank, if_neg hi, hdrawn.buffer]

/-- **No key stores outside the row**, from a state that is in order. -/
theorem key_line (h : LineOk k t) (hcur : k.page.currentTerminal = t) (hh : HistOk k t) (inp : Byte)
    {i : Int} (hi : ¬ InRow i) : (keyHandler L inp k).line t i = k.line t i := by
  obtain ⟨h0, h1, h2⟩ := h
  have hout : i < 0 ∨ 128 ≤ i := by
    unfold InRow at hi
    simp only [bufSize] at hi
    omega
  have he := keyHandler_effect L inp k
  generalize keyHandler L inp k = k' at he
  cases he with
  | flags keys _ => rfl
  | left _ => exact congrFun (termMoveLeft_spec k hcur).buffer _
  | right _ => exact congrFun (termMoveRight_spec k hcur).buffer _
  | switch u _ =>
      unfold Kernel.line
      rw [switchTo_term]
  | down _ _ =>
      unfold downHist
      exact histStep_line browsed_histDown false hcur (hh.recalled hcur HistKept.histDown) hi
  | up _ _ =>
      unfold upHist
      exact histStep_line browsed_histUp true hcur (hh.recalled hcur HistKept.histUp) hi
  | clear _ _ => exact termInit_line (Shows.termClear hcur) hcur hi
  | enter _ _ =>
      have hline := termEnter_line k i
      rw [hcur, if_neg (by omega)] at hline
      exact hline
  | backspace _ _ =>
      -- a position in the row or right behind it, and Backspace goes one back
      rw [(termBackspace_spec (L := L) k hcur).line, if_neg]
      unfold erasePos
      split <;> omega
  | insert c _ _ hp hs =>
      rw [hcur] at hp hs
      simp only [bufSize] at hp hs
      rw [(termInsert_spec (L := L) c k hcur).line, if_neg (by omega), if_neg (by omega)]
  | full _ _ => rfl

end Keys

/-! ## Every run -/

/-- The same machine with other bytes in the lines. -/
def withBuffer (k : Kernel) (b : Int → Byte) : Kernel :=
  { k with term := { k.term with buffer := b } }

/-- The key stores at index `i` of the line of `t`: some byte there does not survive it. -/
def WritesLine (L : Layout) (inp : Byte) (k : Kernel) (t : Term) (i : Int) : Prop :=
  Writes (fun b => (keyHandler L inp (withBuffer k b)).term.buffer) (Kernel.lineAddr t i)

theorem writesLine_inRow {L : Layout} {k : Kernel} {t : Term} (h : LineOk k t)
    (hcur : k.page.currentTerminal = t) (hh : HistOk k t) {inp : Byte} {i : Int}
    (hw : WritesLine L inp k t i) : InRow i := by
  by_contra hi
  obtain ⟨b, hb⟩ := hw
  exact hb (key_line (k := withBuffer k b) ⟨h.pos, h.le, h.room⟩ hcur ⟨hh.place, hh.rows⟩ inp hi)

/-- A key that is struck while terminal `t` is on display. -/
def KeyStep (L : Layout) (t : Term) (k : Kernel) (inp : Byte) (k' : Kernel) : Prop :=
  k.page.currentTerminal = t ∧ keyHandler L inp k = k'

/--
**The indices of the line editor.** From `term_init` on, whatever is typed on a terminal
and whatever its history, as long as Backspace is not struck on an empty line and Down not
where its command does not fit behind the line: the counters are in order, and no store is
outside the row. And the first key that is one of the two puts them out of order.
-/
theorem line_indices_kept {L : Layout} {k₀ k : Kernel} {t : Term} {inps : List Byte}
    (hcur : k₀.page.currentTerminal = t) (hhist : HistOk k₀ t)
    (hrun : Run (Guarded (KeyStep L t) KeyOk) (termInit k₀) inps k) :
    LineOk k t ∧ (k.page.currentTerminal = t → ∀ inp,
      (∀ i, WritesLine L inp k t i → InRow i) ∧ (LineOk (keyHandler L inp k) t ↔ KeyOk k inp)) := by
  have hinit : HistOk (termInit k₀) t := hhist.kept (HistKept.frame.termInit k₀)
  obtain ⟨hline, hh⟩ : LineOk k t ∧ HistOk k t := by
    refine hrun.invariant (I := fun k => LineOk k t ∧ HistOk k t) ⟨lineOk_init hcur, hinit⟩ ?_
    intro k inp _ hstep hk
    obtain ⟨hok, hshown, rfl⟩ := hstep
    exact ⟨(lineOk_key_iff hk.1 hshown hk.2 inp).mpr hok, hk.2.keyHandler L inp⟩
  exact ⟨hline, fun hshown inp =>
    ⟨fun i hw => writesLine_inRow hline hshown hh hw, lineOk_key_iff hline hshown hh inp⟩⟩

/-- Enter stores at the size, wherever that is. -/
theorem writesLine_enter {L : Layout} {k : Kernel} {t : Term} (hcur : k.page.currentTerminal = t) :
    WritesLine L enterKey k t (k.term.curSize t) := by
  refine Writes.of_const (b := 0x0A) ?_
  intro b
  have hline := termEnter_line (withBuffer k b) (k.term.curSize t)
  rw [← keyHandler_enter L] at hline
  subst hcur
  exact hline.trans (if_pos rfl)

theorem histOk_zero (t : Term) : HistOk Kernel.zero t := by
  refine ⟨⟨Int.le_refl 0, Int.ofNat_lt.mpr (by decide : 0 < histSize)⟩, ?_⟩
  intro row _ _
  rw [histRow_eq_nil_iff.mpr rfl]
  decide

/-- A letter on a fresh machine, and Backspace after it. -/
theorem line_indices_letter :
    LineOk (keyHandler someLayout backspaceKey
      (keyHandler someLayout 0x1E (termInit Kernel.zero))) 0 := by
  have hletter : KeyOk (termInit Kernel.zero) 0x1E :=
    ⟨fun h => absurd h (by decide), fun h => absurd h (by decide)⟩
  have hbs : KeyOk (keyHandler someLayout 0x1E (termInit Kernel.zero)) backspaceKey :=
    ⟨fun _ => by decide, fun h => absurd h (by decide)⟩
  have hrun : Run (Guarded (KeyStep someLayout 0) KeyOk) (termInit Kernel.zero) [0x1E, backspaceKey]
      (keyHandler someLayout backspaceKey (keyHandler someLayout 0x1E (termInit Kernel.zero))) :=
    .snoc (.snoc .nil ⟨hletter, rfl, rfl⟩) ⟨hbs, rfl, rfl⟩
  exact (line_indices_kept rfl (histOk_zero 0) hrun).1

/--
Backspace on the empty line of a fresh machine makes the size negative, and Enter
then stores its newline before the row.
-/
theorem line_indices_negative :
    HistOk Kernel.zero 0 ∧
      ¬ LineOk (keyHandler someLayout backspaceKey (termInit Kernel.zero)) 0 ∧
      WritesLine someLayout enterKey
        (keyHandler someLayout backspaceKey (termInit Kernel.zero)) 0 (-1) := by
  have hok := lineOk_init (k := Kernel.zero) (t := 0) rfl
  have hcur : (termInit Kernel.zero).page.currentTerminal = 0 := rfl
  have hsize : (termBackspace someLayout (termInit Kernel.zero)).term.curSize 0 = -1 := by
    rw [(termBackspace_spec (t := 0) (termInit Kernel.zero) hcur).curSize]
    decide
  rw [keyHandler_backspace]
  refine ⟨histOk_zero 0, ?_, ?_⟩
  · intro h
    exact absurd ((lineOk_backspace_iff hok hcur).mp h) (by decide)
  · rw [← hsize]
    exact writesLine_enter rfl

end Zbiggie.Proof
