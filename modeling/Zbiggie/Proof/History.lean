import Zbiggie.Machine.Ring
import Zbiggie.Proof.CommandLine
import Zbiggie.Proof.LineIndex

/-!
# The history

Fifty rows to a terminal, of which `save_hist` fills every other one, round and round. It fills
the row of the terminal *on display*, and it fills it as far as the command goes.

Up and Down look for the nearest row that is not empty, so that after any number of saves Up
goes through the last 25 commands and starts over. On the rows the two are inverse to each
other, because the nearest place on a ring is. On the line they are not: Down counts what it
recalls on top of what was there.
-/

namespace Zbiggie.Proof

open Zbiggie Machine

/-! ## Saving -/

/-- What of a command is saved: up to its newline. -/
def commandText (cmd : List Byte) : List Byte := cmd.takeWhile inLine

/-- Where a row of the history starts. -/
def rowAddr (t : Term) (row : Int) : Int := (histSize * (t : Nat) + row) * bufSize

/-- The row behind the bottom of the history. -/
def freshRow (k : Kernel) (t : Term) : Int := (k.term.histBottomIndeces t + 1) % histSize

theorem hist_eq (k : Kernel) (t : Term) (row i : Int) :
    k.hist t row i = k.term.history (rowAddr t row + i) := rfl

/-- **The copying loop of `save_hist`**, which the row does not bound. -/
theorem saveHistCopy_apply (row : Int) : ∀ (cmd : List Byte) (i : Nat) (h : Int → Byte) (a : Int),
    saveHistCopy row cmd i h a =
      if row + i ≤ a ∧ a < row + i + (commandText cmd).length then
        (commandText cmd).getD (a - (row + i)).toNat 0 else h a := by
  intro cmd
  induction cmd with
  | nil =>
      intro i h a
      rw [if_neg (by simp [commandText])]
      rfl
  | cons c cs ih =>
      intro i h a
      rw [saveHistCopy]
      by_cases hc : c ≠ 0x0A ∧ c ≠ 0
      · have htext : commandText (c :: cs) = c :: commandText cs :=
          List.takeWhile_cons_of_pos (decide_eq_true ⟨hc.2, hc.1⟩)
        rw [if_pos hc, ih, htext, List.length_cons]
        rcases lt_trichotomy a (row + i) with hlt | rfl | hgt
        · rw [if_neg (by omega), if_neg (by omega), Function.update_of_ne (by omega)]
        · rw [if_neg (by omega), if_pos (by omega), Function.update_self, sub_self]
          rfl
        · obtain ⟨j, hj⟩ : ∃ j : Nat, a = row + i + 1 + j := ⟨(a - (row + i + 1)).toNat, by omega⟩
          rw [show (a - (row + (i + 1 : Nat))).toNat = j by omega,
            show (a - (row + i)).toNat = j + 1 by omega, List.getD_cons_succ,
            Function.update_of_ne (by omega)]
          by_cases hin : j < (commandText cs).length
          · rw [if_pos (by omega), if_pos (by omega)]
          · rw [if_neg (by omega), if_neg (by omega)]
      · have htext : commandText (c :: cs) = [] :=
          List.takeWhile_cons_of_neg (by
            intro hin
            have := of_decide_eq_true hin
            exact hc ⟨this.2, this.1⟩)
        rw [if_neg hc, htext, if_neg (by simp)]

theorem clearRow_apply (row : Int) (h : Int → Byte) (n : Nat) (a : Int) :
    forLoop n (fun i h => Function.update h (row + i) (0 : Byte)) h a
      = if row ≤ a ∧ a < row + n then 0 else h a := by
  refine forLoop_inv
    (P := fun i (h' : Int → Byte) => h' a = if row ≤ a ∧ a < row + i then 0 else h a)
    (by rw [if_neg (by omega)]) n ?_
  intro i h' _ ih
  by_cases ha : a = row + i
  · rw [ha, Function.update_self, if_pos (by omega)]
  · rw [Function.update_of_ne ha, ih]
    by_cases hin : row ≤ a ∧ a < row + i
    · rw [if_pos hin, if_pos (by omega)]
    · rw [if_neg hin, if_neg (by omega)]

/-- **`save_hist`**, byte by byte. -/
theorem saveHist_history (cmd : List Byte) (k : Kernel) {t : Term}
    (hcur : k.page.currentTerminal = t) (a : Int) :
    (saveHist cmd k).term.history a =
      if rowAddr t (freshRow k t) ≤ a ∧
          a < rowAddr t (freshRow k t) + (commandText cmd).length then
        (commandText cmd).getD (a - rowAddr t (freshRow k t)).toNat 0
      else if rowAddr t (freshRow k t) ≤ a ∧ a < rowAddr t (freshRow k t) + bufSize then 0
      else k.term.history a := by
  subst hcur
  have hcopy := saveHistCopy_apply (rowAddr k.page.currentTerminal
    (freshRow k k.page.currentTerminal)) cmd 0 (forLoop bufSize
      (fun i h => Function.update h (rowAddr k.page.currentTerminal
        (freshRow k k.page.currentTerminal) + i) (0 : Byte)) k.term.history) a
  rw [Nat.cast_zero, add_zero, clearRow_apply] at hcopy
  exact hcopy

/-- The two indices stand behind the row that was filled. -/
def nextFresh (k : Kernel) (t : Term) : Int := (freshRow k t + 1) % histSize

/--
What saving a command of a process on terminal `t` is to do: the text of the command, cut to
fit and terminated, in the row behind the bottom of `t`, and the two indices of `t` behind it.
-/
structure SavesOnly (t : Term) (cmd : List Byte) (k k' : Kernel) : Prop where
  row : ∀ j : Nat, j < bufSize →
    k'.hist t (freshRow k t) j = cstr ((commandText cmd).take (bufSize - 1)) j
  others : ∀ a, ¬ (rowAddr t (freshRow k t) ≤ a ∧ a < rowAddr t (freshRow k t) + bufSize) →
    k'.term.history a = k.term.history a
  bottom : k'.term.histBottomIndeces = Function.update k.term.histBottomIndeces t (nextFresh k t)
  index : k'.term.histIndeces = Function.update k.term.histIndeces t (nextFresh k t)

/-- A command that fits, on the terminal on display. -/
theorem saveHist_saves {cmd : List Byte} {k : Kernel} {t : Term}
    (hcur : k.page.currentTerminal = t) (hlen : (commandText cmd).length < bufSize) :
    SavesOnly t cmd k (saveHist cmd k) := by
  have hhist := saveHist_history cmd k hcur
  refine ⟨?_, ?_, ?_, ?_⟩
  · intro j hj
    rw [List.take_of_length_le (by omega), hist_eq, hhist]
    unfold cstr
    rw [add_sub_cancel_left, Int.toNat_natCast]
    by_cases hin : j < (commandText cmd).length
    · rw [if_pos (by omega)]
    · rw [if_neg (by omega), if_pos (by omega), List.getD_eq_default _ _ (by omega)]
  · intro a ha
    rw [hhist, if_neg (by omega), if_neg ha]
  · subst hcur
    rfl
  · subst hcur
    rfl

/-- The bottom that moves is the one of the terminal on display. -/
theorem SavesOnly.shown {cmd : List Byte} {k : Kernel} {t : Term}
    (h : SavesOnly t cmd k (saveHist cmd k)) : k.page.currentTerminal = t := by
  by_contra hne
  have hbottom := congrFun h.bottom k.page.currentTerminal
  rw [Function.update_of_ne hne] at hbottom
  have hmoved : (saveHist cmd k).term.histBottomIndeces k.page.currentTerminal
      = nextFresh k k.page.currentTerminal := Function.update_self ..
  rw [hmoved] at hbottom
  unfold nextFresh freshRow at hbottom
  simp only [histSize] at hbottom
  omega

/-- A command that fills the row leaves no room for the terminator. -/
theorem SavesOnly.fits {cmd : List Byte} (h0 : 0 ∉ cmd) {k : Kernel} {t : Term}
    (h : SavesOnly t cmd k (saveHist cmd k)) : (commandText cmd).length < bufSize := by
  have hsize : bufSize = 128 := rfl
  by_contra hlong
  have hlast := h.row 127 (by decide)
  have hnul : cstr ((commandText cmd).take (bufSize - 1)) 127 = 0 := by
    unfold cstr
    rw [List.getD_eq_default _ _ (by rw [List.length_take]; omega)]
  have hin : (commandText cmd).getD 127 0 ∈ commandText cmd := by
    rw [List.getD_eq_getElem _ _ (by omega)]
    exact List.getElem_mem _
  rw [hist_eq, saveHist_history cmd k h.shown, if_pos (by omega), add_sub_cancel_left, hnul,
    Int.toNat_natCast] at hlast
  rw [hlast] at hin
  exact h0 ((List.takeWhile_sublist _).mem hin)

/--
**The frame of the history.** Whatever the command, its length, the terminal of the process
that executes it and the one on display: the command goes to a row of its own terminal and
nowhere else exactly when that terminal is the one on display and the command, up to its
newline, is shorter than a row.
-/
theorem save_hist_frame_iff {cmd : List Byte} (h0 : 0 ∉ cmd) (k : Kernel) :
    SavesOnly k.task.currentActiveProcess cmd k (saveHist cmd k) ↔
      k.page.currentTerminal = k.task.currentActiveProcess ∧
        (commandText cmd).length < bufSize :=
  ⟨fun h => ⟨h.shown, h.fits h0⟩, fun h => saveHist_saves h.1 h.2⟩

/-- "ls", from the terminal on display. -/
theorem save_hist_frame_ls :
    SavesOnly 0 [0x6C, 0x73, 0x0A] .zero (saveHist [0x6C, 0x73, 0x0A] .zero) :=
  (save_hist_frame_iff (by decide) .zero).mpr ⟨rfl, by decide⟩

/--
"a", executed on terminal `1` while terminal `0` is on display; and 128 bytes, executed on
the terminal on display.
-/
theorem save_hist_frame_fails :
    (¬ SavesOnly 1 [0x61]
        { Kernel.zero with task := { Kernel.zero.task with currentActiveProcess := 1 } }
        (saveHist [0x61]
          { Kernel.zero with task := { Kernel.zero.task with currentActiveProcess := 1 } })) ∧
      ¬ SavesOnly 0 (List.replicate 128 0x61) .zero (saveHist (List.replicate 128 0x61) .zero) := by
  refine ⟨fun h => absurd h.shown (by decide), ?_⟩
  intro h
  have hfits := h.fits fun hin => absurd (List.eq_of_mem_replicate hin) (by decide)
  have hall : commandText (List.replicate 128 0x61) = List.replicate 128 0x61 := by
    refine List.takeWhile_eq_self_iff.mpr ?_
    intro c hc
    rw [List.eq_of_mem_replicate hc]
    decide
  rw [hall, List.length_replicate] at hfits
  exact absurd hfits (by decide)

/-! ## Browsing -/

/-- A row that holds a command. -/
def Occupied (k : Kernel) (t : Term) (row : Int) : Prop := k.hist t row 0 ≠ 0

instance (k : Kernel) (t : Term) : DecidablePred (Occupied k t) := fun row => by
  unfold Occupied
  infer_instance

section Rows

variable {k k' : Kernel} {t : Term}

theorem histRow_of_history (hh : k'.term.history = k.term.history) (row : Int) :
    histRow k' t row = histRow k t row := by
  unfold histRow Kernel.hist
  rw [hh]

theorem occupied_of_history (hh : k'.term.history = k.term.history) :
    Occupied k' t = Occupied k t := by
  funext row
  unfold Occupied Kernel.hist
  rw [hh]

theorem occupied_iff {row : Int} : Occupied k t row ↔ histRow k t row ≠ [] := by
  unfold Occupied
  rw [ne_eq, ne_eq, ← histRow_eq_nil_iff, List.length_eq_zero_iff]

end Rows

/-- The command the history stands at. -/
def standsAt (k : Kernel) (t : Term) : List Byte := histRow k t (k.term.histIndeces t)

/-- A move by `s` rows around the history. -/
structure MovesBy (move : Term → Kernel → Kernel) (s : Int) : Prop where
  browsed : ∀ t k, Browsed k (move t k)
  kept : ∀ t k, HistKept k (move t k)
  index : ∀ t k, InHist k t →
    (move t k).term.histIndeces t = (k.term.histIndeces t + s) % histSize

theorem movesBy_up : MovesBy histUp (-1) := by
  refine ⟨browsed_histUp, HistKept.histUp, ?_⟩
  intro t k h
  obtain ⟨h0, h1⟩ := h
  have hindex : (k.setHistIndex t (k.term.histIndeces t - 1)).term.histIndeces t
      = k.term.histIndeces t - 1 := Function.update_self ..
  have hlast : ((k.setHistIndex t (k.term.histIndeces t - 1)).setHistIndex t
      (histSize - 1)).term.histIndeces t = histSize - 1 := Function.update_self ..
  unfold histUp
  dsimp only
  rw [hindex]
  simp only [histSize] at *
  split
  · rw [hlast]
    omega
  · rw [hindex]
    omega

theorem movesBy_down : MovesBy histDown 1 :=
  ⟨browsed_histDown, HistKept.histDown, fun _ _ _ => Function.update_self ..⟩

section Search

variable {move : Term → Kernel → Kernel} {s : Int} {L : Layout} {t : Term}

/-- **Skipping the empty rows** is a search of the ring. -/
theorem MovesBy.skip (hm : MovesBy move s) (fuel : Nat) (k : Kernel) (h : InHist k t) :
    (histSkip move t fuel k).term.histIndeces t
      = ringSearch histSize (Occupied k t) s fuel (k.term.histIndeces t) := by
  induction fuel generalizing k with
  | zero => rfl
  | succ fuel ih =>
      have hsame := occupied_of_history (t := t) (hm.browsed t k).history
      unfold histSkip ringSearch
      by_cases hz : k.hist t (k.term.histIndeces t) 0 = 0
      · rw [if_pos hz, if_neg (show ¬ Occupied k t _ from not_not.mpr hz),
          ih _ ((hm.kept t k).place t h), hm.index t k h]
        congr
      · rw [if_neg hz, if_pos (show Occupied k t _ from hz)]

/-- The row recalled is the nearest one that holds a command. -/
theorem MovesBy.recalled (hm : MovesBy move s) {k : Kernel} (hcur : k.page.currentTerminal = t)
    (h : InHist k t) {q : Int} {d : Nat}
    (hq : Nearest histSize (Occupied k t) s (k.term.histIndeces t) q d) :
    recalledRow move k = q := by
  have hsame := occupied_of_history (t := t) (hm.browsed t k).history
  unfold recalledRow
  rw [hcur, hm.skip histSize (move t k) ((hm.kept t k).place t h), hm.index t k h]
  refine Eq.trans ?_ hq.search
  congr

/-- Nothing but the line and the screen. -/
def SameHist (k k' : Kernel) : Prop :=
  k'.page = k.page ∧ k'.term.history = k.term.history ∧ k'.term.histIndeces = k.term.histIndeces

theorem SameHist.frame : LineFrame SameHist where
  refl := fun _ => ⟨rfl, rfl, rfl⟩
  trans := fun h h' => ⟨h'.1.trans h.1, h'.2.1.trans h.2.1, h'.2.2.trans h.2.2⟩
  setLine := fun _ _ _ _ => ⟨rfl, rfl, rfl⟩
  setCurPos := fun _ _ _ => ⟨rfl, rfl, rfl⟩
  setCurSize := fun _ _ _ => ⟨rfl, rfl, rfl⟩
  setPrevSize := fun _ _ _ => ⟨rfl, rfl, rfl⟩
  setWaitForNl := fun _ _ _ => ⟨rfl, rfl, rfl⟩
  setWrite := fun _ _ _ _ => ⟨rfl, rfl, rfl⟩
  shows := fun h => ⟨h.page, h.history, h.histIndeces⟩

/-- Up and Down leave the history at the row they recall. -/
theorem MovesBy.step (hm : MovesBy move s) (reset : Bool) (k : Kernel) :
    (histStep L move reset k).page = k.page ∧
      (histStep L move reset k).term.history = k.term.history ∧
      (histStep L move reset k).term.histIndeces k.page.currentTerminal = recalledRow move k := by
  obtain ⟨k1, -, hb, hrow, hcases⟩ := histStep_cases (L := L) hm.browsed reset (k := k) rfl
  have hsame : SameHist k1 (histStep L move reset k) := by
    rcases hcases with ⟨-, hstep⟩ | ⟨-, hstep⟩
    · rw [hstep]
      exact SameHist.frame.refl k1
    · rw [hstep]
      exact SameHist.frame.histRecall _ reset k1
  rw [hrow]
  exact ⟨hsame.1.trans hb.unedited.page, hsame.2.1.trans hb.history, congrFun hsame.2.2 _⟩

end Search

/-- The two keys. -/
inductive Browse where
  | up
  | down
deriving DecidableEq

namespace Browse

def dir : Browse → Int
  | .up => -1
  | .down => 1

def opposite : Browse → Browse
  | .up => .down
  | .down => .up

/-- `up_hist()` or `down_hist()`. -/
def run (L : Layout) : Browse → Kernel → Kernel
  | .up => upHist L
  | .down => downHist L

/-- Only `up_hist` starts from an empty line. -/
def reset : Browse → Bool
  | .up => true
  | .down => false

def move : Browse → Term → Kernel → Kernel
  | .up => histUp
  | .down => histDown

theorem run_eq (L : Layout) (a : Browse) (k : Kernel) :
    a.run L k = histStep L a.move a.reset k := by
  cases a <;> rfl

theorem movesBy (a : Browse) : MovesBy a.move a.dir := by
  cases a
  · exact movesBy_up
  · exact movesBy_down

end Browse

/-- A history in order, with a command in it, of the terminal on display. -/
structure Stocked (k : Kernel) (t : Term) : Prop where
  shown : k.page.currentTerminal = t
  ok : HistOk k t
  some : ∃ row : Int, 0 ≤ row ∧ row < histSize ∧ Occupied k t row

/-- What is counted of the line before a key. -/
def counted (a : Browse) (n : Int) : Int :=
  match a with
  | .up => 0
  | .down => n

/-- What a key did: it went to a row that holds a command, and recalled it. -/
structure Recalls (k k' : Kernel) (t : Term) (a : Browse) (q : Int) : Prop where
  history : k'.term.history = k.term.history
  index : k'.term.histIndeces t = q
  curPos : k'.term.curPos t = counted a (k.term.curPos t) + (histRow k t q).length
  curSize : k'.term.curSize t = counted a (k.term.curSize t) + (histRow k t q).length
  line : ∀ j : Nat, j < (histRow k t q).length → k'.line t j = cstr (histRow k t q) j

section Keys

variable {k k' : Kernel} {t : Term}

theorem Stocked.nearest (h : Stocked k t) (a : Browse) :
    ∃ q d, Nearest histSize (Occupied k t) a.dir (k.term.histIndeces t) q d := by
  obtain ⟨row, h0, h1, hocc⟩ := h.some
  refine Nearest.exists ?_ hocc h0 h1
  cases a
  · exact .inr rfl
  · exact .inl rfl

/-- **One key.** -/
theorem Stocked.recalls (h : Stocked k t) (L : Layout) (a : Browse) {q : Int} {d : Nat}
    (hq : Nearest histSize (Occupied k t) a.dir (k.term.histIndeces t) q d) :
    Recalls k (a.run L k) t a q ∧ Stocked (a.run L k) t := by
  have hrow := a.movesBy.recalled h.shown h.ok.place hq
  have hspec := histStep_spec (L := L) a.movesBy.browsed a.reset h.shown
    (h.ok.recalled h.shown a.movesBy.kept)
  obtain ⟨hpage, hhist, hidx⟩ := a.movesBy.step (L := L) a.reset k
  have hsome : (histRow k t q).length ≠ 0 := fun hz =>
    occupied_iff.mp hq.occupied (List.length_eq_zero_iff.mp hz)
  rw [hrow, if_neg hsome, ← a.run_eq] at hspec
  rw [← a.run_eq] at hpage hhist hidx
  rw [h.shown, hrow] at hidx
  refine ⟨⟨hhist, hidx, ?_, ?_, ?_⟩, ?_, ?_, ?_⟩
  · rw [hspec.curPos]
    cases a
    · exact congrArg (· + _) (Function.update_self ..)
    · rfl
  · rw [hspec.curSize]
    cases a
    · exact congrArg (· + _) (Function.update_self ..)
    · rfl
  · intro j hj
    rw [hspec.line, if_pos (by omega), Int.toNat_natCast]
  · rw [hpage]
    exact h.shown
  · have hplace : 0 ≤ q ∧ q < histSize := by
      rw [hq.place]
      exact ⟨Int.emod_nonneg _ (by decide), Int.emod_lt_of_pos _ (by decide)⟩
    refine ⟨by unfold InHist; rwa [hidx], ?_⟩
    intro row h0 h1
    rw [histRow_of_history hhist]
    exact h.ok.rows row h0 h1
  · rw [occupied_of_history hhist]
    exact h.some

end Keys

/-! ## After any number of saves -/

/-- The history of a terminal on display that has not been used. -/
structure FreshHist (k : Kernel) (t : Term) : Prop where
  shown : k.page.currentTerminal = t
  bottom : k.term.histBottomIndeces t = 0
  index : k.term.histIndeces t = 0
  rows : ∀ row i : Int, 0 ≤ row → row < histSize → 0 ≤ i → i < bufSize → k.hist t row i = 0

/-- `save_hist` of one command after the other. -/
def saveAll (cs : List (List Byte)) (k : Kernel) : Kernel := cs.foldl (fun k c => saveHist c k) k

/--
The history after `cs` was saved: the last 25 commands in the odd rows, round and round, and
all the other rows empty.
-/
structure Saved (k : Kernel) (t : Term) (cs : List (List Byte)) : Prop where
  shown : k.page.currentTerminal = t
  bottom : k.term.histBottomIndeces t = (2 * cs.length : Nat) % histSize
  index : k.term.histIndeces t = (2 * cs.length : Nat) % histSize
  recent : ∀ m, m < cs.length → cs.length ≤ m + 25 →
    histRow k t (2 * (m % 25 : Nat) + 1) = cs.getD m []
  unused : ∀ i : Nat, i < 25 → cs.length ≤ i → histRow k t (2 * i + 1) = []
  even : ∀ i : Nat, i < 25 → histRow k t (2 * i) = []

section Saves

variable {k : Kernel} {t : Term} {cs : List (List Byte)}

theorem FreshHist.saved (h : FreshHist k t) : Saved k t [] := by
  have hrow : ∀ row : Int, 0 ≤ row → row < histSize → histRow k t row = [] := fun row h0 h1 =>
    List.length_eq_zero_iff.mp (histRow_eq_nil_iff.mpr (h.rows row 0 h0 h1 (by decide) (by decide)))
  refine ⟨h.shown, h.bottom, h.index, fun m hm => absurd hm (Nat.not_lt_zero m), ?_, ?_⟩
  · intro i hi _
    exact hrow _ (by omega) (by simp only [histSize]; omega)
  · intro i hi
    exact hrow _ (by omega) (by simp only [histSize]; omega)

/-- Two rows of one terminal do not meet. -/
theorem rowAddr_apart {r r' : Int} (hne : r ≠ r') {j : Nat} (hj : j < bufSize) :
    ¬ (rowAddr t r ≤ rowAddr t r' + j ∧ rowAddr t r' + j < rowAddr t r + bufSize) := by
  unfold rowAddr
  simp only [bufSize, histSize] at *
  omega

theorem histRow_of_saves {k' : Kernel} {c : List Byte} (h : SavesOnly t c k k') {row : Int}
    (hne : row ≠ freshRow k t) : histRow k' t row = histRow k t row := by
  unfold histRow
  refine upToNul_congr 0 ?_
  intro j _ hj _
  exact h.others _ (rowAddr_apart hne.symm (by omega))

theorem histRow_fresh {k' : Kernel} {c : List Byte} (h : SavesOnly t c k k')
    (hlen : (commandText c).length < bufSize) : histRow k' t (freshRow k t) = commandText c := by
  have htext : 0 ∉ commandText c := by
    intro hin
    have hkept : inLine 0 = true := List.mem_takeWhile_imp hin
    exact absurd hkept (by decide)
  have hall : (commandText c).take (bufSize - 1) = commandText c :=
    List.take_of_length_le (by omega)
  have hread := upToNul_of_reads (m := fun j => k'.hist t (freshRow k t) j) htext (n := bufSize)
    fun j hj _ => by rw [h.row j hj, hall]
  rw [List.take_of_length_le (by omega)] at hread
  exact hread

/-- **Saving one more.** -/
theorem Saved.save (h : Saved k t cs) {c : List Byte} (hlen : (commandText c).length < bufSize) :
    Saved (saveHist c k) t (cs ++ [commandText c]) := by
  have hsaves := saveHist_saves h.shown hlen
  have hfresh : freshRow k t = 2 * (cs.length % 25 : Nat) + 1 := by
    unfold freshRow
    rw [h.bottom]
    simp only [histSize]
    omega
  have hnext : nextFresh k t = (2 * (cs ++ [commandText c]).length : Nat) % histSize := by
    unfold nextFresh
    rw [hfresh, List.length_append, List.length_singleton]
    simp only [histSize]
    omega
  have hrow := histRow_fresh hsaves hlen
  rw [hfresh] at hrow
  refine ⟨h.shown, ?_, ?_, ?_, ?_, ?_⟩
  · rw [hsaves.bottom, Function.update_self, hnext]
  · rw [hsaves.index, Function.update_self, hnext]
  · intro m hm hrecent
    rw [List.length_append, List.length_singleton] at hm hrecent
    by_cases hlast : m = cs.length
    · rw [hlast, hrow, List.getD_append_right _ _ _ _ (Nat.le_refl _), Nat.sub_self]
      rfl
    · rw [histRow_of_saves hsaves (by omega), h.recent m (by omega) (by omega),
        List.getD_append _ _ _ _ (by omega)]
  · intro i hi hle
    rw [List.length_append, List.length_singleton] at hle
    rw [histRow_of_saves hsaves (by omega), h.unused i hi (by omega)]
  · intro i hi
    rw [histRow_of_saves hsaves (by omega), h.even i hi]

/-- **Any number of saves.** -/
theorem Saved.saveAll (h : Saved k t cs) (more : List (List Byte))
    (hlen : ∀ c ∈ more, (commandText c).length < bufSize) :
    Saved (saveAll more k) t (cs ++ more.map commandText) := by
  induction more generalizing k cs with
  | nil =>
      rw [List.map_nil, List.append_nil]
      exact h
  | cons c more ih =>
      have hnext := ih (h.save (hlen c (List.mem_cons_self ..)))
        fun c' hc' => hlen c' (List.mem_cons_of_mem c hc')
      rw [List.append_assoc] at hnext
      exact hnext

/-- The row of the command with number `m`. -/
def commandRow (m : Nat) : Int := 2 * (m % 25 : Nat) + 1

/-- Every row is one of three kinds. -/
theorem Saved.rows (h : Saved k t cs) {row : Int} (h0 : 0 ≤ row) (h1 : row < histSize) :
    histRow k t row = [] ∨ ∃ m, m < cs.length ∧ histRow k t row = cs.getD m [] := by
  simp only [histSize] at h1
  obtain ⟨i, hi, hrow | hrow⟩ : ∃ i : Nat, i < 25 ∧ (row = 2 * i ∨ row = 2 * i + 1) :=
    ⟨(row / 2).toNat, by omega, by omega⟩
  · rw [hrow]
    exact .inl (h.even i hi)
  · by_cases hin : i < cs.length
    · -- the last command that went to this row
      obtain ⟨m, hm⟩ : ∃ m, m = i + 25 * ((cs.length - 1 - i) / 25) := ⟨_, rfl⟩
      have hrecent := h.recent m (by omega) (by omega)
      rw [show m % 25 = i by omega, ← hrow] at hrecent
      exact .inr ⟨m, by omega, hrecent⟩
    · rw [hrow]
      exact .inl (h.unused i hi (by omega))

theorem getD_mem_of_lt {m : Nat} (hm : m < cs.length) : cs.getD m [] ∈ cs := by
  rw [List.getD_eq_getElem _ _ hm]
  exact List.getElem_mem hm

theorem Saved.occupied (h : Saved k t cs) (hcmds : ∀ c ∈ cs, c ≠ []) {m : Nat}
    (hm : m < cs.length) (hrecent : cs.length ≤ m + 25) : Occupied k t (commandRow m) := by
  unfold commandRow
  rw [occupied_iff, h.recent m hm hrecent]
  exact hcmds _ (getD_mem_of_lt hm)

theorem Saved.stocked (h : Saved k t cs) (hne : cs ≠ []) (hcmds : ∀ c ∈ cs, c ≠ [])
    (hlen : ∀ c ∈ cs, c.length < bufSize) : Stocked k t := by
  have hpos : 0 < cs.length := List.length_pos_iff.mpr hne
  refine ⟨h.shown, ⟨?_, ?_⟩, commandRow (cs.length - 1), ?_, ?_, ?_⟩
  · unfold InHist
    rw [h.index]
    exact ⟨Int.emod_nonneg _ (by decide), Int.emod_lt_of_pos _ (by decide)⟩
  · intro row h0 h1
    rcases h.rows h0 h1 with hnil | ⟨m, hm, hrow⟩
    · rw [hnil]
      decide
    · rw [hrow]
      exact hlen _ (getD_mem_of_lt hm)
  · unfold commandRow
    omega
  · unfold commandRow
    simp only [histSize]
    omega
  · exact h.occupied hcmds (by omega) (by omega)

theorem Saved.not_occupied_even (h : Saved k t cs) {row : Int} (h0 : 0 ≤ row) (h1 : row < histSize)
    (heven : row % 2 = 0) : ¬ Occupied k t row := by
  simp only [histSize] at h1
  obtain ⟨i, hi, rfl⟩ : ∃ i : Nat, i < 25 ∧ row = 2 * i := ⟨(row / 2).toNat, by omega, by omega⟩
  exact fun hocc => occupied_iff.mp hocc (h.even i hi)

/-- From behind the last command Up goes to it. -/
theorem Saved.nearest_first (h : Saved k t cs) (hne : cs ≠ []) (hcmds : ∀ c ∈ cs, c ≠ []) :
    Nearest histSize (Occupied k t) (-1) (k.term.histIndeces t) (commandRow (cs.length - 1)) 1 := by
  have hpos : 0 < cs.length := List.length_pos_iff.mpr hne
  refine ⟨Nat.le_refl 1, by decide, ?_, h.occupied hcmds (by omega) (by omega),
    fun e h1 h2 => absurd h1 (by omega)⟩
  rw [h.index]
  unfold commandRow
  simp only [histSize]
  omega

/-- From one command to the one before it there is one empty row. -/
theorem Saved.nearest_older (h : Saved k t cs) (hcmds : ∀ c ∈ cs, c ≠ []) {m : Nat}
    (hm : m + 1 < cs.length) (hrecent : cs.length ≤ m + 25) :
    Nearest histSize (Occupied k t) (-1) (commandRow (m + 1)) (commandRow m) 2 := by
  refine ⟨by decide, by decide, ?_, h.occupied hcmds (by omega) hrecent, ?_⟩
  · unfold commandRow
    simp only [histSize]
    omega
  · intro e h1 h2
    obtain rfl : e = 1 := by omega
    refine h.not_occupied_even (Int.emod_nonneg _ (by decide)) (Int.emod_lt_of_pos _ (by decide)) ?_
    unfold commandRow
    simp only [histSize]
    omega

/-- How many commands are kept. -/
def keptOf (n : Nat) : Nat := Min.min n 25

/-- From the oldest one Up goes on to the last, over the rows that were never used. -/
theorem Saved.nearest_wrap (h : Saved k t cs) (hne : cs ≠ []) (hcmds : ∀ c ∈ cs, c ≠ []) :
    Nearest histSize (Occupied k t) (-1) (commandRow (cs.length - keptOf cs.length))
      (commandRow (cs.length - 1)) (52 - 2 * keptOf cs.length) := by
  have hpos : 0 < cs.length := List.length_pos_iff.mpr hne
  have hkept : keptOf cs.length = Min.min cs.length 25 := rfl
  refine ⟨by omega, by simp only [histSize]; omega, ?_, h.occupied hcmds (by omega) (by omega),
    ?_⟩
  · unfold commandRow
    simp only [histSize]
    omega
  · intro e h1 h2
    by_cases hodd : e % 2 = 1
    · refine h.not_occupied_even (Int.emod_nonneg _ (by decide))
        (Int.emod_lt_of_pos _ (by decide)) ?_
      unfold commandRow
      simp only [histSize]
      omega
    · -- more than two rows apart: the ring is only partly filled
      have hunused := h.unused (25 - e / 2) (by omega) (by omega)
      rw [occupied_iff, not_not, ← hunused]
      congr 1
      unfold commandRow
      simp only [histSize]
      omega

end Saves

/-- Up leaves the command it stands at, and no more. -/
theorem Recalls.lineIs {k k' : Kernel} {t : Term} {q : Int} (h : Recalls k k' t .up q) :
    LineIs k' t (histRow k t q) := by
  refine ⟨?_, ?_, h.line⟩
  · rw [h.curPos]
    exact zero_add _
  · rw [h.curSize]
    exact zero_add _

/-- The number of the command after `j + 1` times Up. -/
def upCommand (n j : Nat) : Nat := n - 1 - j % keptOf n

/-- From one Up to the next: to the command before, or from the oldest to the last. -/
theorem upCommand_succ {n : Nat} (hn : 0 < n) (j : Nat) :
    (upCommand n j = upCommand n (j + 1) + 1 ∧ n ≤ upCommand n (j + 1) + 25) ∨
      (upCommand n j = n - keptOf n ∧ upCommand n (j + 1) = n - 1) := by
  have hkept : keptOf n = Min.min n 25 := rfl
  have hlt := Nat.mod_lt j (show 0 < keptOf n by omega)
  unfold upCommand
  by_cases hlast : j % keptOf n + 1 = keptOf n
  · have hnext : (j + 1) % keptOf n = 0 := by
      rw [← Nat.mod_add_mod, hlast, Nat.mod_self]
    rw [hnext]
    exact .inr ⟨by omega, by omega⟩
  · have hnext : (j + 1) % keptOf n = j % keptOf n + 1 := by
      rw [← Nat.mod_add_mod, Nat.mod_eq_of_lt (by omega)]
    rw [hnext]
    exact .inl ⟨by omega, by omega⟩

section Up

variable {k : Kernel} {t : Term} {cs : List (List Byte)} {L : Layout}

/-- The place after some times Up, with the commands as they were. -/
structure UpTo (k k' : Kernel) (t : Term) (cs : List (List Byte)) (j : Nat) : Prop where
  history : k'.term.history = k.term.history
  stocked : Stocked k' t
  index : k'.term.histIndeces t = commandRow (upCommand cs.length j)
  line : LineIs k' t (cs.getD (upCommand cs.length j) [])

theorem upCommand_lt {n : Nat} (hn : 0 < n) (j : Nat) :
    upCommand n j < n ∧ n ≤ upCommand n j + 25 := by
  have hkept : keptOf n = Min.min n 25 := rfl
  have hlt := Nat.mod_lt j (show 0 < keptOf n by omega)
  unfold upCommand
  exact ⟨by omega, by omega⟩

/-- The next command Up goes to. -/
theorem Saved.nearest_up (h : Saved k t cs) (hne : cs ≠ []) (hcmds : ∀ c ∈ cs, c ≠ []) (j : Nat) :
    ∃ d, Nearest histSize (Occupied k t) (-1) (commandRow (upCommand cs.length j))
      (commandRow (upCommand cs.length (j + 1))) d := by
  have hpos : 0 < cs.length := List.length_pos_iff.mpr hne
  rcases upCommand_succ hpos j with ⟨hm, hrecent⟩ | ⟨hm, hlast⟩
  · have hlt := (upCommand_lt hpos j).1
    rw [hm] at hlt ⊢
    exact ⟨2, h.nearest_older hcmds hlt hrecent⟩
  · rw [hm, hlast]
    exact ⟨_, h.nearest_wrap hne hcmds⟩

/-- One Up to a row that is known. -/
theorem upTo_of_nearest (h : Saved k t cs) (hne : cs ≠ []) {k' : Kernel} {j d : Nat}
    (hhist : k'.term.history = k.term.history) (hstock : Stocked k' t)
    (hq : Nearest histSize (Occupied k t) (-1) (k'.term.histIndeces t)
      (commandRow (upCommand cs.length j)) d) : UpTo k (upHist L k') t cs j := by
  have hlt := upCommand_lt (List.length_pos_iff.mpr hne) j
  rw [← occupied_of_history hhist] at hq
  obtain ⟨hrec, hstock'⟩ := hstock.recalls L .up hq
  have hline := hrec.lineIs
  rw [histRow_of_history hhist, commandRow, h.recent _ hlt.1 hlt.2] at hline
  exact ⟨hrec.history.trans hhist, hstock', hrec.index, hline⟩

/-- **Up, any number of times.** -/
theorem Saved.upTo (h : Saved k t cs) (hne : cs ≠ []) (hcmds : ∀ c ∈ cs, c ≠ [])
    (hlen : ∀ c ∈ cs, c.length < bufSize) (j : Nat) : UpTo k ((upHist L)^[j + 1] k) t cs j := by
  induction j with
  | zero =>
      exact upTo_of_nearest h hne rfl (h.stocked hne hcmds hlen) (h.nearest_first hne hcmds)
  | succ j ih =>
      obtain ⟨d, hd⟩ := h.nearest_up hne hcmds j
      rw [← ih.index] at hd
      rw [Function.iterate_succ_apply']
      exact upTo_of_nearest h hne ih.history ih.stocked hd

end Up

/--
**Up goes through the last 25 commands**, the newest first, and starts over: from a history
that has not been used, however many commands were saved and however often Up was struck.
-/
theorem up_recalls_recent {L : Layout} {k : Kernel} {t : Term} (hfresh : FreshHist k t)
    {cs : List (List Byte)} (hne : cs ≠ [])
    (hcmds : ∀ c ∈ cs, c ≠ [] ∧ c.length < bufSize ∧ 0 ∉ c ∧ 0x0A ∉ c) (j : Nat) (hj : 1 ≤ j) :
    LineIs ((upHist L)^[j] (saveAll cs k)) t
      (cs.getD (cs.length - 1 - (j - 1) % Min.min cs.length 25) []) := by
  have htext : ∀ c ∈ cs, commandText c = c := by
    intro c hc
    refine List.takeWhile_eq_self_iff.mpr fun b hb => decide_eq_true ⟨?_, ?_⟩
    · exact fun h => (hcmds c hc).2.2.1 (h ▸ hb)
    · exact fun h => (hcmds c hc).2.2.2 (h ▸ hb)
  have hsaved := hfresh.saved.saveAll cs fun c hc => by
    rw [htext c hc]
    exact (hcmds c hc).2.1
  rw [List.nil_append, List.map_congr_left (g := id) htext, List.map_id] at hsaved
  obtain ⟨i, rfl⟩ : ∃ i, j = i + 1 := ⟨j - 1, by omega⟩
  exact (hsaved.upTo hne (fun c hc => (hcmds c hc).1) (fun c hc => (hcmds c hc).2.1) i).line

theorem freshHist_zero : FreshHist .zero 0 := ⟨rfl, rfl, rfl, fun _ _ _ _ _ _ => rfl⟩

/-- "ls" and "cat": the third Up is "cat" again. -/
theorem up_recalls_cat :
    LineIs ((upHist someLayout)^[3] (saveAll [[0x6C, 0x73], [0x63, 0x61, 0x74]] .zero)) 0
      [0x63, 0x61, 0x74] := by
  have hne : ([[0x6C, 0x73], [0x63, 0x61, 0x74]] : List (List Byte)) ≠ [] := by decide
  exact up_recalls_recent freshHist_zero hne (by decide) 3 (by decide)

/-! ## Up and Down -/

/-- A sequence of keys. -/
def browse (L : Layout) (es : List Browse) (k : Kernel) : Kernel :=
  es.foldl (fun k a => a.run L k) k

/-- Same command, same position, same size. -/
structure SameLine (k k' : Kernel) (t : Term) : Prop where
  command : standsAt k' t = standsAt k t
  curPos : k'.term.curPos t = k.term.curPos t
  curSize : k'.term.curSize t = k.term.curSize t

/--
What Up and Down are to be while the keys `es` are struck: the line is always the command
recalled, and a key followed by the opposite one goes back to the same command and counters.
-/
structure Inverse (L : Layout) (t : Term) (es : List Browse) (k : Kernel) : Prop where
  line : ∀ p, p ≠ [] → p <+: es → LineIs (browse L p k) t (standsAt (browse L p k) t)
  back : ∀ p a, p ≠ [] → p ++ [a, a.opposite] <+: es →
    SameLine (browse L p k) (browse L (p ++ [a, a.opposite]) k) t

section Inverse

variable {L : Layout} {k : Kernel} {t : Term}

theorem browse_snoc (p : List Browse) (a : Browse) (k : Kernel) :
    browse L (p ++ [a]) k = a.run L (browse L p k) := List.foldl_append ..

/-- A key leads to a command, whatever was before. -/
theorem Stocked.key (h : Stocked k t) (L : Layout) (a : Browse) :
    ∃ q d, Nearest histSize (Occupied k t) a.dir (k.term.histIndeces t) q d ∧
      Recalls k (a.run L k) t a q ∧ Stocked (a.run L k) t := by
  obtain ⟨q, d, hq⟩ := h.nearest a
  exact ⟨q, d, hq, h.recalls L a hq⟩

theorem Recalls.standsAt {k' : Kernel} {a : Browse} {q : Int} (h : Recalls k k' t a q) :
    standsAt k' t = histRow k t q := by
  unfold Proof.standsAt
  rw [h.index, histRow_of_history h.history]

theorem Stocked.browse (h : Stocked k t) (L : Layout) (es : List Browse) :
    Stocked (browse L es k) t := by
  induction es generalizing k with
  | nil => exact h
  | cons a es ih =>
      obtain ⟨q, d, -, -, hstock⟩ := h.key L a
      exact ih hstock

/-- After a key the history stands at a command. -/
theorem Stocked.occupied (h : Stocked k t) (L : Layout) {p : List Browse} (hne : p ≠ []) :
    Occupied (Proof.browse L p k) t ((Proof.browse L p k).term.histIndeces t) := by
  rcases List.eq_nil_or_concat' p with hnil | ⟨q, a, rfl⟩
  · exact absurd hnil hne
  · obtain ⟨row, d, hq, hrec, -⟩ := (h.browse L q).key L a
    rw [browse_snoc, hrec.index, occupied_of_history hrec.history]
    exact hq.occupied

theorem dir_opposite (a : Browse) : a.opposite.dir = -a.dir := by
  cases a <;> rfl

/-- **On the rows** the keys are inverse to each other. -/
theorem Stocked.back (h : Stocked k t) (hocc : Occupied k t (k.term.histIndeces t)) (a : Browse) :
    standsAt (a.opposite.run L (a.run L k)) t = standsAt k t := by
  obtain ⟨q, d, hq, hrec, hstock⟩ := h.key L a
  have hback := hq.back hocc h.ok.place.1 h.ok.place.2
  rw [← dir_opposite, ← occupied_of_history hrec.history, ← hrec.index] at hback
  rw [(hstock.recalls L a.opposite hback).1.standsAt, histRow_of_history hrec.history]
  rfl

/-- A key on an empty line, or Up on any, leaves the command it recalls. -/
theorem Stocked.lineIs (h : Stocked k t) (L : Layout) (a : Browse)
    (hempty : a = .up ∨ (k.term.curPos t = 0 ∧ k.term.curSize t = 0)) :
    LineIs (a.run L k) t (standsAt (a.run L k) t) := by
  obtain ⟨q, d, hq, hrec, hstock⟩ := h.key L a
  rw [hrec.standsAt]
  have hcounted : counted a (k.term.curPos t) = 0 ∧ counted a (k.term.curSize t) = 0 := by
    cases a with
    | up => exact ⟨rfl, rfl⟩
    | down => exact hempty.resolve_left (by decide)
  refine ⟨?_, ?_, hrec.line⟩
  · rw [hrec.curPos, hcounted.1, zero_add]
  · rw [hrec.curSize, hcounted.2, zero_add]

/-- Down on a command leaves more than it recalls. -/
theorem Stocked.not_lineIs_down (h : Stocked k t) (hocc : Occupied k t (k.term.histIndeces t))
    (hline : LineIs k t (standsAt k t)) :
    ¬ LineIs (downHist L k) t (standsAt (downHist L k) t) := by
  intro hdown
  obtain ⟨q, d, hq, hrec, hstock⟩ := h.key L .down
  have hsize : (downHist L k).term.curSize t = _ := hrec.curSize
  have hpos : 0 < (standsAt k t).length := List.length_pos_iff.mpr (occupied_iff.mp hocc)
  have hrow : standsAt (downHist L k) t = histRow k t q := hrec.standsAt
  have hbefore : counted .down (k.term.curSize t) = (standsAt k t).length := hline.curSize
  rw [hdown.curSize, hrow, hbefore] at hsize
  omega

/-- Down is never struck but first. -/
theorem Inverse.down_first (h : Stocked k t) {es : List Browse} (hinv : Inverse L t es k) :
    .down ∉ es.tail := by
  intro hin
  obtain ⟨l1, l2, hl⟩ := List.append_of_mem hin
  obtain ⟨a, es, rfl⟩ : ∃ a rest, es = a :: rest := List.exists_cons_of_ne_nil fun hnil => by
    subst hnil
    exact absurd hin List.not_mem_nil
  rw [List.tail_cons] at hl
  have hfirst := hinv.line (a :: l1) (List.cons_ne_nil a l1) ⟨.down :: l2, by rw [hl]; rfl⟩
  have hsecond := hinv.line (a :: l1 ++ [.down]) (by simp) ⟨l2, by rw [hl]; simp⟩
  rw [browse_snoc] at hsecond
  exact (h.browse L (a :: l1)).not_lineIs_down (h.occupied L (List.cons_ne_nil a l1)) hfirst hsecond

theorem opposite_of_ups {a : Browse} {es : List Browse} (hdown : .down ∉ es) (ha : a ∈ es) :
    a.opposite ∉ es := by
  cases a with
  | up => exact hdown
  | down => exact absurd ha hdown

/-- And then all is well. -/
theorem inverse_of_down_first (h : Stocked k t) (hp : k.term.curPos t = 0)
    (hs : k.term.curSize t = 0) {es : List Browse} (hdown : .down ∉ es.tail) :
    Inverse L t es k := by
  refine ⟨?_, ?_⟩
  · intro p hne hpre
    rcases List.eq_nil_or_concat' p with hnil | ⟨q, b, rfl⟩
    · exact absurd hnil hne
    · rw [browse_snoc]
      refine (h.browse L q).lineIs L b ?_
      cases q with
      | nil => exact .inr ⟨hp, hs⟩
      | cons c q =>
          obtain ⟨rest, rfl⟩ := hpre
          cases b with
          | up => exact .inl rfl
          | down => exact absurd (by simp) hdown
  · -- one of the two is Down, and neither is first
    intro p a hne hpre
    obtain ⟨c, p, rfl⟩ := List.exists_cons_of_ne_nil hne
    obtain ⟨rest, rfl⟩ := hpre
    exact absurd (by simp) (opposite_of_ups (a := a) hdown (by simp))

theorem saveAll_counters (cs : List (List Byte)) (k : Kernel) :
    (saveAll cs k).term.curPos = k.term.curPos ∧ (saveAll cs k).term.curSize = k.term.curSize := by
  induction cs generalizing k with
  | nil => exact ⟨rfl, rfl⟩
  | cons c cs ih => exact ih (saveHist c k)

/-- A history with commands in it. -/
theorem stocked_saveAll (hfresh : FreshHist k t) {cs : List (List Byte)} (hne : cs ≠ [])
    (hcmds : ∀ c ∈ cs, commandText c ≠ [] ∧ (commandText c).length < bufSize) :
    Stocked (saveAll cs k) t := by
  have hsaved := hfresh.saved.saveAll cs fun c hc => (hcmds c hc).2
  refine hsaved.stocked (by simpa using hne) ?_ ?_
  · intro c hc
    obtain ⟨c', hc', rfl⟩ := List.mem_map.mp hc
    exact (hcmds c' hc').1
  · intro c hc
    obtain ⟨c', hc', rfl⟩ := List.mem_map.mp hc
    exact (hcmds c' hc').2

end Inverse

/--
**Up and Down.** From an empty line and whatever was saved: the line is always the command
recalled, and the two keys undo each other, exactly as long as Down is not struck after
another key, for it does not start from an empty line as Up does. The row they stand at always
comes back.
-/
theorem up_down_inverse_iff {L : Layout} {k : Kernel} {t : Term} (hfresh : FreshHist k t)
    (hp : k.term.curPos t = 0) (hs : k.term.curSize t = 0) {cs : List (List Byte)}
    (hsaves : 2 ≤ cs.length)
    (hcmds : ∀ c ∈ cs, commandText c ≠ [] ∧ (commandText c).length < bufSize)
    (es : List Browse) :
    (Inverse L t es (saveAll cs k) ↔ .down ∉ es.tail) ∧
      ∀ p a, p ≠ [] → standsAt (browse L (p ++ [a, a.opposite]) (saveAll cs k)) t
        = standsAt (browse L p (saveAll cs k)) t := by
  have hstock := stocked_saveAll hfresh (List.ne_nil_of_length_pos (by omega)) hcmds
  obtain ⟨hpos, hsize⟩ := saveAll_counters cs k
  refine ⟨⟨fun h => h.down_first hstock, ?_⟩, ?_⟩
  · intro h
    exact inverse_of_down_first hstock (by rw [hpos]; exact hp) (by rw [hsize]; exact hs) h
  · intro p a hne
    have hback := (hstock.browse L p).back (L := L) (hstock.occupied L hne) a
    rw [← browse_snoc, ← browse_snoc, List.append_assoc] at hback
    exact hback

/-- Down first, and then Up. -/
theorem up_down_inverse_first :
    Inverse someLayout 0 [.down, .up] (saveAll [[0x61], [0x62]] .zero) := by
  have htwo : 2 ≤ ([[0x61], [0x62]] : List (List Byte)).length := by decide
  exact (up_down_inverse_iff freshHist_zero rfl rfl htwo (by decide) [.down, .up]).1.mpr (by decide)

/-- Up and then Down, after "a" and "b": the line has two bytes where the command has one. -/
theorem up_down_inverse_fails :
    ¬ Inverse someLayout 0 [.up, .down] (saveAll [[0x61], [0x62]] .zero) := by
  have hne : ([[0x61], [0x62]] : List (List Byte)) ≠ [] := by decide
  intro h
  exact absurd (h.down_first (stocked_saveAll freshHist_zero hne (by decide))) (by decide)

end Zbiggie.Proof
