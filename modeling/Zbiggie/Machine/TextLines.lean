import Mathlib.Data.List.Basic
import Zbiggie.Machine.Word

/-!
# A text as its lines, read from the front

`List.splitOnP` says what the lines of a text are. A program that reads a text from
the front meets them one at a time: the line up to the first break, then the text
behind the break, and at the end a line that no break closes.
-/

namespace Zbiggie.Machine

variable {α : Type} {brk : α → Bool}

/-- The first line is closed by a break, or it is the whole text. -/
theorem splitOnP_front (brk : α → Bool) (s : List α) :
    (∃ c r, s = s.takeWhile (!brk ·) ++ c :: r ∧ brk c = true ∧
        s.splitOnP brk = s.takeWhile (!brk ·) :: r.splitOnP brk) ∨
      (s.takeWhile (!brk ·) = s ∧ s.splitOnP brk = [s]) := by
  induction s with
  | nil => exact .inr ⟨rfl, List.splitOnP_nil⟩
  | cons b s ih =>
      by_cases hb : brk b = true
      · refine .inl ⟨b, s, ?_, hb, ?_⟩
        · rw [List.takeWhile_cons_of_neg (by simpa using hb), List.nil_append]
        · rw [List.takeWhile_cons_of_neg (by simpa using hb), List.splitOnP_cons_eq_if_modifyHead,
            if_pos hb]
      · have htake : (b :: s).takeWhile (!brk ·) = b :: s.takeWhile (!brk ·) :=
          List.takeWhile_cons_of_pos (by simpa using hb)
        rw [htake, List.splitOnP_cons_eq_if_modifyHead, if_neg hb]
        rcases ih with ⟨c, r, hs, hc, hsplit⟩ | ⟨hs, hsplit⟩
        · refine .inl ⟨c, r, ?_, hc, ?_⟩
          · rw [List.cons_append, ← hs]
          · rw [hsplit, List.modifyHead_cons]
        · refine .inr ⟨by rw [hs], ?_⟩
          rw [hsplit, List.modifyHead_cons]

/-- Lines are no longer than their text. -/
theorem length_of_mem_splitOnP (brk : α → Bool) (s : List α) :
    ∀ l ∈ s.splitOnP brk, l.length ≤ s.length := by
  induction s with
  | nil => simp [List.splitOnP_nil]
  | cons b s ih =>
      intro l hl
      rw [List.splitOnP_cons_eq_if_modifyHead] at hl
      obtain ⟨p, ps, hps⟩ := List.exists_cons_of_ne_nil (List.splitOnP_ne_nil brk s)
      rw [hps] at hl ih
      rw [List.length_cons]
      split at hl
      · rcases List.mem_cons.mp hl with rfl | hl
        · exact Nat.zero_le _
        · exact Nat.le_succ_of_le (ih l hl)
      · rcases List.mem_cons.mp hl with rfl | hl
        · exact Nat.succ_le_succ (ih p List.mem_cons_self)
        · exact Nat.le_succ_of_le (ih l (List.mem_cons_of_mem p hl))

/-- There is one line more than there are breaks. -/
theorem length_splitOnP_le (brk : α → Bool) (s : List α) :
    (s.splitOnP brk).length ≤ s.length + 1 := by
  induction s with
  | nil => simp [List.splitOnP_nil]
  | cons b s ih =>
      rw [List.splitOnP_cons_eq_if_modifyHead, List.length_cons]
      split
      · exact Nat.succ_le_succ ih
      · rw [List.length_modifyHead]
        exact Nat.le_succ_of_le ih

/-- Characters before the first break belong to the first line. -/
theorem splitOnP_append {l : List α} (hl : ∀ x ∈ l, brk x = false) (r : List α) :
    (l ++ r).splitOnP brk = (r.splitOnP brk).modifyHead (l ++ ·) := by
  induction l with
  | nil =>
      obtain ⟨p, ps, hps⟩ := List.exists_cons_of_ne_nil (List.splitOnP_ne_nil brk r)
      rw [List.nil_append, hps, List.modifyHead_cons, List.nil_append]
  | cons x l ih =>
      obtain ⟨p, ps, hps⟩ := List.exists_cons_of_ne_nil (List.splitOnP_ne_nil brk r)
      rw [List.cons_append, List.splitOnP_cons_eq_if_modifyHead,
        if_neg (by rw [hl x List.mem_cons_self]; decide),
        ih fun y hy => hl y (List.mem_cons_of_mem x hy), hps]
      rfl

/-! ## A line in pieces -/

/-- A line cut into pieces of `n` from its start, the last one shorter. -/
def cut (n : Nat) (l : List α) : List (List α) :=
  (List.range (l.length / n + 1)).map fun i => (l.drop (i * n)).take n

theorem cut_of_length_lt {n : Nat} {l : List α} (h : l.length < n) : cut n l = [l] := by
  unfold cut
  rw [Nat.div_eq_of_lt h, List.range_one, List.map_singleton, Nat.zero_mul, List.drop_zero,
    List.take_of_length_le (Nat.le_of_lt h)]

theorem cut_append {n : Nat} (hn : 0 < n) {l : List α} (h : l.length = n) (r : List α) :
    cut n (l ++ r) = l :: cut n r := by
  unfold cut
  rw [List.length_append, h, Nat.add_div_left _ hn, List.range_succ_eq_map, List.map_cons,
    List.map_map, Nat.zero_mul, List.drop_zero, List.take_left' h]
  congr 1
  refine List.map_congr_left ?_
  intro i _
  rw [Function.comp_apply, Nat.succ_mul, Nat.add_comm, ← List.drop_drop, List.drop_left' h]

/-! ## Text files -/

/-- The end of a line. -/
def newline (c : Byte) : Bool := c = 0x0A

/-- The lines of a file. -/
def linesOf (content : List Byte) : List (List Byte) := content.splitOnP newline

end Zbiggie.Machine
