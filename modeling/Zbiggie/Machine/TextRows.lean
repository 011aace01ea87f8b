import Mathlib.Data.List.Basic

/-!
# A text in rows

What a text looks like when it is laid out as a whole: cut at its breaks, and each piece into
rows of `w`, where a row that is full is followed by another at once. `textRows_snoc` is how
the last row changes with one more character.
-/

namespace Zbiggie.Machine

variable {α : Type}

/-- A piece of text in rows of `w`. A row that is full is followed by another, empty or not. -/
def fillRows (w : Nat) (l : List α) : List (List α) :=
  if 0 < w ∧ w ≤ l.length then l.take w :: fillRows w (l.drop w) else [l]
termination_by l.length
decreasing_by
  rw [List.length_drop]
  omega

/-- The rows of a text with breaks in it. -/
def textRows (brk : α → Bool) (w : Nat) (s : List α) : List (List α) :=
  (s.splitOnP brk).flatMap (fillRows w)

section Rows

variable {w : Nat}

theorem fillRows_short {l : List α} (h : l.length < w) : fillRows w l = [l] := by
  rw [fillRows, if_neg (by omega)]

theorem fillRows_full {l : List α} (hw : 0 < w) (h : l.length = w) : fillRows w l = [l, []] := by
  rw [fillRows, if_pos (by omega), List.take_of_length_le (by omega),
    List.drop_of_length_le (by omega), fillRows_short hw]

/-- **One more character** goes to the last row, which may be full then. -/
theorem fillRows_snoc (hw : 0 < w) (c : α) (l : List α) :
    ∃ rs r, fillRows w l = rs ++ [r] ∧ r.length < w ∧
      fillRows w (l ++ [c]) = rs ++ fillRows w (r ++ [c]) := by
  induction l using fillRows.induct w with
  | case1 l hfull ih =>
      obtain ⟨rs, r, hrows, hlt, hnext⟩ := ih
      refine ⟨l.take w :: rs, r, ?_, hlt, ?_⟩
      · rw [fillRows, if_pos hfull, hrows]
        rfl
      · rw [fillRows, if_pos (by rw [List.length_append]; omega),
          List.take_append_of_le_length hfull.2, List.drop_append_of_le_length hfull.2, hnext]
        rfl
  | case2 l hshort =>
      refine ⟨[], l, ?_, by omega, rfl⟩
      rw [fillRows_short (by omega)]
      rfl

/-- A piece grows at its end, or a break starts another. -/
theorem splitOnP_snoc (brk : α → Bool) (c : α) (s : List α) :
    ∃ ps p, s.splitOnP brk = ps ++ [p] ∧
      (s ++ [c]).splitOnP brk = if brk c then ps ++ [p, []] else ps ++ [p ++ [c]] := by
  by_cases hc : brk c
  · rw [List.splitOnP_append_cons s [] hc, List.splitOnP_nil]
    simp only [if_pos hc]
    rcases List.eq_nil_or_concat' (s.splitOnP brk) with hnil | ⟨ps, p, hps⟩
    · exact absurd hnil (List.splitOnP_ne_nil brk s)
    · exact ⟨ps, p, hps, by rw [hps, List.append_assoc]; rfl⟩
  · simp only [if_neg hc]
    induction s with
    | nil =>
        refine ⟨[], [], List.splitOnP_nil, ?_⟩
        rw [List.nil_append, List.splitOnP_cons_eq_if_modifyHead, if_neg hc, List.splitOnP_nil]
        rfl
    | cons a s ih =>
        obtain ⟨ps, p, hps, hnext⟩ := ih
        rw [List.cons_append, List.splitOnP_cons_eq_if_modifyHead,
          List.splitOnP_cons_eq_if_modifyHead, hps, hnext]
        by_cases ha : brk a
        · rw [if_pos ha, if_pos ha]
          exact ⟨[] :: ps, p, rfl, rfl⟩
        · rw [if_neg ha, if_neg ha]
          cases ps with
          | nil => exact ⟨[], a :: p, rfl, rfl⟩
          | cons q ps => exact ⟨(a :: q) :: ps, p, rfl, rfl⟩

/-- **One more character**, or a break, which starts another row. -/
theorem textRows_snoc (brk : α → Bool) (hw : 0 < w) (c : α) (s : List α) :
    ∃ rs r, textRows brk w s = rs ++ [r] ∧ r.length < w ∧
      textRows brk w (s ++ [c]) = if brk c then rs ++ [r, []] else rs ++ fillRows w (r ++ [c]) := by
  obtain ⟨ps, p, hps, hnext⟩ := splitOnP_snoc brk c s
  obtain ⟨rs, r, hrows, hlt, hmore⟩ := fillRows_snoc hw c p
  refine ⟨ps.flatMap (fillRows w) ++ rs, r, ?_, hlt, ?_⟩
  · unfold textRows
    rw [hps, List.flatMap_append, List.flatMap_singleton, hrows, List.append_assoc]
  · unfold textRows
    rw [hnext]
    by_cases hc : brk c
    · rw [if_pos hc, if_pos hc, List.flatMap_append, List.flatMap_cons, List.flatMap_singleton,
        hrows, fillRows_short hw, List.append_assoc, List.append_assoc]
      rfl
    · rw [if_neg hc, if_neg hc, List.flatMap_append, List.flatMap_singleton, hmore,
        List.append_assoc]

/-- A break separates the rows before it from those behind it. -/
theorem textRows_append_cons {brk : α → Bool} {b : α} (hb : brk b = true) (s r : List α) :
    textRows brk w (s ++ b :: r) = textRows brk w s ++ textRows brk w r := by
  unfold textRows
  rw [List.splitOnP_append_cons s r hb, List.flatMap_append]

/-- A short line is one row. -/
theorem textRows_line {brk : α → Bool} {l : List α} (hl : ∀ x ∈ l, brk x = false)
    (hlen : l.length < w) : textRows brk w l = [l] := by
  unfold textRows
  rw [List.splitOnP_eq_singleton hl, List.flatMap_singleton, fillRows_short hlen]

/-- **Short lines**, each with its break, are a row each; the last row is empty. -/
theorem textRows_lines {brk : α → Bool} {b : α} (hb : brk b = true) (hw : 0 < w)
    {ls : List (List α)} (hplain : ∀ l ∈ ls, ∀ x ∈ l, brk x = false)
    (hshort : ∀ l ∈ ls, l.length < w) :
    textRows brk w (ls.flatMap fun l => l ++ [b]) = ls ++ [[]] := by
  induction ls with
  | nil => exact textRows_line (fun x hx => absurd hx List.not_mem_nil) hw
  | cons l ls ih =>
      rw [List.flatMap_cons, List.append_assoc, List.singleton_append, textRows_append_cons hb,
        textRows_line (hplain l List.mem_cons_self) (hshort l List.mem_cons_self),
        ih (fun m hm => hplain m (List.mem_cons_of_mem l hm))
          (fun m hm => hshort m (List.mem_cons_of_mem l hm))]
      rfl

end Rows

end Zbiggie.Machine
