import Mathlib.Data.List.GetD

/-!
# A bounded text with a cursor

The reference for a line editor: a text of at most `cap` elements and a place in it. It
is kept as the two pieces on either side of the cursor, the first from the cursor back,
so that each operation touches only the elements next to it. The bound is part of the
type. What an array-based editor has to agree with is `text` and `cursor`.
-/

namespace Zbiggie.Machine

variable {α : Type} {cap : Nat}

/-- The elements before the cursor, nearest first, and those behind it. -/
structure Zipper (α : Type) (cap : Nat) where
  before : List α
  after : List α
  fits : before.length + after.length ≤ cap

namespace Zipper

/-- What is written. -/
def text (z : Zipper α cap) : List α := z.before.reverse ++ z.after

/-- How much of it lies before the cursor. -/
def cursor (z : Zipper α cap) : Nat := z.before.length

def empty : Zipper α cap := ⟨[], [], Nat.zero_le cap⟩

/-- One element more, before the cursor; nothing when the text is full. -/
def insert (c : α) (z : Zipper α cap) : Zipper α cap :=
  if h : z.before.length + z.after.length < cap then
    ⟨c :: z.before, z.after,
      Nat.le_trans (Nat.le_of_eq (Nat.succ_add z.before.length z.after.length)) h⟩
  else z

/-- One place back; nothing at the start. -/
def left : Zipper α cap → Zipper α cap
  | ⟨[], as, h⟩ => ⟨[], as, h⟩
  | ⟨b :: bs, as, h⟩ =>
      ⟨bs, b :: as, Nat.le_trans (Nat.le_of_eq (Nat.succ_add bs.length as.length).symm) h⟩

/-- One place on; nothing at the end. -/
def right : Zipper α cap → Zipper α cap
  | ⟨bs, [], h⟩ => ⟨bs, [], h⟩
  | ⟨bs, a :: as, h⟩ =>
      ⟨a :: bs, as, Nat.le_trans (Nat.le_of_eq (Nat.succ_add bs.length as.length)) h⟩

theorem text_length (z : Zipper α cap) : z.text.length = z.before.length + z.after.length := by
  unfold text
  rw [List.length_append, List.length_reverse]

theorem text_length_le (z : Zipper α cap) : z.text.length ≤ cap := by
  rw [text_length]
  exact z.fits

theorem cursor_le (z : Zipper α cap) : z.cursor ≤ z.text.length := by
  rw [text_length]
  exact Nat.le_add_right _ _

/-- What lies before the cursor, and behind it. -/
theorem take_cursor (z : Zipper α cap) : z.text.take z.cursor = z.before.reverse := by
  unfold text cursor
  rw [← List.length_reverse, List.take_left]

theorem drop_cursor (z : Zipper α cap) : z.text.drop z.cursor = z.after := by
  unfold text cursor
  rw [← List.length_reverse, List.drop_left]

/-! ## Insertion -/

theorem insert_full {z : Zipper α cap} (h : cap ≤ z.text.length) (c : α) : z.insert c = z := by
  rw [text_length] at h
  unfold insert
  rw [dif_neg (by omega)]

theorem insert_text {z : Zipper α cap} (h : z.text.length < cap) (c : α) :
    (z.insert c).text = z.text.take z.cursor ++ c :: z.text.drop z.cursor := by
  rw [text_length] at h
  rw [take_cursor, drop_cursor]
  unfold insert
  rw [dif_pos h]
  unfold text
  dsimp only
  rw [List.reverse_cons, List.append_assoc]
  rfl

theorem insert_cursor {z : Zipper α cap} (h : z.text.length < cap) (c : α) :
    (z.insert c).cursor = z.cursor + 1 := by
  rw [text_length] at h
  unfold insert
  rw [dif_pos h]
  rfl

theorem insert_length {z : Zipper α cap} (h : z.text.length < cap) (c : α) :
    (z.insert c).text.length = z.text.length + 1 := by
  have hle := z.cursor_le
  rw [insert_text h, List.length_append, List.length_cons, List.length_take, List.length_drop]
  omega

/-- **Insertion, element by element.** -/
theorem insert_getD {z : Zipper α cap} (h : z.text.length < cap) (c d : α) (i : Nat) :
    (z.insert c).text.getD i d =
      if i < z.cursor then z.text.getD i d
      else if i = z.cursor then c else z.text.getD (i - 1) d := by
  have hle := z.cursor_le
  have htake : (z.text.take z.cursor).length = z.cursor := List.length_take_of_le hle
  rw [insert_text h]
  by_cases h1 : i < z.cursor
  · rw [if_pos h1, List.getD_append _ _ _ _ (by omega), List.getD_eq_getElem?_getD,
      List.getElem?_take_of_lt h1, List.getD_eq_getElem?_getD]
  · rw [if_neg h1, List.getD_append_right _ _ _ _ (by omega), htake]
    by_cases h2 : i = z.cursor
    · rw [if_pos h2, h2, Nat.sub_self]
      rfl
    · rw [if_neg h2]
      obtain ⟨j, rfl⟩ : ∃ j, i = z.cursor + (j + 1) := ⟨i - z.cursor - 1, by omega⟩
      rw [Nat.add_sub_cancel_left, List.getD_cons_succ, List.getD_eq_getElem?_getD,
        List.getElem?_drop, List.getD_eq_getElem?_getD,
        show z.cursor + (j + 1) - 1 = z.cursor + j by omega]

theorem mem_insert {z : Zipper α cap} {c b : α} (hb : b ∈ (z.insert c).text) :
    b = c ∨ b ∈ z.text := by
  by_cases h : z.text.length < cap
  · rw [insert_text h] at hb
    rcases List.mem_append.mp hb with hb | hb
    · exact .inr (List.mem_of_mem_take hb)
    · rcases List.mem_cons.mp hb with hb | hb
      · exact .inl hb
      · exact .inr (List.mem_of_mem_drop hb)
  · rw [insert_full (by omega)] at hb
    exact .inr hb

/-! ## Moving -/

theorem left_text (z : Zipper α cap) : z.left.text = z.text := by
  obtain ⟨bs, as, h⟩ := z
  cases bs with
  | nil => rfl
  | cons b bs =>
      unfold left text
      dsimp only
      rw [List.reverse_cons, List.append_assoc]
      rfl

theorem left_cursor (z : Zipper α cap) : z.left.cursor = z.cursor - 1 := by
  obtain ⟨bs, as, h⟩ := z
  cases bs with
  | nil => rfl
  | cons b bs => rfl

theorem left_start {z : Zipper α cap} (h : z.cursor = 0) : z.left = z := by
  obtain ⟨bs, as, hfits⟩ := z
  cases bs with
  | nil => rfl
  | cons b bs => exact absurd h (Nat.succ_ne_zero _)

theorem right_text (z : Zipper α cap) : z.right.text = z.text := by
  obtain ⟨bs, as, h⟩ := z
  cases as with
  | nil => rfl
  | cons a as =>
      unfold right text
      dsimp only
      rw [List.reverse_cons, List.append_assoc]
      rfl

theorem right_cursor (z : Zipper α cap) :
    z.right.cursor = Nat.min (z.cursor + 1) z.text.length := by
  obtain ⟨bs, as, h⟩ := z
  rw [text_length]
  cases as with
  | nil => exact (Nat.min_eq_right (Nat.le_succ _)).symm
  | cons a as =>
      have hle : bs.length + 1 ≤ bs.length + (a :: as).length := by
        rw [List.length_cons]
        omega
      exact (Nat.min_eq_left hle).symm

theorem right_end {z : Zipper α cap} (h : z.text.length ≤ z.cursor) : z.right = z := by
  obtain ⟨bs, as, hfits⟩ := z
  rw [text_length] at h
  cases as with
  | nil => rfl
  | cons a as =>
      unfold cursor at h
      dsimp only at h
      rw [List.length_cons] at h
      omega

end Zipper

end Zbiggie.Machine
