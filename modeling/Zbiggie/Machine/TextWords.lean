import Mathlib.Data.List.Chain
import Mathlib.Data.List.TakeWhile
import Zbiggie.Machine.TextLines

/-!
# The words of a text, and putting them together again

The words of a text are the pieces between its breaks that are not empty. Joined by one
separator each they give back the text exactly if it was neat: no separator at either
end and no two in a row.
-/

namespace Zbiggie.Machine

variable {α : Type} {brk : α → Bool} {sep : α}

/-! ## Taking apart -/

/-- The words of a text. -/
def wordsOf (brk : α → Bool) (l : List α) : List (List α) := (l.splitOnP brk).filter (· ≠ [])

@[simp] theorem wordsOf_nil (brk : α → Bool) : wordsOf brk ([] : List α) = [] := by
  simp [wordsOf]

theorem wordsOf_cons_brk {c : α} (hc : brk c = true) (l : List α) :
    wordsOf brk (c :: l) = wordsOf brk l := by
  unfold wordsOf
  rw [List.splitOnP_cons_eq_if_modifyHead, if_pos hc, List.filter_cons_of_neg (by simp)]

theorem wordsOf_word {w : List α} (hne : w ≠ []) (hw : ∀ x ∈ w, brk x = false) :
    wordsOf brk w = [w] := by
  have hsplit := splitOnP_append hw []
  rw [List.append_nil, List.splitOnP_nil, List.modifyHead_cons, List.append_nil] at hsplit
  unfold wordsOf
  rw [hsplit, List.filter_cons_of_pos (by simpa using hne), List.filter_nil]

theorem wordsOf_word_brk {w : List α} (hne : w ≠ []) (hw : ∀ x ∈ w, brk x = false) {c : α}
    (hc : brk c = true) (l : List α) : wordsOf brk (w ++ c :: l) = w :: wordsOf brk l := by
  unfold wordsOf
  rw [splitOnP_append hw, List.splitOnP_cons_eq_if_modifyHead, if_pos hc, List.modifyHead_cons,
    List.append_nil, List.filter_cons_of_pos (by simpa using hne)]

/-- What follows the first word begins with a break. -/
theorem dropWhile_break (brk : α → Bool) (l : List α) :
    l.dropWhile (!brk ·) = [] ∨ ∃ c t, l.dropWhile (!brk ·) = c :: t ∧ brk c = true := by
  rcases hr : l.dropWhile (!brk ·) with _ | ⟨c, t⟩
  · exact .inl rfl
  · refine .inr ⟨c, t, rfl, ?_⟩
    have h := List.head_dropWhile_not (fun x => !brk x) (l := l) (by rw [hr]; simp)
    simpa [hr] using h

theorem word_then_break (brk : α → Bool) (l : List α) :
    ∃ w r, l = w ++ r ∧ (∀ x ∈ w, brk x = false) ∧ (r = [] ∨ ∃ c t, r = c :: t ∧ brk c = true) := by
  refine ⟨l.takeWhile (!brk ·), l.dropWhile (!brk ·), List.takeWhile_append_dropWhile.symm, ?_,
    dropWhile_break brk l⟩
  intro x hx
  simpa using List.mem_takeWhile_imp hx

/-- A word is a piece of its text, is not empty, and no break is in it. -/
theorem mem_wordsOf : ∀ {l w : List α}, w ∈ wordsOf brk l →
    w <:+: l ∧ w ≠ [] ∧ ∀ x ∈ w, brk x = false := by
  intro l
  induction h : l.length using Nat.strongRecOn generalizing l with
  | ind n ih =>
      intro w hmem
      obtain ⟨v, r, rfl, hv, hr⟩ := word_then_break brk l
      by_cases hne : v = []
      · subst hne
        rcases hr with rfl | ⟨c, t, rfl, hc⟩
        · simp at hmem
        · rw [List.nil_append, wordsOf_cons_brk hc] at hmem
          obtain ⟨hpiece, hw⟩ := ih t.length (by simp at h; omega) rfl hmem
          exact ⟨hpiece.trans (List.suffix_cons c t).isInfix, hw⟩
      · rcases hr with rfl | ⟨c, t, rfl, hc⟩
        · rw [List.append_nil, wordsOf_word hne hv] at hmem
          obtain rfl := List.mem_singleton.mp hmem
          exact ⟨(List.prefix_append _ _).isInfix, hne, hv⟩
        · rw [wordsOf_word_brk hne hv hc] at hmem
          rcases List.mem_cons.mp hmem with rfl | hmem
          · exact ⟨(List.prefix_append _ _).isInfix, hne, hv⟩
          · obtain ⟨hpiece, hw⟩ := ih t.length (by simp at h; omega) rfl hmem
            have ht : t <:+: v ++ c :: t :=
              ((List.suffix_cons c t).trans (List.suffix_append v _)).isInfix
            exact ⟨hpiece.trans ht, hw⟩

/-! ## Putting together -/

/-- No separator at either end and no two of them in a row. -/
def Neat (sep : α) (l : List α) : Prop :=
  l.IsChain (fun a b => ¬ (a = sep ∧ b = sep)) ∧ l.head? ≠ some sep ∧ l.getLast? ≠ some sep

theorem neat_word {w : List α} (hw : sep ∉ w) : Neat sep w := by
  refine ⟨?_, ?_, ?_⟩
  · induction w with
    | nil => exact .nil
    | cons a w ih =>
        refine List.isChain_cons.mpr ⟨?_, ih fun h => hw (List.mem_cons_of_mem a h)⟩
        rintro y - ⟨ha, -⟩
        exact hw (ha ▸ List.mem_cons_self)
  · exact fun h => hw (List.mem_of_mem_head? h)
  · exact fun h => hw (List.mem_of_mem_getLast? h)

theorem neat_word_cons {w l : List α} (hne : w ≠ []) (hw : sep ∉ w) (hl : l ≠ [])
    (h : Neat sep l) : Neat sep (w ++ sep :: l) := by
  obtain ⟨hchain, hhead, hlast⟩ := h
  obtain ⟨hwchain, hwhead, hwlast⟩ := neat_word hw
  refine ⟨hwchain.append (List.isChain_cons.mpr ⟨?_, hchain⟩) ?_, ?_, ?_⟩
  · rintro y hy ⟨-, rfl⟩
    exact hhead hy
  · rintro x hx y - ⟨rfl, -⟩
    exact hwlast hx
  · rwa [List.head?_append_of_ne_nil _ hne]
  · rw [List.getLast?_append_of_ne_nil _ (by simp), List.getLast?_cons_of_ne_nil hl]
    exact hlast

/-- Words with one separator between them are neat. -/
theorem neat_intercalate : ∀ {ws : List (List α)}, (∀ w ∈ ws, w ≠ [] ∧ sep ∉ w) →
    Neat sep ([sep].intercalate ws)
  | [], _ => neat_word List.not_mem_nil
  | [w], h => by
      rw [List.intercalate_singleton]
      exact neat_word (h w List.mem_cons_self).2
  | w :: v :: ws, h => by
      have ih := @neat_intercalate (v :: ws) fun u hu => h u (List.mem_cons_of_mem w hu)
      obtain ⟨hne, hw⟩ := h w List.mem_cons_self
      rw [List.intercalate_cons_cons, List.append_assoc, List.singleton_append]
      refine neat_word_cons hne hw ?_ ih
      intro hnil
      have hv := (h v (by simp)).1
      rcases ws with _ | ⟨u, ws⟩
      · exact hv (by rwa [List.intercalate_singleton] at hnil)
      · rw [List.intercalate_cons_cons] at hnil
        exact hv (by simp at hnil)

/-- A neat text is what its words give when they are joined. -/
theorem intercalate_wordsOf {l : List α} (hsep : ∀ x ∈ l, brk x = true ↔ x = sep)
    (h : Neat sep l) : [sep].intercalate (wordsOf brk l) = l := by
  induction hn : l.length using Nat.strongRecOn generalizing l with
  | ind n ih =>
      obtain ⟨w, r, rfl, hw, hr⟩ := word_then_break brk l
      by_cases hne : w = []
      · subst hne
        rcases hr with rfl | ⟨c, t, rfl, hc⟩
        · simp
        · exact absurd (congrArg some ((hsep c (by simp)).mp hc)) h.2.1
      · rcases hr with rfl | ⟨c, t, rfl, hc⟩
        · rw [List.append_nil, wordsOf_word hne hw, List.intercalate_singleton]
        · obtain rfl := (hsep c (by simp)).mp hc
          have hchain : (c :: t).IsChain (fun a b => ¬ (a = c ∧ b = c)) := h.1.right_of_append
          have ht : t ≠ [] := by
            rintro rfl
            exact h.2.2 (by simp)
          have hneat : Neat c t := by
            refine ⟨hchain.tail, ?_, ?_⟩
            · intro hhead
              exact (List.isChain_cons.mp hchain).1 c hhead ⟨rfl, rfl⟩
            · have hlast := h.2.2
              rwa [List.getLast?_append_of_ne_nil _ (by simp),
                List.getLast?_cons_of_ne_nil ht] at hlast
          have hih := ih t.length (by simp at hn; omega)
            (fun x hx => hsep x (by simp [hx])) hneat rfl
          rw [wordsOf_word_brk hne hw hc]
          rcases hws : wordsOf brk t with _ | ⟨v, ws⟩
          · rw [hws] at hih
            exact absurd hih.symm ht
          · rw [hws] at hih
            rw [List.intercalate_cons_cons, hih, List.append_assoc, List.singleton_append]

end Zbiggie.Machine
