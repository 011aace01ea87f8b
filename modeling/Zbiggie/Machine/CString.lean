import Mathlib.Data.List.GetD
import Zbiggie.Machine.Word

/-!
# Bounded string functions, on lists

`strncmp` and `strncpy` look at a string up to its terminator and at most up to a
limit. What they look at is a list, `upToNul`, and on it the first is equality and
the second is a copy with padding.
-/

namespace Zbiggie.Machine

/-- The bytes from index `i` up to the first NUL, at most `n` of them. -/
def upToNul (s : Mem) : Nat → Nat → List Byte
  | 0, _ => []
  | n + 1, i => if s i = 0 then [] else s i :: upToNul s n (i + 1)

theorem upToNul_length_le (s : Mem) : ∀ n i, (upToNul s n i).length ≤ n := by
  intro n
  induction n with
  | zero => intro i; exact Nat.le_refl 0
  | succ n ih =>
      intro i
      rw [upToNul]
      split
      · exact Nat.zero_le _
      · exact Nat.succ_le_succ (ih (i + 1))

/-- A tighter limit sees the start of what a looser one sees. -/
theorem upToNul_take (s : Mem) : ∀ {n k : Nat} (i : Nat), n ≤ k →
    (upToNul s k i).take n = upToNul s n i := by
  intro n
  induction n with
  | zero => intro k i _; rfl
  | succ n ih =>
      intro k i hk
      obtain ⟨k, rfl⟩ : ∃ k', k = k' + 1 := ⟨k - 1, by omega⟩
      simp only [upToNul]
      split
      · rfl
      · rw [List.take_succ_cons, ih (i + 1) (by omega)]

/-- A list without a NUL, as a string, is seen as it is. -/
theorem upToNul_cstr {s : List Byte} (h : 0 ∉ s) : ∀ n i,
    upToNul (cstr s) n i = (s.drop i).take n := by
  intro n
  induction n with
  | zero => intro i; rfl
  | succ n ih =>
      intro i
      rw [upToNul]
      by_cases hi : i < s.length
      · have hget : cstr s i = s[i] := by
          unfold cstr
          rw [List.getD_eq_getElem _ _ hi]
        have hne : s[i] ≠ 0 := fun h0 => h (h0 ▸ List.getElem_mem hi)
        rw [hget, if_neg hne, ih (i + 1), List.drop_eq_getElem_cons hi, List.take_succ_cons]
      · have hget : cstr s i = 0 := by
          unfold cstr
          rw [List.getD_eq_default _ _ (by omega)]
        rw [hget, if_pos rfl, List.drop_eq_nil_of_le (by omega), List.take_nil]

theorem zero_not_mem_upToNul (s : Mem) : ∀ n i, 0 ∉ upToNul s n i := by
  intro n
  induction n with
  | zero => intro i; exact List.not_mem_nil
  | succ n ih =>
      intro i h
      rw [upToNul] at h
      split at h
      · exact absurd h List.not_mem_nil
      · rename_i hne
        rcases List.mem_cons.mp h with h0 | h0
        · exact hne h0.symm
        · exact ih (i + 1) h0

/-- What lies behind the terminator does not matter. -/
theorem upToNul_congr {s s' : Mem} : ∀ {n : Nat} (i : Nat),
    (∀ j, i ≤ j → j < i + n → (∀ k, i ≤ k → k < j → s k ≠ 0) → s j = s' j) →
    upToNul s n i = upToNul s' n i := by
  intro n
  induction n with
  | zero => intro i _; rfl
  | succ n ih =>
      intro i h
      have hi := h i (Nat.le_refl i) (by omega) (fun k h1 h2 => absurd h1 (by omega))
      rw [upToNul, upToNul, ← hi]
      split
      · rfl
      · rename_i hne
        rw [ih (i + 1) fun j h1 h2 h3 => h j (by omega) (by omega) fun k hk1 hk2 => ?_]
        by_cases hk : k = i
        · subst hk; exact hne
        · exact h3 k (by omega) hk2

/-- Strings that read the same, terminators included, are the same. -/
theorem upToNul_ext {s s' : Mem} {n : Nat}
    (h : ∀ j, j < n → (upToNul s n 0).getD j 0 = (upToNul s' n 0).getD j 0) :
    upToNul s n 0 = upToNul s' n 0 := by
  have hself : ∀ t : Mem, upToNul (cstr (upToNul t n 0)) n 0 = upToNul t n 0 := by
    intro t
    rw [upToNul_cstr (zero_not_mem_upToNul t n 0), List.drop_zero,
      List.take_of_length_le (upToNul_length_le t n 0)]
  rw [← hself s, ← hself s']
  exact upToNul_congr 0 fun j _ hj _ => h j (by omega)

/-- The bytes seen are the string's own, and the one behind them, if in reach, is NUL. -/
theorem upToNul_getElem {s : Mem} : ∀ {n i j : Nat} (h : j < (upToNul s n i).length),
    (upToNul s n i)[j] = s (i + j) := by
  intro n
  induction n with
  | zero => intro i j h; exact absurd h (Nat.not_lt_zero j)
  | succ n ih =>
      intro i j h
      by_cases h0 : s i = 0
      · simp [upToNul, h0] at h
      · simp only [upToNul, h0, if_false] at h ⊢
        cases j with
        | zero => rfl
        | succ j =>
            rw [List.getElem_cons_succ, ih, Nat.add_right_comm]
            rfl

theorem upToNul_end {s : Mem} : ∀ {n i : Nat}, (upToNul s n i).length < n →
    s (i + (upToNul s n i).length) = 0 := by
  intro n
  induction n with
  | zero => intro i h; exact absurd h (Nat.not_lt_zero _)
  | succ n ih =>
      intro i h
      by_cases h0 : s i = 0
      · simp [upToNul, h0]
      · simp only [upToNul, h0, if_false, List.length_cons] at h ⊢
        have := ih (i := i + 1) (by omega)
        have hlen : i + ((upToNul s n (i + 1)).length + 1)
            = i + 1 + (upToNul s n (i + 1)).length := by omega
        rwa [hlen]

/-- Memory that reads as `s` and its terminator, as far as the limit goes, is seen as `s`. -/
theorem upToNul_of_reads {m : Mem} {s : List Byte} (hs : 0 ∉ s) {n : Nat}
    (h : ∀ j, j < n → j ≤ s.length → m j = cstr s j) : upToNul m n 0 = s.take n := by
  have hcongr : upToNul (cstr s) n 0 = upToNul m n 0 := by
    refine upToNul_congr 0 ?_
    intro j _ hj hno
    have hlen : j ≤ s.length := by
      by_contra hgt
      refine hno s.length (Nat.zero_le _) (by omega) ?_
      unfold cstr
      rw [List.getD_eq_default _ _ (Nat.le_refl _)]
    exact (h j (by omega) hlen).symm
  rw [← hcongr, upToNul_cstr hs, List.drop_zero]

/-- A byte that no NUL comes before is seen. -/
theorem upToNul_getD {s : Mem} {n j : Nat} (hj : j < n) (h : ∀ k, k ≤ j → s k ≠ 0) :
    (upToNul s n 0).getD j 0 = s j := by
  have hlen : j < (upToNul s n 0).length := by
    by_contra hle
    have hend := upToNul_end (s := s) (n := n) (i := 0) (by omega)
    rw [Nat.zero_add] at hend
    exact h _ (Nat.le_of_not_lt hle) hend
  rw [List.getD_eq_getElem _ _ hlen, upToNul_getElem, Nat.zero_add]

/-! ## Comparison -/

/-- **`strncmp` is equality of what it looks at.** -/
theorem strncmpFrom_eq_zero_iff (s s' : Mem) : ∀ n i,
    strncmpFrom s s' n i = 0 ↔ upToNul s n i = upToNul s' n i := by
  intro n
  induction n with
  | zero => intro i; exact iff_of_true rfl rfl
  | succ n ih =>
      intro i
      rw [strncmpFrom, upToNul, upToNul]
      by_cases heq : s i = s' i
      · by_cases h0 : s i = 0
        · rw [if_pos (.inr h0), ← heq, if_pos h0, if_pos h0, Int.sub_self]
          exact iff_of_true rfl rfl
        · rw [if_neg (not_or.mpr ⟨not_not.mpr heq, h0⟩), ← heq, if_neg h0, if_neg h0, ih (i + 1)]
          exact (List.cons_inj_right _).symm
      · rw [if_pos (.inl heq)]
        refine iff_of_false (fun hd => heq (BitVec.eq_of_toInt_eq (by omega))) ?_
        intro hl
        split at hl
        · split at hl
          · rename_i h1 h2
            exact heq (h1.trans h2.symm)
          · cases hl
        · split at hl
          · cases hl
          · exact heq (List.cons.inj hl).1

theorem strncmp_eq_zero_iff (s s' : Mem) (n : Nat) :
    strncmp s s' n = 0 ↔ upToNul s n 0 = upToNul s' n 0 :=
  strncmpFrom_eq_zero_iff s s' n 0

/-! ## Copying -/

/-- The first loop of `strncpy` copies what it looks at. -/
theorem strncpyCopy_eq (src : Mem) (n : Nat) : ∀ (fuel i : Nat) (dest : Mem), i + fuel = n →
    strncpyCopy src n fuel i dest = (i + (upToNul src fuel i).length,
      memcpy dest i (fun j => src (i + j)) (upToNul src fuel i).length) := by
  intro fuel
  induction fuel with
  | zero => intro i dest _; rfl
  | succ fuel ih =>
      intro i dest hi
      rw [strncpyCopy, upToNul]
      by_cases h0 : src i = 0
      · rw [if_neg (by simp [h0]), if_pos h0]
        rfl
      · rw [if_pos ⟨h0, by omega⟩, if_neg h0, ih (i + 1) _ (by omega), List.length_cons]
        refine Prod.ext (by dsimp only; omega) ?_
        dsimp only
        have happ := memcpy_append dest i (fun j => src (i + j)) 1 (upToNul src fuel (i + 1)).length
        rw [Nat.add_comm 1] at happ
        rw [← happ]
        refine (memcpy_congr _ _ ?_).symm
        intro j _
        rw [Nat.add_assoc]

/-- **`strncpy` writes what it looks at, padded with NULs to the limit.** -/
theorem strncpy_apply (dest src : Mem) (n a : Nat) :
    strncpy dest src n a = if a < n then (upToNul src n 0).getD a 0 else dest a := by
  have hlen := upToNul_length_le src n 0
  unfold strncpy
  rw [strncpyCopy_eq src n n 0 dest (Nat.zero_add n)]
  show memcpy _ (0 + (upToNul src n 0).length) (fun _ => 0) _ a = _
  rw [memcpy_apply, memcpy_apply]
  by_cases h1 : a < (upToNul src n 0).length
  · rw [if_neg (by omega), if_pos (by omega), if_pos (by omega), List.getD_eq_getElem _ _ h1,
      upToNul_getElem]
    rfl
  · rw [List.getD_eq_default _ _ (Nat.le_of_not_lt h1)]
    by_cases h2 : a < n
    · rw [if_pos (by omega), if_pos h2]
    · rw [if_neg (by omega), if_neg (by omega), if_neg h2]

end Zbiggie.Machine
