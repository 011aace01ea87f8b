import Mathlib.Data.Int.ModEq
import Mathlib.Tactic.Ring
import Zbiggie.Machine.Run

/-!
# The nearest occupied place of a ring

Places `0` to `n - 1` in a circle, some of them occupied, and a search from a place on, in one
of the two directions. The place it finds is the `Nearest` one, it always finds one if there is
any, and from there the search in the other direction finds the way back.
-/

namespace Zbiggie.Machine

/-- Going from `p` in direction `s`, the first occupied place is `q`, `d` steps away. -/
structure Nearest (n : Nat) (occ : Int → Prop) (s p q : Int) (d : Nat) : Prop where
  pos : 1 ≤ d
  le : d ≤ n
  place : q = (p + s * d) % n
  occupied : occ q
  free : ∀ e : Nat, 1 ≤ e → e < d → ¬ occ ((p + s * e) % n)

section Search

variable {n : Nat} {occ : Int → Prop} {s p q : Int} {d : Nat}

/-- **The way back.** From an occupied place on, the nearest one the other way is where one was. -/
theorem Nearest.back (h : Nearest n occ s p q d) (hocc : occ p) (h0 : 0 ≤ p) (hn : p < n) :
    Nearest n occ (-s) q p d := by
  have hback : ∀ e : Nat, (q + -s * e) % n = (p + s * (d - e)) % n := by
    intro e
    rw [h.place, Int.emod_add_emod]
    congr 1
    ring
  refine ⟨h.pos, h.le, ?_, hocc, ?_⟩
  · rw [hback, sub_self, mul_zero, add_zero, Int.emod_eq_of_lt h0 hn]
  · intro e h1 h2
    rw [hback, ← Nat.cast_sub (Nat.le_of_lt h2)]
    exact h.free (d - e) (by omega) (by omega)

/-- **There is one**, in either direction, if any place is occupied. -/
theorem Nearest.exists (hs : s = 1 ∨ s = -1) {r : Int} (hr : occ r) (h0 : 0 ≤ r) (hn : r < n) :
    ∃ q d, Nearest n occ s p q d := by
  classical
  have hpos : (0 : Int) < n := by omega
  have hsome : ∃ e : Nat, (1 ≤ e ∧ e ≤ n) ∧ occ ((p + s * e) % n) := by
    -- `r` itself is so many steps away, or once round more
    have hmod := Int.emod_nonneg (s * (r - p) - 1) (ne_of_gt hpos)
    have hlt := Int.emod_lt_of_pos (s * (r - p) - 1) hpos
    refine ⟨((s * (r - p) - 1) % n + 1).toNat, ⟨by omega, by omega⟩, ?_⟩
    rw [Int.toNat_of_nonneg (by omega)]
    have hplace : (p + s * ((s * (r - p) - 1) % n + 1)) % n = r := by
      have hround : (s * ((s * (r - p) - 1) % n + 1)) % n = (r - p) % n := by
        rw [mul_add, mul_one, ← Int.emod_add_emod, Int.mul_emod,
          Int.emod_emod_of_dvd _ (dvd_refl _), ← Int.mul_emod, Int.emod_add_emod]
        congr 1
        rcases hs with rfl | rfl <;> ring
      rw [← Int.add_emod_emod, hround, Int.add_emod_emod, add_sub_cancel,
        Int.emod_eq_of_lt h0 hn]
    rw [hplace]
    exact hr
  obtain ⟨hd, hocc⟩ := Nat.find_spec hsome
  refine ⟨_, Nat.find hsome, hd.1, hd.2, rfl, hocc, ?_⟩
  intro e h1 h2 he
  exact Nat.find_min hsome h2 ⟨⟨h1, by omega⟩, he⟩

end Search

/-! ## The search -/

/-- On from `p` in direction `s`, at most `fuel` places, until one is occupied. -/
def ringSearch (n : Nat) (occ : Int → Prop) [DecidablePred occ] (s : Int) : Nat → Int → Int
  | 0, p => p
  | fuel + 1, p => if occ p then p else ringSearch n occ s fuel ((p + s) % n)

theorem ring_step (n : Nat) (p s : Int) (e : Nat) :
    ((p + s) % n + s * e) % n = (p + s * (e + 1 : Nat)) % n := by
  rw [Int.emod_add_emod]
  congr 1
  push_cast
  ring

theorem ringSearch_eq {n : Nat} {occ : Int → Prop} [DecidablePred occ] {s p q : Int} :
    ∀ (d fuel : Nat), d ≤ fuel → q = (p + s * d) % n → occ q → 0 ≤ p → p < n →
      (∀ e : Nat, e < d → ¬ occ ((p + s * e) % n)) → ringSearch n occ s fuel p = q := by
  intro d
  induction d generalizing p with
  | zero =>
      intro fuel _ hq hocc h0 hn _
      have hqp : q = p := by rw [hq, Nat.cast_zero, mul_zero, add_zero, Int.emod_eq_of_lt h0 hn]
      subst hqp
      cases fuel with
      | zero => rfl
      | succ fuel => rw [ringSearch, if_pos hocc]
  | succ d ih =>
      intro fuel hfuel hq hocc h0 hn hfree
      have hnow : ¬ occ p := by
        have := hfree 0 (Nat.succ_pos d)
        rwa [Nat.cast_zero, mul_zero, add_zero, Int.emod_eq_of_lt h0 hn] at this
      obtain ⟨fuel, rfl⟩ : ∃ f, fuel = f + 1 := ⟨fuel - 1, by omega⟩
      have hpos : (0 : Int) < n := by omega
      rw [ringSearch, if_neg hnow]
      refine ih fuel (by omega) (by rw [ring_step, hq]) hocc (Int.emod_nonneg _ (ne_of_gt hpos))
        (Int.emod_lt_of_pos _ hpos) ?_
      intro e he
      rw [ring_step]
      exact hfree (e + 1) (by omega)

/-- **The search finds the nearest place**, from the first step on. -/
theorem Nearest.search {n : Nat} {occ : Int → Prop} [DecidablePred occ] {s p q : Int} {d : Nat}
    (h : Nearest n occ s p q d) : ringSearch n occ s n ((p + s) % n) = q := by
  have hpos : (0 : Int) < n := by
    have h1 := h.pos
    have h2 := h.le
    omega
  obtain ⟨e, rfl⟩ : ∃ e, d = e + 1 := ⟨d - 1, by have := h.pos; omega⟩
  have hle := h.le
  refine ringSearch_eq e n (by omega) (by rw [ring_step]; exact h.place) h.occupied
    (Int.emod_nonneg _ (ne_of_gt hpos)) (Int.emod_lt_of_pos _ hpos) ?_
  intro f hf
  rw [ring_step]
  exact h.free (f + 1) (by omega) (by omega)

end Zbiggie.Machine
