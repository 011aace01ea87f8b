import Mathlib.Data.List.Nodup
import Mathlib.Logic.Function.Basic

/-!
# Piles

A family of lists that share no member and repeat none: whatever is on a pile is on that one
alone, and once. A member that is on none of them can be put on top of any, and the top of one
can be taken away. The piles stay apart, and `mem_push` and `Apart.mem_pop` say what is on them.
-/

namespace Zbiggie.Machine

variable {ι α : Type}

/-- No member is on two piles, or on one of them twice. -/
structure Apart (c : ι → List α) : Prop where
  nodup : ∀ i, (c i).Nodup
  disjoint : ∀ i j, i ≠ j → ∀ a ∈ c i, a ∉ c j

variable [DecidableEq ι] {c : ι → List α} {i : ι} {a : α} {as : List α}

theorem update_cons_ne_nil {j : ι} (h : c j ≠ []) : Function.update c i (a :: as) j ≠ [] := by
  by_cases hj : j = i
  · subst hj
    rw [Function.update_self]
    exact List.cons_ne_nil a as
  · rwa [Function.update_of_ne hj]

theorem mem_push {j : ι} {b : α} :
    b ∈ Function.update c i (a :: c i) j ↔ b ∈ c j ∨ (j = i ∧ b = a) := by
  by_cases hj : j = i
  · subst hj
    rw [Function.update_self, List.mem_cons]
    constructor
    · rintro (rfl | hb)
      · exact .inr ⟨rfl, rfl⟩
      · exact .inl hb
    · rintro (hb | ⟨_, rfl⟩)
      · exact .inr hb
      · exact .inl rfl
  · rw [Function.update_of_ne hj]
    exact ⟨.inl, fun hb => hb.elim id fun hb => absurd hb.1 hj⟩

/-- **A new member** on top. -/
theorem Apart.push (h : Apart c) (hfresh : ∀ j, a ∉ c j) :
    Apart (Function.update c i (a :: c i)) := by
  constructor
  · rw [Function.forall_update_iff c fun _ l => l.Nodup]
    exact ⟨List.nodup_cons.mpr ⟨hfresh i, h.nodup i⟩, fun j _ => h.nodup j⟩
  · intro j j' hne b hb hb'
    rcases mem_push.mp hb with hb | ⟨hj, rfl⟩ <;> rcases mem_push.mp hb' with hb' | ⟨hj', he⟩
    · exact h.disjoint j j' hne b hb hb'
    · exact hfresh j (he ▸ hb)
    · exact hfresh j' hb'
    · exact hne (hj.trans hj'.symm)

theorem Apart.mem_pop (h : Apart c) (hc : c i = a :: as) {j : ι} {b : α} :
    b ∈ Function.update c i as j ↔ b ∈ c j ∧ b ≠ a := by
  by_cases hj : j = i
  · subst hj
    have htop : a ∉ as := (List.nodup_cons.mp (hc ▸ h.nodup j)).1
    rw [Function.update_self, hc, List.mem_cons]
    constructor
    · intro hb
      exact ⟨.inr hb, fun he => htop (he ▸ hb)⟩
    · rintro ⟨hb, hne⟩
      exact hb.resolve_left hne
  · rw [Function.update_of_ne hj]
    constructor
    · intro hb
      refine ⟨hb, ?_⟩
      rintro rfl
      exact h.disjoint i j (Ne.symm hj) b (hc ▸ List.mem_cons_self) hb
    · exact And.left

/-- **The top** of a pile is taken away. -/
theorem Apart.pop (h : Apart c) (hc : c i = a :: as) : Apart (Function.update c i as) := by
  constructor
  · rw [Function.forall_update_iff c fun _ l => l.Nodup]
    exact ⟨(List.nodup_cons.mp (hc ▸ h.nodup i)).2, fun j _ => h.nodup j⟩
  · intro j j' hne b hb hb'
    exact h.disjoint j j' hne b ((h.mem_pop hc).mp hb).1 ((h.mem_pop hc).mp hb').1

end Zbiggie.Machine
