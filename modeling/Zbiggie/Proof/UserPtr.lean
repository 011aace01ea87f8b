import Zbiggie.Kernel.Syscall

/-!
# What the user pointer check lets through

`usr_ptr_ok` compares the start of a range as a signed number and its end as an
unsigned one, and the end is a 32-bit sum. For a start in the upper program half
of the signed range the sum can pass `2^32` and come back below 132M: the check
then accepts a range that covers most of the address space.

`Wraps` is that set of pairs, stated over the integers. The results below say that
it is exactly what goes wrong, for the check itself and for each of the three
system calls that rest on it.
-/

namespace Zbiggie.Proof

open Zbiggie Machine

/-- The `n` bytes from `p` on lie in the program page `[128M, 132M)`. -/
def InUserPage (p n : Nat) : Prop := offset128M ≤ p ∧ p + n ≤ offset132M

instance (p n : Nat) : Decidable (InUserPage p n) := by unfold InUserPage; infer_instance

/-- The sum `p + s` passes `2^32` and ends up at or below 132M. -/
def Wraps (p s : Word) : Prop :=
  offset128M ≤ p.toNat ∧ p.toNat < 2 ^ 31 ∧
    2 ^ 32 ≤ p.toNat + s.toNat ∧ p.toNat + s.toNat ≤ 2 ^ 32 + offset132M

instance (p s : Word) : Decidable (Wraps p s) := by unfold Wraps; infer_instance

/-- The check in terms of the two registers' unsigned values. -/
theorem usrPtrOk_eq_one_iff (p s : Word) :
    usrPtrOk p s = 1 ↔
      offset128M ≤ p.toNat ∧ p.toNat < 2 ^ 31 ∧ (p.toNat + s.toNat) % 2 ^ 32 ≤ offset132M := by
  have hp := p.isLt
  unfold usrPtrOk
  rw [BitVec.toInt_eq_toNat_cond, BitVec.toNat_add]
  simp only [offset128M, offset132M, offset4M]
  split
  · split <;> simp <;> omega
  · split <;> simp <;> omega

theorem usrPtrOk_eq_zero_iff (p s : Word) : usrPtrOk p s = 0 ↔ usrPtrOk p s ≠ 1 := by
  unfold usrPtrOk; split <;> simp

/-- **The check, exactly.** It accepts the ranges inside the program page and the wrapping ones. -/
theorem usrPtrOk_iff (p s : Word) :
    usrPtrOk p s = 1 ↔ InUserPage p.toNat s.toNat ∨ Wraps p s := by
  have hp := p.isLt
  have hs := s.isLt
  rw [usrPtrOk_eq_one_iff]
  unfold InUserPage Wraps
  simp only [offset128M, offset132M, offset4M]
  omega

/-- A wrapping range is not inside the program page. -/
theorem Wraps.not_inUserPage {p s : Word} (h : Wraps p s) : ¬ InUserPage p.toNat s.toNat := by
  obtain ⟨_, _, h3, _⟩ := h
  unfold InUserPage
  simp only [offset128M, offset132M, offset4M]
  omega

/--
A size that is negative as a signed number is the only kind that wraps, and
`min` then returns it unchanged.
-/
theorem Wraps.toInt_neg {p s : Word} (h : Wraps p s) : s.toInt < 0 := by
  obtain ⟨_, h2, h3, _⟩ := h
  rw [BitVec.toInt_eq_toNat_cond]
  split <;> omega

/-- A range in the program page has a size `min` can only shrink. -/
theorem InUserPage.toInt_nonneg {p s : Word} (h : InUserPage p.toNat s.toNat) :
    s.toInt = s.toNat := by
  obtain ⟨_, h2⟩ := h
  simp only [offset132M, offset4M] at h2
  rw [BitVec.toInt_eq_toNat_cond]
  split <;> omega

/-- The count `getargs` copies: all of a wrapping size, the smaller of two otherwise. -/
theorem getargs_count_of_wraps {p s : Word} (h : Wraps p s) :
    BitVec.ofInt 32 (min s.toInt bufSize) = s := by
  have hneg := h.toInt_neg
  unfold Zbiggie.min
  rw [if_pos (by simp only [bufSize]; omega)]
  exact BitVec.ofInt_toInt

theorem getargs_count_le {p s : Word} (h : InUserPage p.toNat s.toNat) :
    (BitVec.ofInt 32 (min s.toInt bufSize)).toNat ≤ s.toNat := by
  have hs := h.toInt_nonneg
  unfold Zbiggie.min
  split
  · rw [BitVec.ofInt_toInt]
  · rename_i hlt
    simp only [bufSize] at hlt ⊢
    have : (BitVec.ofInt 32 (128 : Nat)).toNat = 128 := by decide
    rw [this]
    omega

/-! ## The three system calls -/

/-- Nothing outside the program page is reached: the range is inside, or there is none. -/
def Confined : Call → Prop
  | .returns v => ∀ img d dev r k, (Call.returns v).run img d dev r k = some (-1, k)
  | .kread _ buf n => InUserPage buf.toNat n.toNat
  | .kwrite _ buf n => InUserPage buf.toNat n.toNat
  | .strncpy buf n => InUserPage buf.toNat n.toNat

theorem confined_returns : Confined (.returns (-1)) := fun _ _ _ _ _ => rfl

/-- A request issued with registers `r`, if it is one of the three, stays confined. -/
def Confines (r : Regs) (k : Kernel) : Prop := ∀ c, request r k = some c → Confined c

/--
The requests that go wrong: a wrapping pair that gets past the descriptor check
of `read` and `write`, or any wrapping pair given to `getargs`.
-/
def Overruns (r : Regs) (k : Kernel) : Prop :=
  ((r.eax.toNat = 3 ∨ r.eax.toNat = 4) ∧ Wraps r.ecx r.edx ∧ (getFile k r.ebx.toInt).isSome) ∨
    (r.eax.toNat = 7 ∧ Wraps r.ebx r.ecx)

theorem read_confined_iff (r : Regs) (k : Kernel) :
    Confined (read r k) ↔ ¬ (Wraps r.ecx r.edx ∧ (getFile k r.ebx.toInt).isSome) := by
  unfold read
  by_cases hz : usrPtrOk r.ecx r.edx = 0
  · rw [if_pos hz]
    have hw : ¬ Wraps r.ecx r.edx := fun hw =>
      (usrPtrOk_eq_zero_iff _ _).mp hz ((usrPtrOk_iff _ _).mpr (.inr hw))
    exact ⟨fun _ h => hw h.1, fun _ => confined_returns⟩
  · rw [if_neg hz]
    have hok : usrPtrOk r.ecx r.edx = 1 := by
      by_contra hne; exact hz ((usrPtrOk_eq_zero_iff _ _).mpr hne)
    cases hf : getFile k r.ebx.toInt with
    | none => exact ⟨fun _ h => by simp at h, fun _ => confined_returns⟩
    | some fd =>
        constructor
        · intro hc hw; exact hw.1.not_inUserPage hc
        · intro hw
          rcases (usrPtrOk_iff _ _).mp hok with h | h
          · exact h
          · exact absurd ⟨h, rfl⟩ hw

theorem write_confined_iff (r : Regs) (k : Kernel) :
    Confined (write r k) ↔ ¬ (Wraps r.ecx r.edx ∧ (getFile k r.ebx.toInt).isSome) := by
  rw [← read_confined_iff]
  unfold write read
  split
  · rfl
  · cases getFile k r.ebx.toInt <;> exact Iff.rfl

theorem getargs_confined_iff (r : Regs) : Confined (getargs r) ↔ ¬ Wraps r.ebx r.ecx := by
  unfold getargs
  by_cases hz : usrPtrOk r.ebx r.ecx = 0
  · rw [if_pos hz]
    have hw : ¬ Wraps r.ebx r.ecx := fun hw =>
      (usrPtrOk_eq_zero_iff _ _).mp hz ((usrPtrOk_iff _ _).mpr (.inr hw))
    exact ⟨fun _ => hw, fun _ => confined_returns⟩
  · rw [if_neg hz]
    have hok : usrPtrOk r.ebx r.ecx = 1 := by
      by_contra hne; exact hz ((usrPtrOk_eq_zero_iff _ _).mpr hne)
    constructor
    · intro hc hw
      rw [getargs_count_of_wraps hw] at hc
      exact hw.not_inUserPage hc
    · intro hw
      rcases (usrPtrOk_iff _ _).mp hok with h | h
      · exact ⟨h.1, Nat.le_trans (Nat.add_le_add_left (getargs_count_le h) _) h.2⟩
      · exact absurd h hw

/-- `Confines` unfolded over the three numbers that `syscall` dispatches to these calls. -/
theorem confines_iff (r : Regs) (k : Kernel) : Confines r k ↔ ¬ Overruns r k := by
  unfold Confines Overruns request
  split
  · rename_i he
    rw [he]
    simp only [Option.some.injEq, forall_eq', read_confined_iff]
    simp
  · rename_i he
    rw [he]
    simp only [Option.some.injEq, forall_eq', write_confined_iff]
    simp
  · rename_i he
    rw [he]
    simp only [Option.some.injEq, forall_eq', getargs_confined_iff]
    simp
  · rename_i h3 h4 h7
    constructor
    · rintro - (⟨h | h, _⟩ | ⟨h, _⟩)
      · exact h3 h
      · exact h4 h
      · exact h7 h
    · intro _ c hc
      cases hc

/--
**What the check protects, and what it does not.** An accepted range is inside
the program page if and only if the pair does not wrap; and a `read`, `write` or
`getargs` request hands on only ranges inside that page, or returns `-1` with
nothing changed, if and only if no wrapping pair gets through it.
-/
theorem usrPtrOk_protects_iff (p s : Word) (r : Regs) (k : Kernel) :
    ((usrPtrOk p s = 1 → InUserPage p.toNat s.toNat) ↔ ¬ Wraps p s) ∧
      (Confines r k ↔ ¬ Overruns r k) := by
  refine ⟨⟨?_, ?_⟩, confines_iff r k⟩
  · intro h hw
    exact hw.not_inUserPage (h ((usrPtrOk_iff p s).mpr (.inr hw)))
  · intro hw h
    rcases (usrPtrOk_iff p s).mp h with hin | hwrap
    · exact hin
    · exact absurd hwrap hw

/--
The whole address space but one byte, starting at 128M, is accepted; `getargs`
with that pair copies `2^32 - 1` bytes.
-/
theorem usrPtrOk_accepts_wrapping :
    (usrPtrOk 0x08000000 0xFFFFFFFF = 1 ∧ ¬ InUserPage 0x08000000 0xFFFFFFFF) ∧
      ¬ Confined (getargs ⟨7, 0x08000000, 0xFFFFFFFF, 0⟩) := by
  refine ⟨by decide, ?_⟩
  rw [getargs_confined_iff]
  decide

end Zbiggie.Proof
