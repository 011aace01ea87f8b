import Zbiggie.Machine.Word

/-!
# Which elements of an array a routine writes

A routine that is handed an array is a function from the contents before to the
contents after. It writes an element when some contents come out with another value
there. A store that happened to leave every value as it was would have to know it, so
for a routine whose stores do not read the array this is exactly where it stores.
-/

namespace Zbiggie.Machine

variable {ι β : Type}

/-- Some array comes out of `f` with another element `i`. -/
def Writes (f : (ι → β) → ι → β) (i : ι) : Prop := ∃ m, f m i ≠ m i

/-- What comes out the same whatever went in was written. -/
theorem Writes.of_const [Nontrivial β] {f : (ι → β) → ι → β} {i : ι} {b : β}
    (h : ∀ m, f m i = b) : Writes f i := by
  obtain ⟨c, hc⟩ := exists_ne b
  exact ⟨fun _ => c, by rw [h]; exact hc.symm⟩

/-- There are two bytes. -/
instance instNontrivialByte : Nontrivial Byte := ⟨0, 1, by decide⟩

/-- A copy to the start of an array and a last element behind it. -/
theorem writes_copy_then_store (src : Nat → Byte) (n : Nat) (b : Byte) (j : Nat) :
    Writes (fun m => store (memcpy m 0 src n) n b) j ↔ j ≤ n := by
  constructor
  · rintro ⟨m, hm⟩
    by_contra hgt
    dsimp only at hm
    rw [store_of_ne (by omega), memcpy_apply, if_neg (by omega)] at hm
    exact hm rfl
  · intro hj
    rcases Nat.eq_or_lt_of_le hj with heq | hlt
    · exact .of_const (b := b) fun m => by rw [heq, store_self]
    · exact .of_const (b := src j) fun m => by
        rw [store_of_ne (by omega), memcpy_apply, if_pos (by omega)]
        rfl

end Zbiggie.Machine
