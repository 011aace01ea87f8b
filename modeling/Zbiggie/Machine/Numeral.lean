import Mathlib.Data.Nat.Digits.Lemmas
import Zbiggie.Machine.Word

/-!
# Numerals

What a string of digits denotes. A digit is a character of `0` to `9` or `A` to `Z` whose
value is below the radix, and a numeral is read from its most significant digit on. Mathlib's
`Nat.digits` has the digits of a number the other way round; `numeralOf` is its reversal,
in characters.
-/

namespace Zbiggie.Machine

/-- The value of a character as a digit. -/
def digitOf (radix : Nat) (c : Byte) : Option Nat :=
  let n := c.toNat
  let d := if 0x30 ≤ n ∧ n ≤ 0x39 then some (n - 0x30)
    else if 0x41 ≤ n ∧ n ≤ 0x5A then some (n - 0x41 + 10) else none
  d.filter (· < radix)

/-- One more digit behind the ones read. -/
def readDigit (radix : Nat) (v : Nat) (c : Byte) : Option Nat :=
  (digitOf radix c).map (v * radix + ·)

/-- The number a string of digits denotes. -/
def readNumeral (radix : Nat) (s : List Byte) : Option Nat :=
  if s = [] then none else s.foldlM (readDigit radix) 0

/-- A string that denotes `v`, without a superfluous zero in front. -/
structure Numeral (radix : Nat) (s : List Byte) (v : Nat) : Prop where
  value : readNumeral radix s = some v
  leading : s.head? = some 0x30 → s = [0x30]

/-- The character of a digit. -/
def digitChar (d : Nat) : Byte := BitVec.ofNat 8 (if d < 10 then 0x30 + d else 0x41 + (d - 10))

theorem digitOf_digitChar {radix d : Nat} (hr : radix ≤ 36) (hd : d < radix) :
    digitOf radix (digitChar d) = some d := by
  have hchar : ∀ d : Fin 36, (digitChar d).toNat = if d.val < 10 then 0x30 + d.val
      else 0x41 + (d.val - 10) := by decide
  have hn := hchar ⟨d, by omega⟩
  dsimp only at hn
  unfold digitOf
  dsimp only
  rw [hn]
  by_cases h10 : d < 10
  · rw [if_pos h10, if_pos (by omega), Nat.add_sub_cancel_left, Option.filter_some,
      if_pos (decide_eq_true hd)]
  · rw [if_neg h10, if_neg (by omega), if_pos (by omega), Nat.add_sub_cancel_left,
      Nat.sub_add_cancel (by omega), Option.filter_some, if_pos (decide_eq_true hd)]

theorem digitChar_ne_zero {d : Nat} (hd : d < 36) : digitChar d ≠ 0 := by
  have hall : ∀ d : Fin 36, digitChar d ≠ 0 := by decide
  exact hall ⟨d, hd⟩

theorem digitChar_eq_zero_digit {d : Nat} (hd : d < 36) (h : digitChar d = 0x30) : d = 0 := by
  have hall : ∀ d : Fin 36, digitChar d = 0x30 → d.val = 0 := by decide
  exact hall ⟨d, hd⟩ h

/-- **Reading digits** is Horner's scheme. -/
theorem foldlM_readDigit {radix : Nat} (hr : radix ≤ 36) : ∀ (ds : List Nat) (v : Nat),
    (∀ d ∈ ds, d < radix) →
      (ds.map digitChar).foldlM (readDigit radix) v
        = some (ds.foldl (fun v d => v * radix + d) v) := by
  intro ds
  induction ds with
  | nil => intro v _; rfl
  | cons d ds ih =>
      intro v hds
      have hd : readDigit radix v (digitChar d) = some (v * radix + d) := by
        unfold readDigit
        rw [digitOf_digitChar hr (hds d (List.mem_cons_self ..))]
        rfl
      rw [List.map_cons, List.foldlM_cons, hd, List.foldl_cons]
      exact ih _ fun e he => hds e (List.mem_cons_of_mem d he)

/-- The numeral of a number. -/
def numeralOf (radix v : Nat) : List Byte :=
  if v = 0 then [0x30] else (Nat.digits radix v).reverse.map digitChar

theorem zero_not_mem_numeralOf {radix v : Nat} (h2 : 2 ≤ radix) (hr : radix ≤ 36) :
    0 ∉ numeralOf radix v := by
  unfold numeralOf
  split
  · decide
  · intro h
    obtain ⟨d, hd, h0⟩ := List.mem_map.mp h
    have hlt := Nat.digits_lt_base h2 (List.mem_reverse.mp hd)
    exact digitChar_ne_zero (by omega) h0

theorem numeralOf_length_le {radix v k : Nat} (h2 : 2 ≤ radix) (hk : 0 < k) (h : v < radix ^ k) :
    (numeralOf radix v).length ≤ k := by
  unfold numeralOf
  split
  · exact hk
  · rw [List.length_map, List.length_reverse]
    exact (Nat.digits_length_le_iff h2 v).mpr h

/-- **The numeral of a number** denotes it. -/
theorem numeral_numeralOf {radix : Nat} (h2 : 2 ≤ radix) (hr : radix ≤ 36) (v : Nat) :
    Numeral radix (numeralOf radix v) v := by
  unfold numeralOf
  split
  · rename_i hv
    refine ⟨?_, fun _ => rfl⟩
    have hzero : digitOf radix 0x30 = some 0 :=
      digitOf_digitChar (d := 0) hr (by omega)
    unfold readNumeral readDigit
    rw [if_neg (by decide), List.foldlM_cons, hzero, hv]
    simp
  · rename_i hv
    have hlt : ∀ d ∈ (Nat.digits radix v).reverse, d < radix :=
      fun d hd => Nat.digits_lt_base h2 (List.mem_reverse.mp hd)
    have hne : Nat.digits radix v ≠ [] := Nat.digits_ne_nil_iff_ne_zero.mpr hv
    refine ⟨?_, ?_⟩
    · unfold readNumeral
      rw [if_neg (by simpa using hne), foldlM_readDigit hr _ _ hlt, List.foldl_reverse]
      -- least significant digit first, this is `Nat.ofDigits`
      have hval := Nat.ofDigits_digits radix v
      rw [Nat.ofDigits_eq_foldr] at hval
      refine congrArg some (Eq.trans ?_ hval)
      congr 1
      funext d acc
      rw [Nat.mul_comm, Nat.add_comm]
      rfl
    · intro h
      rw [List.head?_map, List.head?_reverse, List.getLast?_eq_some_getLast hne] at h
      have hlast := Nat.getLast_digit_ne_zero radix hv
      have hmem := Nat.digits_lt_base h2 (List.getLast_mem hne)
      exact absurd (digitChar_eq_zero_digit (by omega) (Option.some.inj h)) hlast

end Zbiggie.Machine
