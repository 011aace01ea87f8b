import Zbiggie.Kernel.Format
import Zbiggie.Machine.Numeral
import Zbiggie.Proof.CommandLine

/-!
# Numbers and format strings

Two facts about `printf`. A number it prints denotes its argument: `itoa` lays down the
digits of `Nat.digits` and `strrev` turns them round, and the two regions of the padded form
join up to eight digits whatever their number. And the scan of the format string ends at
its terminator when the string is `Complete`, which leaves out those that end inside a
conversion: there the `buf++` behind the switch goes over the terminator.
-/

namespace Zbiggie.Proof

open Zbiggie Machine

/-! ## Strings in memory -/

theorem strlenFrom_eq {m : Mem} {n : Nat} (hstop : m n = 0) (hgo : ∀ j, j < n → m j ≠ 0) :
    ∀ (fuel len : Nat), len ≤ n → n - len ≤ fuel → strlenFrom m fuel len = n := by
  intro fuel
  induction fuel with
  | zero =>
      intro len h1 h2
      have hlen : len = n := by omega
      exact hlen
  | succ fuel ih =>
      intro len h1 h2
      rw [strlenFrom]
      by_cases hlen : len = n
      · subst hlen
        rw [if_neg (not_not.mpr hstop)]
      · rw [if_pos (hgo len (by omega))]
        exact ih (len + 1) (by omega) (by omega)

theorem cstr_ne_zero {s : List Byte} (h0 : 0 ∉ s) {j : Nat} (hj : j < s.length) : cstr s j ≠ 0 := by
  unfold cstr
  rw [List.getD_eq_getElem _ _ hj]
  exact fun hz => h0 (hz ▸ List.getElem_mem hj)

theorem cstr_length (s : List Byte) : cstr s s.length = 0 := by
  unfold cstr
  rw [List.getD_eq_default _ _ (Nat.le_refl _)]

theorem strlen_of_holds {m : Mem} {s : List Byte} (h : Holds m s) (h0 : 0 ∉ s)
    (hlen : s.length ≤ addressSpace) : strlen m = s.length := by
  refine strlenFrom_eq ((h _ (Nat.le_refl _)).trans (cstr_length s)) ?_ _ 0 (Nat.zero_le _) hlen
  intro j hj
  rw [h j (Nat.le_of_lt hj)]
  exact cstr_ne_zero h0 hj

theorem puts_of_holds {m : Mem} {s : List Byte} (h : Holds m s) (h0 : 0 ∉ s)
    (hlen : s.length ≤ addressSpace) : puts m = s := by
  unfold puts
  rw [upToNul_of_reads h0 fun j _ hj => h j hj, List.take_of_length_le hlen]

/-- **The loop of `strrev`**: what is between its two indices is mirrored. -/
theorem strrevLoop_apply (b e : Int) (s : Mem) : 0 ≤ b → ∀ i : Nat,
    strrevLoop b e s i = if b ≤ i ∧ (i : Int) ≤ e then s (b + e - i).toNat else s i := by
  induction b, e, s using strrevLoop.induct with
  | case1 b e s hlt tmp s' ih =>
      intro hb i
      rw [strrevLoop, if_pos hlt]
      refine (ih (by omega) i).trans ?_
      -- the two ends have been exchanged, and the rest is as it was
      have hswap : ∀ j : Nat, store s' b.toNat tmp j
          = if (j : Int) = b then s e.toNat else if (j : Int) = e then s b.toNat else s j := by
        intro j
        by_cases hjb : (j : Int) = b
        · rw [if_pos hjb, show b.toNat = j by omega, store_self]
        · rw [if_neg hjb, store_of_ne (by omega)]
          by_cases hje : (j : Int) = e
          · rw [if_pos hje]
            show store s e.toNat (s b.toNat) j = s b.toNat
            rw [show e.toNat = j by omega, store_self]
          · rw [if_neg hje]
            exact store_of_ne (by omega)
      rw [hswap, hswap]
      by_cases hin : b ≤ i ∧ (i : Int) ≤ e
      · rw [if_pos hin]
        by_cases hib : (i : Int) = b
        · rw [if_neg (by omega), if_pos hib]
          congr 1
          omega
        · by_cases hie : (i : Int) = e
          · rw [if_neg (by omega), if_neg hib, if_pos hie]
            congr 1
            omega
          · rw [if_pos (by omega), if_neg (by omega), if_neg (by omega)]
            congr 1
            omega
      · rw [if_neg (by omega), if_neg hin, if_neg (by omega), if_neg (by omega)]
  | case2 b e s hlt =>
      intro hb i
      rw [strrevLoop, if_neg hlt]
      split
      · congr 1
        omega
      · rfl

/-- **`strrev`** reverses a string in place, and touches nothing else. -/
theorem strrev_apply {m : Mem} {s : List Byte} (h : Holds m s) (h0 : 0 ∉ s)
    (hlen : s.length ≤ addressSpace) :
    Holds (strrev m) s.reverse ∧ ∀ i, s.length ≤ i → strrev m i = m i := by
  have hrev : ∀ i : Nat, strrev m i
      = if i < s.length then m (s.length - 1 - i) else m i := by
    intro i
    unfold strrev
    rw [strlen_of_holds h h0 hlen, strrevLoop_apply _ _ _ (Int.le_refl 0)]
    by_cases hi : i < s.length
    · rw [if_pos hi, if_pos (by omega)]
      congr 1
      omega
    · rw [if_neg hi, if_neg (by omega)]
  refine ⟨?_, ?_⟩
  · intro j hj
    rw [List.length_reverse] at hj
    rw [hrev]
    by_cases hlast : j < s.length
    · rw [if_pos hlast, h _ (by omega)]
      unfold cstr
      rw [List.getD_eq_getElem _ _ (by omega),
        List.getD_eq_getElem _ _ (by rw [List.length_reverse]; exact hlast), List.getElem_reverse]
    · have heq : j = s.length := by omega
      rw [if_neg hlast, heq, h _ (Nat.le_refl _), cstr_length]
      have := cstr_length s.reverse
      rw [List.length_reverse] at this
      exact this.symm
  · intro i hi
    rw [hrev, if_neg (by omega)]

/-! ## `itoa` -/

section Itoa

variable {radix : Radix}

theorem lookup_digit {d : Nat} (hd : d < 36) : lookup.getD d 0 = digitChar d := by
  have hall : ∀ d : Fin 36, lookup.getD d 0 = digitChar d := by decide
  exact hall ⟨d, hd⟩

/-- **The digits**, least significant first. -/
theorem itoaLoop_apply (radix : Radix) (v i : Nat) (buf : Mem) :
    (itoaLoop radix v i buf).1 = i + (Nat.digits radix v).length ∧
      ∀ a, (itoaLoop radix v i buf).2 a = if i ≤ a ∧ a < i + (Nat.digits radix v).length then
        lookup.getD ((Nat.digits radix v).getD (a - i) 0) 0 else buf a := by
  induction v, i, buf using itoaLoop.induct radix with
  | case1 v i buf hv ih =>
      obtain ⟨hend, hbytes⟩ := ih
      rw [itoaLoop, if_pos hv, Nat.digits_def' radix.2 hv, List.length_cons]
      refine ⟨by omega, ?_⟩
      intro a
      rw [hbytes]
      rcases Nat.lt_trichotomy a i with hlt | rfl | hgt
      · rw [if_neg (by omega), if_neg (by omega), store_of_ne (by omega)]
      · rw [if_neg (by omega), if_pos (by omega), store_self, Nat.sub_self, List.getD_cons_zero]
      · obtain ⟨j, hj⟩ : ∃ j, a = i + 1 + j := ⟨a - (i + 1), by omega⟩
        rw [show a - (i + 1) = j by omega, show a - i = j + 1 by omega, List.getD_cons_succ,
          store_of_ne (by omega)]
        by_cases hin : j < (Nat.digits radix (v / radix)).length
        · rw [if_pos (by omega), if_pos (by omega)]
        · rw [if_neg (by omega), if_neg (by omega)]
  | case2 v i buf hv =>
      have hzero : v = 0 := by omega
      subst hzero
      rw [itoaLoop, if_neg hv, Nat.digits_zero]
      exact ⟨rfl, fun a => by rw [if_neg (by simp)]⟩

/-- At most 32 digits, in any radix. -/
theorem numeralOf_length_word {r : Nat} (h2 : 2 ≤ r) (v : Word) :
    (numeralOf r v.toNat).length ≤ 32 := by
  refine numeralOf_length_le h2 (by decide) ?_
  exact Nat.lt_of_lt_of_le v.isLt (Nat.pow_le_pow_left h2 32)

/-- **`itoa`** leaves the numeral, and nothing behind its terminator. -/
theorem itoa_apply (h36 : radix.val ≤ 36) (v : Word) (buf : Mem) :
    Holds (itoa v buf radix) (numeralOf radix v.toNat) ∧
      ∀ i, (numeralOf radix v.toNat).length < i → itoa v buf radix i = buf i := by
  unfold itoa numeralOf
  by_cases hv : v = 0
  · subst hv
    rw [if_pos rfl, if_pos (by decide)]
    refine ⟨?_, ?_⟩
    · intro j hj
      rcases j with _ | _ | j
      · rfl
      · rfl
      · simp at hj
    · intro i hi
      simp only [List.length_cons, List.length_nil] at hi
      rw [store_of_ne (by omega), store_of_ne (by omega)]
  · have hnat : v.toNat ≠ 0 := fun h => hv (BitVec.eq_of_toNat_eq h)
    rw [if_neg hv, if_neg hnat]
    obtain ⟨hend, hbytes⟩ := itoaLoop_apply radix v.toNat 0 buf
    dsimp only
    rw [hend, Nat.zero_add]
    obtain ⟨ds, hds⟩ : ∃ ds, ds = Nat.digits radix v.toNat := ⟨_, rfl⟩
    have hlt : ∀ d ∈ ds, d < 36 := fun d hd =>
      Nat.lt_of_lt_of_le (Nat.digits_lt_base radix.2 (hds ▸ hd)) h36
    have hlen : ds.length ≤ 32 := by
      have := numeralOf_length_word radix.2 v
      unfold numeralOf at this
      rw [if_neg hnat, List.length_map, List.length_reverse] at this
      rw [hds]
      exact this
    rw [← hds] at hbytes ⊢
    -- the loop leaves the digits last first; `strrev` turns them round
    have hstored :
        Holds (store (itoaLoop radix v.toNat 0 buf).2 ds.length 0) (ds.map digitChar) := by
      intro j hj
      rw [List.length_map] at hj
      unfold cstr
      by_cases hlast : j = ds.length
      · rw [hlast, store_self, List.getD_eq_default _ _ (by rw [List.length_map])]
      · have hin : j < ds.length := by omega
        rw [store_of_ne hlast, hbytes, if_pos (by omega), Nat.sub_zero,
          List.getD_eq_getElem _ _ hin, lookup_digit (hlt _ (List.getElem_mem hin)),
          List.getD_eq_getElem _ _ (by rw [List.length_map]; exact hin), List.getElem_map]
    have hno : 0 ∉ ds.map digitChar := by
      intro h
      obtain ⟨d, hd, h0⟩ := List.mem_map.mp h
      exact digitChar_ne_zero (hlt d hd) h0
    have hspace : (ds.map digitChar).length ≤ addressSpace := by
      rw [List.length_map]
      exact Nat.le_trans hlen (by decide)
    obtain ⟨hrev, hout⟩ := strrev_apply hstored hno hspace
    rw [List.map_reverse]
    refine ⟨hrev, ?_⟩
    intro i hi
    rw [List.length_reverse, List.length_map] at hi
    rw [hout i (by rw [List.length_map]; omega), store_of_ne (by omega), hbytes, if_neg (by omega)]

theorem puts_itoa (h36 : radix.val ≤ 36) (v : Word) (buf : Mem) :
    puts (itoa v buf radix) = numeralOf radix v.toNat := by
  refine puts_of_holds (itoa_apply h36 v buf).1 (zero_not_mem_numeralOf radix.2 h36) ?_
  exact Nat.le_trans (numeralOf_length_word radix.2 v) (by decide)

end Itoa

/-! ## The conversions -/

/-- A call on `&m[o]` that leaves a string there. -/
theorem holds_within {m : Mem} {o : Nat} {f : Mem → Mem} {s : List Byte}
    (h : Holds (f fun j => m (o + j)) s) : Holds (fun j => within m o f (o + j)) s := by
  intro j hj
  have hat := h j hj
  unfold within
  dsimp only
  rw [if_neg (by omega), Nat.add_sub_cancel_left]
  exact hat

/-- **The padded form**: zeros up to the start of the numeral, wherever that starts. -/
theorem putAlternate_eq (v : Word) (buf : Mem) : putAlternate v buf
    = List.replicate (8 - (numeralOf 16 v.toNat).length) 0x30 ++ numeralOf 16 v.toNat := by
  have h0 : 0 ∉ numeralOf 16 v.toNat := zero_not_mem_numeralOf (by decide) (by decide)
  have hlen : (numeralOf 16 v.toNat).length ≤ 8 :=
    numeralOf_length_le (by decide) (by decide) v.isLt
  have hspace : (8 : Nat) ≤ addressSpace := by decide
  have hnum := holds_within (m := buf) (o := 8) (f := fun b => itoa v b ⟨16, by decide⟩)
    (itoa_apply (by decide) v _).1
  unfold putAlternate
  dsimp only
  rw [strlen_of_holds hnum h0 (Nat.le_trans hlen hspace)]
  dsimp only at hnum ⊢
  generalize within buf 8 (fun b => itoa v b ⟨16, by decide⟩) = m at hnum ⊢
  generalize numeralOf 16 v.toNat = ds at h0 hlen hnum ⊢
  refine puts_of_holds ?_ ?_ ?_
  · intro j hj
    rw [List.length_append, List.length_replicate] at hj
    show memcpy m ds.length (fun _ => 0x30) (8 - ds.length) (ds.length + j) = _
    rw [memcpy_apply]
    unfold cstr
    by_cases hpad : j < 8 - ds.length
    · rw [if_pos (by omega), List.getD_append _ _ _ _ (by rw [List.length_replicate]; exact hpad),
        List.getD_replicate _ hpad]
    · rw [if_neg (by omega), List.getD_append_right _ _ _ _ (by rw [List.length_replicate]; omega),
        List.length_replicate]
      have hdigit := hnum (j - (8 - ds.length)) (by omega)
      dsimp only at hdigit
      rw [show 8 + (j - (8 - ds.length)) = ds.length + j by omega] at hdigit
      exact hdigit
  · intro h
    rcases List.mem_append.mp h with h | h
    · exact absurd (List.eq_of_mem_replicate h) (by decide)
    · exact h0 h
  · rw [List.length_append, List.length_replicate]
    omega

/-- Zeros in front do not count. -/
theorem readNumeral_zeros {s : List Byte} {v : Nat} (h : readNumeral 16 s = some v) (n : Nat) :
    readNumeral 16 (List.replicate n 0x30 ++ s) = some v := by
  have hs : s ≠ [] := by
    rintro rfl
    cases h
  unfold readNumeral at h ⊢
  rw [if_neg hs] at h
  rw [if_neg (List.append_ne_nil_of_right_ne_nil _ hs)]
  induction n with
  | zero => exact h
  | succ n ih => exact ih

/-- A numeral behind its sign. -/
def SignedNumeral (s : List Byte) (v : Int) : Prop :=
  if v < 0 then ∃ ds, s = 0x2D :: ds ∧ Numeral 10 ds v.natAbs else Numeral 10 s v.natAbs

theorem putSigned_denotes (v : Word) (buf : Mem) : SignedNumeral (putSigned v buf) v.toInt := by
  unfold SignedNumeral putSigned
  split
  · rename_i hneg
    -- the most negative value is its own negation, and its own magnitude read unsigned
    have hmag : (-v).toNat = v.toInt.natAbs := by
      rw [BitVec.toNat_neg]
      rw [BitVec.toInt_eq_toNat_cond] at hneg ⊢
      have := v.isLt
      split at hneg <;> omega
    have h0 : 0 ∉ numeralOf 10 (-v).toNat := zero_not_mem_numeralOf (by decide) (by decide)
    have hnum := holds_within (m := store buf 0 0x2D) (o := 1)
      (f := fun b => itoa (-v) b ⟨10, by decide⟩) (itoa_apply (by decide) (-v) _).1
    have hlen := numeralOf_length_word (r := 10) (by decide) (-v)
    rw [← hmag]
    refine ⟨numeralOf 10 (-v).toNat, puts_of_holds ?_ ?_ ?_,
      numeral_numeralOf (by decide) (by decide) _⟩
    · intro j hj
      rcases j with _ | j
      · rfl
      · have hdigit := hnum j (by simpa using hj)
        dsimp only at hdigit
        rw [Nat.add_comm 1 j] at hdigit
        exact hdigit
    · intro h
      rcases List.mem_cons.mp h with h | h
      · exact absurd h (by decide)
      · exact h0 h
    · rw [List.length_cons]
      exact Nat.le_trans (Nat.succ_le_succ hlen) (by decide)
  · rename_i hpos
    have hmag : v.toNat = v.toInt.natAbs := by
      rw [BitVec.toInt_eq_toNat_cond] at hpos ⊢
      have := v.isLt
      split at hpos <;> omega
    rw [puts_itoa (by decide), hmag]
    exact numeral_numeralOf (by decide) (by decide) _

/-! ## A conversion in a format -/

section Conversion

variable {fmt : Mem} {args : PrintfArgs}

/-- A `%` opens a conversion. -/
theorem printfStep_percent {b e : Nat} {out : List Byte} (h : fmt b = 0x25) :
    printfStep fmt args ⟨.top, b, e, out⟩ = ⟨.conversion false, b + 1, e, out⟩ := by
  unfold printfStep
  dsimp only
  rw [h, if_neg (by decide), if_pos rfl]

theorem printfStep_hash {alt : Bool} {b e : Nat} {out : List Byte} (h : fmt b = 0x23) :
    printfStep fmt args ⟨.conversion alt, b, e, out⟩ = ⟨.conversion true, b + 1, e, out⟩ := by
  unfold printfStep
  dsimp only
  rw [h, if_pos rfl]

/-- Anything else ends it, and the scan goes on behind. -/
theorem printfStep_specifier {b : Nat} (alt : Bool) (e : Nat) (out : List Byte)
    (h : fmt b ≠ 0x23) :
    ∃ e' out', printfStep fmt args ⟨.conversion alt, b, e, out⟩ = ⟨.top, b + 1, e', out'⟩ := by
  unfold printfStep
  dsimp only
  rw [if_neg h]
  exact ⟨_, _, rfl⟩

theorem printfRun_add (fmt : Mem) (args : PrintfArgs) (n m : Nat) :
    printfRun fmt args (n + m) = (printfStep fmt args)^[m] (printfRun fmt args n) := by
  unfold printfRun
  rw [Nat.add_comm, Function.iterate_add_apply]

/-- At any time `printf` comes to `conv`, it puts a string that is `P` of its next argument. -/
def Converts (fmt : Mem) (args : PrintfArgs) (conv : List Byte) (P : List Byte → Word → Prop) :
    Prop :=
  ∀ n, (printfRun fmt args n).point = .top →
    (∀ j, j < conv.length → fmt ((printfRun fmt args n).buf + j) = conv.getD j 0) →
    ∃ ds, P ds (args.words (printfRun fmt args n).esp) ∧
      printfRun fmt args (n + conv.length) = ⟨.top, (printfRun fmt args n).buf + conv.length,
        (printfRun fmt args n).esp + 1, (printfRun fmt args n).out ++ ds⟩

/-- The two steps of a plain conversion. -/
theorem converts_plain {c : Byte} {P : List Byte → Word → Prop} (hc : c ≠ 0x23)
    (hconv : ∀ e, (convert args false c e).2 = 1)
    (hP : ∀ e, P (convert args false c e).1 (args.words e)) : Converts fmt args [0x25, c] P := by
  intro n htop hat
  have h0 := hat 0 (Nat.succ_pos 1)
  have h1 := hat 1 (Nat.lt_succ_self 1)
  rw [printfRun_add]
  generalize printfRun fmt args n = s at *
  obtain ⟨point, b, e, out⟩ := s
  dsimp only at htop h0 h1 hat
  subst htop
  refine ⟨_, hP e, ?_⟩
  show printfStep fmt args (printfStep fmt args ⟨.top, b, e, out⟩) = _
  rw [printfStep_percent (show fmt b = 0x25 from h0)]
  unfold printfStep
  dsimp only
  rw [show fmt (b + 1) = c from h1, if_neg hc, hconv]
  rfl

/-- The three steps of `%#x`. -/
theorem converts_alternate : Converts fmt args [0x25, 0x23, 0x78]
    (fun ds v => ds = putAlternate v args.convBuf) := by
  intro n htop hat
  have h0 := hat 0 (by decide)
  have h1 := hat 1 (by decide)
  have h2 := hat 2 (by decide)
  rw [printfRun_add]
  generalize printfRun fmt args n = s at *
  obtain ⟨point, b, e, out⟩ := s
  dsimp only at htop h0 h1 h2 hat
  subst htop
  refine ⟨_, rfl, ?_⟩
  show printfStep fmt args (printfStep fmt args (printfStep fmt args ⟨.top, b, e, out⟩)) = _
  rw [printfStep_percent (show fmt b = 0x25 from h0),
    printfStep_hash (show fmt (b + 1) = 0x23 from h1)]
  unfold printfStep
  dsimp only
  rw [show fmt (b + 2) = 0x78 from h2, if_neg (by decide)]
  rfl

end Conversion

/--
**Numbers denote.** In every format, at every conversion, for every argument: `%x` and `%u`
put the numeral of the argument in base 16 and 10, `%d` its numeral with its sign, and `%#x`
eight digits that denote it. And `itoa`, in any radix it has digits for, leaves a string that
reads back as its argument, in the first 33 bytes.
-/
theorem numbers_denote :
    (∀ fmt args,
      Converts fmt args [0x25, 0x78] (fun ds v => Numeral 16 ds v.toNat) ∧
      Converts fmt args [0x25, 0x75] (fun ds v => Numeral 10 ds v.toNat) ∧
      Converts fmt args [0x25, 0x64] (fun ds v => SignedNumeral ds v.toInt) ∧
      Converts fmt args [0x25, 0x23, 0x78]
        (fun ds v => ds.length = 8 ∧ readNumeral 16 ds = some v.toNat)) ∧
    ∀ (value : Word) (radix : Radix), radix.val ≤ 36 →
      (∀ buf, ∃ ds, Holds (itoa value buf radix) ds ∧ readNumeral radix ds = some value.toNat) ∧
        ∀ i, Writes (fun buf => itoa value buf radix) i → i < 33 := by
  refine ⟨fun fmt args => ⟨?_, ?_, ?_, ?_⟩, fun value radix h36 => ⟨?_, ?_⟩⟩
  · refine converts_plain (by decide) (fun _ => rfl) ?_
    intro e
    show Numeral 16 (puts (itoa _ _ _)) _
    rw [puts_itoa (by decide)]
    exact numeral_numeralOf (by decide) (by decide) _
  · refine converts_plain (by decide) (fun _ => rfl) ?_
    intro e
    show Numeral 10 (puts (itoa _ _ _)) _
    rw [puts_itoa (by decide)]
    exact numeral_numeralOf (by decide) (by decide) _
  · exact converts_plain (by decide) (fun _ => rfl) fun e => putSigned_denotes _ _
  · intro n htop hat
    obtain ⟨ds, hds, hrun⟩ := converts_alternate n htop hat
    refine ⟨ds, ?_, hrun⟩
    rw [hds, putAlternate_eq]
    have hlen : (numeralOf 16 (args.words (printfRun fmt args n).esp).toNat).length ≤ 8 :=
      numeralOf_length_le (by decide) (by decide) (BitVec.isLt _)
    constructor
    · rw [List.length_append, List.length_replicate]
      omega
    · exact readNumeral_zeros (numeral_numeralOf (by decide) (by decide) _).value _
  · intro buf
    exact ⟨_, (itoa_apply h36 value buf).1, (numeral_numeralOf radix.2 h36 _).value⟩
  · intro i hw
    by_contra hi
    obtain ⟨m, hm⟩ := hw
    have hlen := numeralOf_length_word radix.2 value
    exact hm ((itoa_apply h36 value m).2 i (by omega))

/-- 255 and its conversion. -/
theorem numbers_denote_255 :
    ∃ ds, Numeral 16 ds 255 ∧
      (printfRun (cstr [0x25, 0x78]) ⟨fun _ => 255, fun _ => [], fun _ => 0⟩ 2).out = ds := by
  obtain ⟨ds, hds, hrun⟩ := (numbers_denote.1 (cstr [0x25, 0x78])
    ⟨fun _ => 255, fun _ => [], fun _ => 0⟩).1 0 rfl (fun j hj => by
      rw [show (printfRun _ _ 0).buf = 0 from rfl, Nat.zero_add]
      rfl)
  refine ⟨ds, hds, ?_⟩
  rw [show 2 = 0 + [(0x25 : Byte), 0x78].length from rfl, hrun]
  rfl

/-! ## The scan of the format -/

/-- A format that does not end inside a conversion: characters and conversions, `#` or not. -/
inductive Complete : List Byte → Prop where
  | nil : Complete []
  | char {c : Byte} {s : List Byte} : c ≠ 0x25 → Complete s → Complete (c :: s)
  | conversion {c : Byte} {s : List Byte} (n : Nat) : c ≠ 0x23 → Complete s →
      Complete (0x25 :: (List.replicate n 0x23 ++ c :: s))

/-- What comes behind the `#`s of a conversion: a specifier, or the end of the string. -/
theorem hashes_split (s : List Byte) :
    ∃ n, s = List.replicate n 0x23 ∨ ∃ c r, c ≠ 0x23 ∧ s = List.replicate n 0x23 ++ c :: r := by
  induction s with
  | nil => exact ⟨0, .inl rfl⟩
  | cons c s ih =>
      by_cases hc : c = 0x23
      · obtain ⟨n, h | ⟨d, r, hd, h⟩⟩ := ih
        · exact ⟨n + 1, .inl (by rw [h, hc]; rfl)⟩
        · exact ⟨n + 1, .inr ⟨d, r, hd, by rw [h, hc]; rfl⟩⟩
      · exact ⟨0, .inr ⟨c, s, hc, rfl⟩⟩

/-- A format that does is a complete one with an unfinished conversion behind it. -/
theorem complete_or_unfinished (s : List Byte) :
    Complete s ∨ ∃ p n, Complete p ∧ s = p ++ 0x25 :: List.replicate n 0x23 := by
  induction hlen : s.length using Nat.strong_induction_on generalizing s with
  | _ len ih =>
      rcases s with _ | ⟨c, s⟩
      · exact .inl .nil
      · by_cases hc : c = 0x25
        · subst hc
          obtain ⟨n, h | ⟨d, r, hd, h⟩⟩ := hashes_split s
          · exact .inr ⟨[], n, .nil, by rw [h]; rfl⟩
          · have hshort : r.length < len := by
              rw [← hlen, h]
              simp
              omega
            rw [h]
            rcases ih _ hshort r rfl with hr | ⟨p, m, hp, hr⟩
            · exact .inl (.conversion n hd hr)
            · refine .inr ⟨_, m, .conversion n hd hp, ?_⟩
              rw [hr]
              simp
        · have hlt : s.length < len := by rw [← hlen]; exact Nat.lt_succ_self _
          rcases ih s.length hlt s rfl with hs | ⟨p, m, hp, hs⟩
          · exact .inl (.char hc hs)
          · exact .inr ⟨c :: p, m, .char hc hp, by rw [hs]; rfl⟩

section Scanning

variable {fmt : Mem} {args : PrintfArgs}

/-- The scan went from `s` to `s'` and on its way looked at nothing from `stop` on. -/
inductive Scans (fmt : Mem) (args : PrintfArgs) (stop : Nat) : Scan → Scan → Prop where
  | refl (s : Scan) : Scans fmt args stop s s
  | step {s t : Scan} : s.buf < stop → Scans fmt args stop (printfStep fmt args s) t →
      Scans fmt args stop s t

theorem Scans.trans {stop : Nat} {s t u : Scan} (h : Scans fmt args stop s t)
    (h' : Scans fmt args stop t u) : Scans fmt args stop s u := by
  induction h with
  | refl => exact h'
  | step hs _ ih => exact .step hs (ih h')

theorem Scans.mono {stop stop' : Nat} (hle : stop ≤ stop') {s t : Scan}
    (h : Scans fmt args stop s t) : Scans fmt args stop' s t := by
  induction h with
  | refl s => exact .refl s
  | step hs _ ih => exact .step (Nat.lt_of_lt_of_le hs hle) ih

/-- A number of steps, all of them short of `stop`. -/
theorem Scans.iterate {stop : Nat} {s t : Scan} (h : Scans fmt args stop s t) :
    ∃ n, (printfStep fmt args)^[n] s = t ∧
      ∀ m, m < n → ((printfStep fmt args)^[m] s).buf < stop := by
  induction h with
  | refl s => exact ⟨0, rfl, fun m hm => absurd hm (Nat.not_lt_zero m)⟩
  | step hs _ ih =>
      obtain ⟨n, hn, hlt⟩ := ih
      refine ⟨n + 1, hn, ?_⟩
      intro m hm
      rcases m with _ | m
      · exact hs
      · exact hlt m (by omega)

theorem scans_hashes : ∀ (n : Nat) (alt : Bool) (b e : Nat) (out : List Byte),
    (∀ j, j < n → fmt (b + j) = 0x23) → ∃ alt',
      Scans fmt args (b + n) ⟨.conversion alt, b, e, out⟩ ⟨.conversion alt', b + n, e, out⟩ := by
  intro n
  induction n with
  | zero => intro alt b e out _; exact ⟨alt, .refl _⟩
  | succ n ih =>
      intro alt b e out h
      obtain ⟨alt', hrest⟩ := ih true (b + 1) e out fun j hj => by
        rw [Nat.add_right_comm]
        exact h (j + 1) (by omega)
      have hfirst : fmt b = 0x23 := h 0 (Nat.succ_pos n)
      refine ⟨alt', .step (by dsimp only; omega) ?_⟩
      rw [printfStep_hash hfirst, show b + (n + 1) = b + 1 + n by omega]
      exact hrest

/-- **A complete piece of a format** is scanned to its end, and no further. -/
theorem scans_complete {s : List Byte} (hs : Complete s) : ∀ (b e : Nat) (out : List Byte), 0 ∉ s →
    (∀ j, j < s.length → fmt (b + j) = s.getD j 0) → ∃ e' out',
      Scans fmt args (b + s.length) ⟨.top, b, e, out⟩ ⟨.top, b + s.length, e', out'⟩ := by
  induction hs with
  | nil => intro b e out _ _; exact ⟨e, out, .refl _⟩
  | @char c s hc _ ih =>
      intro b e out h0 hread
      have hfirst : fmt b = c := hread 0 (Nat.succ_pos _)
      have hne : c ≠ 0 := fun h => h0 (h ▸ List.mem_cons_self ..)
      obtain ⟨e', out', hrest⟩ := ih (b + 1) e (out ++ [c])
        (fun h => h0 (List.mem_cons_of_mem c h)) fun j hj => by
          rw [Nat.add_right_comm]
          exact hread (j + 1) (Nat.succ_lt_succ hj)
      have hstep : printfStep fmt args ⟨.top, b, e, out⟩ = ⟨.top, b + 1, e, out ++ [c]⟩ := by
        unfold printfStep
        dsimp only
        rw [hfirst, if_neg hne, if_neg hc]
      refine ⟨e', out', .step (by dsimp only; rw [List.length_cons]; omega) ?_⟩
      rw [hstep, List.length_cons, show b + (s.length + 1) = b + 1 + s.length by omega]
      exact hrest
  | @conversion c s n hc _ ih =>
      intro b e out h0 hread
      have hlen :
          (0x25 :: (List.replicate n (0x23 : Byte) ++ c :: s)).length = n + 2 + s.length := by
        simp
        omega
      rw [hlen] at hread ⊢
      have hpercent : fmt b = 0x25 := hread 0 (by omega)
      have hhash : ∀ j, j < n → fmt (b + 1 + j) = 0x23 := by
        intro j hj
        rw [Nat.add_assoc, Nat.add_comm 1, hread (j + 1) (by omega), List.getD_cons_succ,
          List.getD_append _ _ _ _ (by rw [List.length_replicate]; exact hj),
          List.getD_replicate _ hj]
      have hspec : ∀ j, fmt (b + 1 + n + j) = (c :: s).getD j 0 ∨ s.length < j := by
        intro j
        by_cases hj : j ≤ s.length
        · refine .inl ?_
          rw [show b + 1 + n + j = b + (n + j + 1) by omega, hread _ (by omega),
            List.getD_cons_succ,
            List.getD_append_right _ _ _ _ (by rw [List.length_replicate]; omega),
            List.length_replicate, Nat.add_sub_cancel_left]
        · exact .inr (by omega)
      have hc' : fmt (b + 1 + n) = c := (hspec 0).resolve_right (Nat.not_lt_zero _)
      -- the percent, its hashes, the specifier, then the rest of the format
      obtain ⟨alt, hhashes⟩ := @scans_hashes fmt args n false _ e out hhash
      obtain ⟨e1, out1, hstep⟩ := @printfStep_specifier fmt args _ alt e out
        (show fmt (b + 1 + n) ≠ 0x23 by rw [hc']; exact hc)
      obtain ⟨e', out', hrest⟩ := ih (b + 1 + n + 1) e1 out1
        (fun h => h0 (List.mem_cons_of_mem _ (List.mem_append_right _ (List.mem_cons_of_mem c h))))
        fun j hj => by
          rw [Nat.add_assoc (b + 1 + n), Nat.add_comm 1]
          exact (hspec (j + 1)).resolve_right (by omega)
      refine ⟨e', out', .step (by dsimp only; omega) ?_⟩
      rw [printfStep_percent hpercent]
      refine (hhashes.mono (by omega)).trans (.step (by dsimp only; omega) ?_)
      rw [hstep, show b + (n + 2 + s.length) = b + 1 + n + 1 + s.length by omega]
      exact hrest

end Scanning

/-- The call looks at index `i` of the format. -/
def LooksAt (fmt : Mem) (args : PrintfArgs) (i : Nat) : Prop :=
  ∃ n, (printfRun fmt args n).point ≠ .returned ∧ (printfRun fmt args n).buf = i

/-- What the scan is to do: look at nothing behind the terminator, and return its index. -/
def StopsAt (fmt : Mem) (args : PrintfArgs) (len : Nat) : Prop :=
  (∀ i, LooksAt fmt args i → i ≤ len) ∧
    ∃ n, (printfRun fmt args n).point = .returned ∧ (printfRun fmt args n).buf = len

/-- Once returned, always. -/
theorem printfRun_returned {fmt : Mem} {args : PrintfArgs} {n : Nat}
    (h : (printfRun fmt args n).point = .returned) (m : Nat) :
    printfRun fmt args (n + m) = printfRun fmt args n := by
  induction m with
  | zero => rfl
  | succ m ih =>
      rw [← Nat.add_assoc, printfRun_add, ih]
      show printfStep fmt args (printfRun fmt args n) = _
      unfold printfStep
      rw [h]

theorem reads_prefix {fmt : Mem} {s p r : List Byte} (hfmt : Holds fmt s) (hs : s = p ++ r)
    {j : Nat} (hj : j < p.length) : fmt (0 + j) = p.getD j 0 := by
  have hlen : p.length ≤ s.length := by
    rw [hs, List.length_append]
    omega
  rw [Nat.zero_add, hfmt j (by omega), hs]
  unfold cstr
  exact List.getD_append _ _ _ _ hj

/-- Over an unfinished conversion the scan comes to the byte behind the terminator. -/
theorem looksAt_behind {fmt : Mem} {s p : List Byte} {n : Nat} (hfmt : Holds fmt s) (h0 : 0 ∉ s)
    (hp : Complete p) (hs : s = p ++ 0x25 :: List.replicate n 0x23) (args : PrintfArgs) :
    LooksAt fmt args (s.length + 1) := by
  have hlen : s.length = p.length + 1 + n := by
    rw [hs]
    simp
    omega
  have hbehind : ∀ j, j ≤ n → fmt (p.length + j)
      = (0x25 :: List.replicate n (0x23 : Byte)).getD j 0 := by
    intro j hj
    rw [hfmt _ (by omega), hs]
    unfold cstr
    rw [List.getD_append_right _ _ _ _ (by omega), Nat.add_sub_cancel_left]
  have hpercent : fmt p.length = 0x25 := hbehind 0 (Nat.zero_le n)
  have hhash : ∀ j, j < n → fmt (p.length + 1 + j) = 0x23 := by
    intro j hj
    rw [Nat.add_assoc, Nat.add_comm 1, hbehind _ (by omega), List.getD_cons_succ,
      List.getD_replicate _ hj]
  have hnul : fmt (p.length + 1 + n) ≠ 0x23 := by
    rw [← hlen, hfmt _ (Nat.le_refl _), cstr_length]
    decide
  obtain ⟨e, out, hpre⟩ := @scans_complete fmt args _ hp 0 0 []
    (fun h => h0 (by rw [hs]; exact List.mem_append_left _ h))
    fun j hj => reads_prefix hfmt hs hj
  rw [Nat.zero_add] at hpre
  obtain ⟨alt, hhashes⟩ := @scans_hashes fmt args n false _ e out hhash
  -- the NUL is no specifier, and is stepped over like one
  obtain ⟨e', out', hstep⟩ := @printfStep_specifier fmt args _ alt e out hnul
  have hover : Scans fmt args (s.length + 1) .start ⟨.top, s.length + 1, e', out'⟩ := by
    refine (hpre.mono (by omega)).trans (.step (by dsimp only; omega) ?_)
    rw [printfStep_percent hpercent]
    refine (hhashes.mono (by omega)).trans (.step (by dsimp only; omega) ?_)
    rw [hstep, hlen]
    exact .refl _
  obtain ⟨m, hm, -⟩ := hover.iterate
  refine ⟨m, ?_, ?_⟩
  · unfold printfRun
    rw [hm]
    exact fun h => Point.noConfusion h
  · unfold printfRun
    rw [hm]

/-- A complete format is scanned up to its terminator. -/
theorem stopsAt_of_complete {fmt : Mem} {s : List Byte} (hfmt : Holds fmt s) (h0 : 0 ∉ s)
    (hs : Complete s) (args : PrintfArgs) : StopsAt fmt args s.length := by
  obtain ⟨e, out, hscan⟩ := @scans_complete fmt args _ hs 0 0 [] h0 fun j hj =>
    reads_prefix hfmt (List.append_nil s).symm hj
  rw [Nat.zero_add] at hscan
  obtain ⟨n, hn, hlt⟩ := hscan.iterate
  have hend : fmt s.length = 0 := (hfmt _ (Nat.le_refl _)).trans (cstr_length s)
  have hret : printfRun fmt args (n + 1) = ⟨.returned, s.length, e, out⟩ := by
    rw [printfRun_add]
    unfold printfRun
    show printfStep fmt args ((printfStep fmt args)^[n] ⟨.top, 0, 0, []⟩) = _
    rw [hn]
    unfold printfStep
    dsimp only
    rw [if_pos hend]
  have hpoint : (printfRun fmt args (n + 1)).point = .returned := by rw [hret]
  refine ⟨?_, n + 1, hpoint, by rw [hret]⟩
  intro i hi
  obtain ⟨m, hm, rfl⟩ := hi
  rcases Nat.lt_trichotomy m n with hbefore | rfl | hafter
  · exact Nat.le_of_lt (hlt m hbefore)
  · show ((printfStep fmt args)^[m] ⟨.top, 0, 0, []⟩).buf ≤ _
    rw [hn]
  · rw [show m = n + 1 + (m - (n + 1)) by omega, printfRun_returned hpoint] at hm
    exact absurd hpoint hm

/--
**Where the scan stops.** For every format string, whatever lies behind its terminator and
whatever the arguments: `printf` looks at nothing behind the terminator and returns the length
of the string exactly when the string does not end inside a conversion.
-/
theorem format_scan_iff {fmt : Mem} {s : List Byte} (hfmt : Holds fmt s) (h0 : 0 ∉ s)
    (args : PrintfArgs) : StopsAt fmt args s.length ↔ Complete s := by
  constructor
  · intro hstop
    rcases complete_or_unfinished s with hs | ⟨p, n, hp, hs⟩
    · exact hs
    · have hle := hstop.1 _ (looksAt_behind hfmt h0 hp hs args)
      omega
  · exact fun hs => stopsAt_of_complete hfmt h0 hs args

/-- "%#x" and a character. -/
theorem format_scan_hex :
    StopsAt (cstr [0x25, 0x23, 0x78, 0x61]) ⟨fun _ => 0, fun _ => [], fun _ => 0⟩ 4 :=
  (format_scan_iff (s := [0x25, 0x23, 0x78, 0x61]) (fun _ _ => rfl) (by decide) _).mpr
    (.conversion 1 (by decide) (.char (by decide) .nil))

/-- A lone "%": the byte behind the terminator is looked at. -/
theorem format_scan_percent :
    LooksAt (cstr [0x25]) ⟨fun _ => 0, fun _ => [], fun _ => 0⟩ 2 ∧
      ¬ StopsAt (cstr [0x25]) ⟨fun _ => 0, fun _ => [], fun _ => 0⟩ 1 := by
  have hlook : LooksAt (cstr [0x25]) ⟨fun _ => 0, fun _ => [], fun _ => 0⟩ 2 :=
    ⟨2, fun h => Point.noConfusion h, rfl⟩
  exact ⟨hlook, fun h => absurd (h.1 2 hlook) (by decide)⟩

end Zbiggie.Proof
