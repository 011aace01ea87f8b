import Zbiggie.Kernel.Blocks

/-!
# Block operations, byte by byte

`memset` and `memcpy` have one shape: single bytes until `%edi` is aligned, words, and the
bytes that are left. What they have done so far is a progress `P k`, "the first `k` bytes are
there", and the counts of the three loops add up to `n` whatever the alignment. The shape is
gone through once, for any `P` that a byte and a word carry on.

`memmove` goes from the end that is safe, and then a byte at a time is enough.
-/

namespace Zbiggie.Proof

open Zbiggie Machine

/-! ## The shape of the loops -/

section Shape

variable {P : Nat → Cpu → Prop} {byte op aligned bottom top : Cpu → Cpu} {n : Nat}

theorem ofNat_succ_ne {r : Nat} (hr : r + 1 < 0x100000000) : BitVec.ofNat 32 (r + 1) ≠ 0 := by
  intro h
  have hnat := congrArg BitVec.toNat h
  rw [BitVec.toNat_ofNat, Nat.mod_eq_of_lt hr] at hnat
  exact Nat.succ_ne_zero r hnat

theorem ofNat_succ_sub (r : Nat) : BitVec.ofNat 32 (r + 1) - 1 = BitVec.ofNat 32 r := by
  rw [BitVec.ofNat_add]
  exact BitVec.add_sub_cancel _ _

theorem word_eq_ofNat (x : Word) : x = BitVec.ofNat 32 x.toNat := by
  rw [BitVec.ofNat_toNat, BitVec.setWidth_eq]

/-- **The loop at the bottom**, with `r` bytes to go. -/
theorem bottom_fills (byte : Cpu → Cpu) (hn : n < 0x100000000)
    (hunfold : ∀ c, bottom c = if c.edx = 0 then c else bottom { byte c with edx := c.edx - 1 })
    (hbyte : ∀ k c e, k < n → P k c → P (k + 1) { byte c with edx := e }) :
    ∀ (r k : Nat) (c : Cpu), c.edx = BitVec.ofNat 32 r → k + r = n → P k c → P n (bottom c) := by
  intro r
  induction r with
  | zero =>
      intro k c hedx hk hP
      rw [hunfold, if_pos (show c.edx = 0 from hedx)]
      rwa [show n = k by omega]
  | succ r ih =>
      intro k c hedx hk hP
      rw [hunfold, if_neg (by rw [hedx]; exact ofNat_succ_ne (by omega))]
      refine ih (k + 1) _ ?_ (by omega) (hbyte k c _ (by omega) hP)
      dsimp only
      rw [hedx, ofNat_succ_sub]

/-- **The words**, and the bytes behind them. -/
theorem aligned_fills (op : Cpu → Cpu) (hn : n < 0x100000000)
    (hregs : ∀ k c x y, P k c → P k { c with ecx := x, edx := y, df := false })
    (hop : ∀ k c, k + 4 ≤ n → c.df = false → P k c →
      P (k + 4) (op c) ∧ (op c).df = false ∧ (op c).edx = c.edx)
    (hbottom : ∀ (r k : Nat) (c : Cpu), c.edx = BitVec.ofNat 32 r → k + r = n → P k c →
      P n (bottom c))
    {r k : Nat} {c : Cpu} (hecx : c.ecx = BitVec.ofNat 32 r) (hk : k + r = n) (hP : P k c) :
    P n (bottom (.rep op { c with ecx := c.ecx >>> 2, edx := c.ecx &&& 3, df := false })) := by
  have hr : c.ecx.toNat = r := by
    rw [hecx, BitVec.toNat_ofNat]
    omega
  have hwords : (c.ecx >>> 2).toNat = r / 4 := by
    rw [BitVec.toNat_ushiftRight, hr, Nat.shiftRight_eq_div_pow]
  have hleft : c.ecx &&& 3 = BitVec.ofNat 32 (r % 4) := by
    refine BitVec.eq_of_toNat_eq ?_
    rw [BitVec.toNat_and, hr, BitVec.toNat_ofNat]
    show r &&& (2 ^ 2 - 1) = _
    rw [Nat.and_two_pow_sub_one_eq_mod]
    omega
  have hloop : P (k + 4 * (r / 4)) (forLoop (r / 4) (fun _ c => op c)
        { c with ecx := c.ecx >>> 2, edx := c.ecx &&& 3, df := false }) ∧
      (forLoop (r / 4) (fun _ c => op c)
        { c with ecx := c.ecx >>> 2, edx := c.ecx &&& 3, df := false }).df = false ∧
      (forLoop (r / 4) (fun _ c => op c)
        { c with ecx := c.ecx >>> 2, edx := c.ecx &&& 3, df := false }).edx = c.ecx &&& 3 := by
    refine forLoop_inv (P := fun j (c' : Cpu) =>
      P (k + 4 * j) c' ∧ c'.df = false ∧ c'.edx = c.ecx &&& 3) ⟨hregs _ _ _ _ hP, rfl, rfl⟩ _ ?_
    intro j c' hj hc'
    obtain ⟨hP', hdf, hedx⟩ := hc'
    obtain ⟨h1, h2, h3⟩ := hop _ _ (by omega) hdf hP'
    exact ⟨h1, h2, h3.trans hedx⟩
  unfold Cpu.rep
  dsimp only
  rw [hwords]
  obtain ⟨hP', hdf, hedx⟩ := hloop
  generalize forLoop (r / 4) (fun _ c => op c) _ = c' at hP' hdf hedx ⊢
  refine hbottom (r % 4) (k + 4 * (r / 4)) _ (hedx.trans hleft) (by omega) ?_
  have hsame := hregs _ _ 0 c'.edx hP'
  rw [← hdf] at hsame
  exact hsame

/-- **The loop at the top**, with `r` bytes to go. -/
theorem top_fills (byte : Cpu → Cpu) (hn : n < 0x100000000)
    (hunfold : ∀ c, top c = if c.ecx = 0 then c else if c.edi &&& 3 = 0 then aligned c
      else top { byte c with ecx := c.ecx - 1 })
    (hbyte : ∀ k c x, k < n → P k c → P (k + 1) { byte c with ecx := x })
    (haligned : ∀ (r k : Nat) (c : Cpu), c.ecx = BitVec.ofNat 32 r → k + r = n → P k c →
      P n (aligned c)) :
    ∀ (r k : Nat) (c : Cpu), c.ecx = BitVec.ofNat 32 r → k + r = n → P k c → P n (top c) := by
  intro r
  induction r with
  | zero =>
      intro k c hecx hk hP
      rw [hunfold, if_pos (show c.ecx = 0 from hecx)]
      rwa [show n = k by omega]
  | succ r ih =>
      intro k c hecx hk hP
      rw [hunfold, if_neg (by rw [hecx]; exact ofNat_succ_ne (by omega))]
      split
      · exact haligned (r + 1) k c hecx hk hP
      · refine ih (k + 1) _ ?_ (by omega) (hbyte k c _ (by omega) hP)
        dsimp only
        rw [hecx, ofNat_succ_sub]

end Shape

/-! ## memset -/

section Memset

variable {m : Mem} {s : Word} {b : Byte} {n : Nat}

/-- `k` bytes are set, and `%eax` is the byte four times. -/
structure Setting (m : Mem) (s : Word) (b : Byte) (k : Nat) (c : Cpu) : Prop extends
    Filled m s (fun _ => b) k c where
  eax : c.eax = b ++ b ++ b ++ b

theorem Setting.al {k : Nat} {c : Cpu} (h : Setting m s b k c) : c.al = b := by
  unfold Cpu.al
  rw [h.eax]
  exact BitVec.setWidth_append_eq_right

theorem Setting.byte {k : Nat} {c : Cpu} (h : Setting m s b k c)
    (hk : s.toNat + k < 0x100000000) (x y : Word) :
    Setting m s b (k + 1) { c.put c.edi c.al with edi := c.edi + 1, ecx := x, edx := y } := by
  refine ⟨⟨?_, ?_⟩, h.eax⟩
  · rw [h.al]
    exact h.toFilled.put hk
  · show c.edi + 1 = _
    rw [h.edi]
    exact offset_add s k 1

theorem Setting.stosl {k : Nat} {c : Cpu} (h : Setting m s b k c)
    (hk : s.toNat + k + 4 ≤ 0x100000000) (hdf : c.df = false) :
    Setting m s b (k + 4) c.stosl := by
  refine ⟨⟨?_, ?_⟩, c.stosl_kept.1.trans h.eax⟩
  · rw [Cpu.stosl_mem]
    refine h.toFilled.put4 hk ?_ ?_ ?_ ?_ <;> rw [h.eax]
    · exact append_low _ _
    · rw [append_high _ _ 0, append_low]
    · rw [append_high _ _ 8, append_high _ _ 0, append_low]
    · rw [append_high _ _ 16, append_high _ _ 8, append_high _ _ 0, extract_byte]
  · show c.edi + c.stride 4 = _
    unfold Cpu.stride
    rw [hdf, h.edi]
    exact offset_add s k 4

theorem four_bytes (ch : Word) : (ch &&& 0xFF) <<< 24 ||| (ch &&& 0xFF) <<< 16 |||
    (ch &&& 0xFF) <<< 8 ||| (ch &&& 0xFF)
      = ch.setWidth 8 ++ ch.setWidth 8 ++ ch.setWidth 8 ++ ch.setWidth 8 := by
  have hlow : ch &&& 0xFF = (ch.setWidth 8).setWidth 32 := by
    refine BitVec.eq_of_toNat_eq ?_
    rw [BitVec.toNat_and, BitVec.toNat_setWidth, BitVec.toNat_setWidth]
    show ch.toNat &&& (2 ^ 8 - 1) = _
    rw [Nat.and_two_pow_sub_one_eq_mod]
    omega
  have hbytes : ∀ b : Byte,
      b.setWidth 32 <<< 24 ||| b.setWidth 32 <<< 16 ||| b.setWidth 32 <<< 8 ||| b.setWidth 32
        = b ++ b ++ b ++ b := by decide
  rw [hlow]
  exact hbytes (ch.setWidth 8)

/-- **`memset`** is a byte at a time. -/
theorem memset_eq (s ch n : Word) (c : Cpu) (hs : s.toNat + n.toNat ≤ 0x100000000) :
    Lib.memset s ch n c = memcpy c.mem s.toNat (fun _ => ch.setWidth 8) n.toNat := by
  obtain ⟨b, hb⟩ : ∃ b : Byte, b = ch.setWidth 8 := ⟨_, rfl⟩
  have hbottom : ∀ (r k : Nat) (c' : Cpu), c'.edx = BitVec.ofNat 32 r → k + r = n.toNat →
      Setting c.mem s b k c' → Setting c.mem s b n.toNat (Lib.memsetBottom c') :=
    bottom_fills (fun c => { c.put c.edi c.al with edi := c.edi + 1 }) n.isLt
      (fun c => by rw [Lib.memsetBottom]) (fun k c e hk h => h.byte (by omega) _ _)
  have haligned : ∀ (r k : Nat) (c' : Cpu), c'.ecx = BitVec.ofNat 32 r → k + r = n.toNat →
      Setting c.mem s b k c' → Setting c.mem s b n.toNat (Lib.memsetAligned c') :=
    fun r k c' => aligned_fills .stosl n.isLt (fun k c x y h => ⟨⟨h.mem, h.edi⟩, h.eax⟩)
      (fun k c hk hdf h =>
        ⟨h.stosl (by omega) hdf, c.stosl_kept.2.1.trans hdf, c.stosl_kept.2.2⟩) hbottom
  have htop : ∀ (r k : Nat) (c' : Cpu), c'.ecx = BitVec.ofNat 32 r → k + r = n.toNat →
      Setting c.mem s b k c' → Setting c.mem s b n.toNat (Lib.memsetTop c') :=
    top_fills (fun c => { c.put c.edi c.al with edi := c.edi + 1 }) n.isLt
      (fun c => by rw [Lib.memsetTop]) (fun k c e hk h => h.byte (by omega) _ _) haligned
  have hstart : Setting c.mem s b 0 { c with
      eax := (ch &&& 0xFF) <<< 24 ||| (ch &&& 0xFF) <<< 16 ||| (ch &&& 0xFF) <<< 8 ||| (ch &&& 0xFF)
      edi := s
      ecx := n } := by
    refine ⟨⟨rfl, (offset_zero s).symm⟩, ?_⟩
    rw [hb]
    exact four_bytes ch
  rw [← hb]
  exact (htop n.toNat 0 _ (word_eq_ofNat n) (Nat.zero_add _) hstart).mem

end Memset

/-! ## memcpy -/

section Memcpy

variable {m : Mem} {d s : Word} {n : Nat}

/-- A block that can be copied upwards. -/
def Upwards (d s n : Nat) : Prop := d ≤ s ∨ s + n ≤ d

/-- What is still to be read has not been written. -/
theorem read_ahead {d s k j : Nat} (hup : Upwards d s n) (hk : k ≤ j) (hj : j < n) :
    memcpy m d (fun i => m (s + i)) k (s + j) = m (s + j) := by
  rw [memcpy_apply, if_neg]
  rcases hup with h | h <;> omega

/-- `k` bytes are copied, and both registers stand behind them. -/
structure Copying (m : Mem) (d s : Word) (k : Nat) (c : Cpu) : Prop extends
    Filled m d (fun i => m (s.toNat + i)) k c where
  esi : c.esi = offset s k

theorem Copying.load {k j : Nat} {c : Cpu} (h : Copying m d s k c)
    (hup : Upwards d.toNat s.toNat n) (hs : s.toNat + n ≤ 0x100000000) (hj : k + j < n) :
    c.load (c.esi + BitVec.ofNat 32 j) = m (s.toNat + (k + j)) := by
  unfold Cpu.load
  rw [h.esi, offset_add, toNat_offset (by omega), h.mem]
  exact read_ahead hup (by omega) hj

theorem Copying.load_next {k : Nat} {c : Cpu} (h : Copying m d s k c)
    (hup : Upwards d.toNat s.toNat n) (hs : s.toNat + n ≤ 0x100000000) (hk : k < n) :
    c.load c.esi = m (s.toNat + k) := by
  have hat := h.load (j := 0) hup hs hk
  rwa [BitVec.add_zero] at hat

theorem Copying.moveByte {k : Nat} {c : Cpu} (h : Copying m d s k c)
    (hup : Upwards d.toNat s.toNat n) (hd : d.toNat + n ≤ 0x100000000)
    (hs : s.toNat + n ≤ 0x100000000) (hk : k < n) (x y : Word) :
    Copying m d s (k + 1) { Lib.moveByte c with ecx := x, edx := y } := by
  refine ⟨⟨?_, ?_⟩, ?_⟩
  · show ((c.setAl (c.load c.esi)).put c.edi (c.setAl (c.load c.esi)).al).mem = _
    rw [al_setAl, h.load_next hup hs hk]
    exact h.toFilled.put (by omega)
  · show c.edi + 1 = _
    rw [h.edi]
    exact offset_add d k 1
  · show c.esi + 1 = _
    rw [h.esi]
    exact offset_add s k 1

theorem Copying.movsl {k : Nat} {c : Cpu} (h : Copying m d s k c)
    (hup : Upwards d.toNat s.toNat n) (hd : d.toNat + n ≤ 0x100000000)
    (hs : s.toNat + n ≤ 0x100000000) (hk : k + 4 ≤ n) (hdf : c.df = false) :
    Copying m d s (k + 4) c.movsl := by
  obtain ⟨h0, h1, h2, h3⟩ := load4_byte c c.esi
  have hload : ∀ j, j < 4 → c.load (c.esi + BitVec.ofNat 32 j) = m (s.toNat + (k + j)) :=
    fun j hj => h.load hup hs (by omega)
  have hload0 := h.load_next hup hs (by omega)
  refine ⟨⟨?_, ?_⟩, ?_⟩
  · rw [Cpu.movsl_mem]
    exact h.toFilled.put4 (by omega) (h0.trans hload0) (h1.trans (hload 1 (by omega)))
      (h2.trans (hload 2 (by omega))) (h3.trans (hload 3 (by omega)))
  · show c.edi + c.stride 4 = _
    unfold Cpu.stride
    rw [hdf, h.edi]
    exact offset_add d k 4
  · show c.esi + c.stride 4 = _
    unfold Cpu.stride
    rw [hdf, h.esi]
    exact offset_add s k 4

/-- **`memcpy`** is a byte at a time. -/
theorem memcpy_eq (d s n : Word) (c : Cpu) (hup : Upwards d.toNat s.toNat n.toNat)
    (hd : d.toNat + n.toNat ≤ 0x100000000) (hs : s.toNat + n.toNat ≤ 0x100000000) :
    Lib.memcpy d s n c = memcpy c.mem d.toNat (fun i => c.mem (s.toNat + i)) n.toNat := by
  have hbottom : ∀ (r k : Nat) (c' : Cpu), c'.edx = BitVec.ofNat 32 r → k + r = n.toNat →
      Copying c.mem d s k c' → Copying c.mem d s n.toNat (Lib.memcpyBottom c') :=
    bottom_fills Lib.moveByte n.isLt (fun c => by rw [Lib.memcpyBottom])
      (fun k c e hk h => h.moveByte hup hd hs hk _ _)
  have haligned : ∀ (r k : Nat) (c' : Cpu), c'.ecx = BitVec.ofNat 32 r → k + r = n.toNat →
      Copying c.mem d s k c' → Copying c.mem d s n.toNat (Lib.memcpyAligned c') :=
    fun r k c' => aligned_fills .movsl n.isLt (fun k c x y h => ⟨⟨h.mem, h.edi⟩, h.esi⟩)
      (fun k c hk hdf h =>
        ⟨h.movsl hup hd hs hk hdf, c.movsl_kept.1.trans hdf, c.movsl_kept.2⟩) hbottom
  have htop : ∀ (r k : Nat) (c' : Cpu), c'.ecx = BitVec.ofNat 32 r → k + r = n.toNat →
      Copying c.mem d s k c' → Copying c.mem d s n.toNat (Lib.memcpyTop c') :=
    top_fills Lib.moveByte n.isLt (fun c => by rw [Lib.memcpyTop])
      (fun k c e hk h => h.moveByte hup hd hs hk _ _) haligned
  have hstart : Copying c.mem d s 0 { c with esi := s, edi := d, ecx := n } :=
    ⟨⟨rfl, (offset_zero d).symm⟩, (offset_zero s).symm⟩
  exact (htop n.toNat 0 _ (word_eq_ofNat n) (Nat.zero_add _) hstart).mem

end Memcpy

/-! ## memmove -/

section Memmove

variable {m : Mem} {d s : Word} {n : Nat}

theorem Copying.movsb {k : Nat} {c : Cpu} (h : Copying m d s k c)
    (hup : Upwards d.toNat s.toNat n) (hd : d.toNat + n ≤ 0x100000000)
    (hs : s.toNat + n ≤ 0x100000000) (hk : k < n) (hdf : c.df = false) :
    Copying m d s (k + 1) c.movsb := by
  refine ⟨⟨?_, ?_⟩, ?_⟩
  · show (c.put c.edi (c.load c.esi)).mem = _
    rw [h.load_next hup hs hk]
    exact h.toFilled.put (by omega)
  · show c.edi + c.stride 1 = _
    unfold Cpu.stride
    rw [hdf, h.edi]
    exact offset_add d k 1
  · show c.esi + c.stride 1 = _
    unfold Cpu.stride
    rw [hdf, h.esi]
    exact offset_add s k 1

theorem offset_succ_sub (a : Word) (k : Nat) : offset a (k + 1) - 1 = offset a k := by
  rw [← offset_add]
  exact BitVec.add_sub_cancel _ _

/-- `k` bytes are copied from the end, and both registers stand before them. -/
structure Backing (m : Mem) (d s : Word) (n k : Nat) (c : Cpu) : Prop where
  df : c.df = true
  edi : c.edi = offset d (n - k) - 1
  esi : c.esi = offset s (n - k) - 1
  mem : ∀ a, c.mem a = if d.toNat + (n - k) ≤ a ∧ a < d.toNat + n then m (s.toNat + (a - d.toNat))
    else m a

theorem Backing.movsb {k : Nat} {c : Cpu} (h : Backing m d s n k c) (hlt : s.toNat < d.toNat)
    (hd : d.toNat + n ≤ 0x100000000) (hk : k < n) : Backing m d s n (k + 1) c.movsb := by
  obtain ⟨j, hj⟩ : ∃ j, n - k = j + 1 := ⟨n - k - 1, by omega⟩
  have hj' : n - (k + 1) = j := by omega
  have hback : ∀ a : Word, a + c.stride 1 = a - 1 := by
    intro a
    unfold Cpu.stride
    rw [h.df, if_pos rfl]
    exact (BitVec.sub_eq_add_neg a 1).symm
  have hedi : c.edi = offset d j := by rw [h.edi, hj, offset_succ_sub]
  have hesi : c.esi = offset s j := by rw [h.esi, hj, offset_succ_sub]
  refine ⟨h.df, ?_, ?_, ?_⟩
  · show c.edi + c.stride 1 = _
    rw [hback, hedi, hj']
  · show c.esi + c.stride 1 = _
    rw [hback, hesi, hj']
  · intro a
    show store c.mem c.edi.toNat (c.load c.esi) a = _
    unfold Cpu.load
    rw [hedi, hesi, toNat_offset (by omega), toNat_offset (by omega), hj']
    by_cases ha : a = d.toNat + j
    · -- the source lies below everything written
      subst ha
      rw [store_self, h.mem, if_neg (by omega), if_pos (by omega), Nat.add_sub_cancel_left]
    · rw [store_of_ne ha, h.mem, hj]
      by_cases hin : d.toNat + (j + 1) ≤ a ∧ a < d.toNat + n
      · rw [if_pos hin, if_pos (by omega)]
      · rw [if_neg hin, if_neg (by omega)]

/-- **`memmove`**, whichever way the ranges overlap, leaves what was there before. -/
theorem memmove_eq (d s n : Word) (c : Cpu) (hd : d.toNat + n.toNat ≤ 0x100000000)
    (hs : s.toNat + n.toNat ≤ 0x100000000) :
    Lib.memmove d s n c = memcpy c.mem d.toNat (fun i => c.mem (s.toNat + i)) n.toNat := by
  unfold Lib.memmove Cpu.rep
  dsimp only
  split
  · rename_i hle
    have hup : Upwards d.toNat s.toNat n.toNat := .inl hle
    have hloop := @forLoop_inv _ (fun _ c => Cpu.movsb c)
      (fun k (c' : Cpu) => Copying c.mem d s k c' ∧ c'.df = false)
      { c with edi := d, esi := s, ecx := n, df := false }
      ⟨⟨⟨rfl, (offset_zero d).symm⟩, (offset_zero s).symm⟩, rfl⟩ n.toNat
      (fun k c' hk h => ⟨h.1.movsb hup hd hs hk h.2, h.2⟩)
    exact hloop.1.mem
  · rename_i hlt
    have hlt' : s.toNat < d.toNat := Nat.lt_of_not_le hlt
    have hend : ∀ a : Word, a + n = offset a n.toNat := by
      intro a
      unfold offset
      rw [← word_eq_ofNat]
    have hloop := @forLoop_inv _ (fun _ c => Cpu.movsb c)
      (fun k (c' : Cpu) => Backing c.mem d s n.toNat k c')
      { c with edi := d + n - 1, esi := s + n - 1, ecx := n, df := true }
      ⟨rfl, by rw [Nat.sub_zero, ← hend], by rw [Nat.sub_zero, ← hend],
        fun a => by rw [if_neg (by omega)]⟩ n.toNat
      (fun k c' hk h => h.movsb hlt' hd hk)
    funext a
    refine (hloop.mem a).trans ?_
    rw [Nat.sub_self, Nat.add_zero, memcpy_apply]

end Memmove

/-! ## All three -/

/-- The `n` bytes at `dest` come from `f`, and no other byte changed. -/
def FilledFrom (f : Nat → Byte) (dest n : Word) (m m' : Mem) : Prop :=
  (∀ i, i < n.toNat → m' (dest.toNat + i) = f i) ∧
    ∀ a, a < dest.toNat ∨ dest.toNat + n.toNat ≤ a → m' a = m a

theorem filledFrom_memcpy (f : Nat → Byte) (dest n : Word) (m : Mem) :
    FilledFrom f dest n m (memcpy m dest.toNat f n.toNat) := by
  refine ⟨?_, ?_⟩
  · intro i hi
    rw [memcpy_apply, if_pos (by omega), Nat.add_sub_cancel_left]
  · intro a ha
    rw [memcpy_apply, if_neg (by omega)]

/--
**The block operations are the bytewise ones.** For all addresses and counts whose ranges do
not wrap, whatever is in the registers: `memset` sets its bytes, `memcpy` copies ranges that
do not overlap, and `memmove` copies ranges that may. None changes another byte.
-/
theorem block_operations_bytewise (dest src n ch : Word) (c : Cpu)
    (hd : dest.toNat + n.toNat ≤ 0x100000000) :
    FilledFrom (fun _ => ch.setWidth 8) dest n c.mem (Lib.memset dest ch n c) ∧
      (src.toNat + n.toNat ≤ 0x100000000 →
        (src.toNat + n.toNat ≤ dest.toNat ∨ dest.toNat + n.toNat ≤ src.toNat →
          FilledFrom (fun i => c.mem (src.toNat + i)) dest n c.mem (Lib.memcpy dest src n c)) ∧
        FilledFrom (fun i => c.mem (src.toNat + i)) dest n c.mem (Lib.memmove dest src n c)) := by
  refine ⟨?_, fun hs => ⟨?_, ?_⟩⟩
  · rw [memset_eq dest ch n c hd]
    exact filledFrom_memcpy _ _ _ _
  · intro hapart
    have hup : Upwards dest.toNat src.toNat n.toNat := by
      rcases hapart with h | h
      · exact .inr h
      · exact .inl (by omega)
    rw [memcpy_eq dest src n c hup hd hs]
    exact filledFrom_memcpy _ _ _ _
  · rw [memmove_eq dest src n c hd hs]
    exact filledFrom_memcpy _ _ _ _

/-- Seven bytes between unaligned addresses, and within reach of each other. -/
theorem block_operations_seven :
    FilledFrom (fun i => BitVec.ofNat 8 (0x1003 + i)) 0x2001 7 (fun a => BitVec.ofNat 8 a)
        (Lib.memcpy 0x2001 0x1003 7 ⟨0, 0, 0, 0, 0, true, fun a => BitVec.ofNat 8 a⟩) ∧
      FilledFrom (fun i => BitVec.ofNat 8 (0x1003 + i)) 0x1005 7 (fun a => BitVec.ofNat 8 a)
        (Lib.memmove 0x1005 0x1003 7 ⟨0, 0, 0, 0, 0, true, fun a => BitVec.ofNat 8 a⟩) := by
  have hcpy := (block_operations_bytewise 0x2001 0x1003 7 0
    ⟨0, 0, 0, 0, 0, true, fun a => BitVec.ofNat 8 a⟩ (by decide)).2 (by decide)
  have hmove := (block_operations_bytewise 0x1005 0x1003 7 0
    ⟨0, 0, 0, 0, 0, true, fun a => BitVec.ofNat 8 a⟩ (by decide)).2 (by decide)
  exact ⟨hcpy.1 (by decide), hmove.2⟩

end Zbiggie.Proof
