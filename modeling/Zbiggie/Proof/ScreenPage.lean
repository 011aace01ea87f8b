import Zbiggie.Proof.PageTables

/-!
# Output, as a change of one page

The output routines store through virtual addresses. Once it is known which
physical page `P` a base address maps to, each of them is a function of that page:
a cell is two bytes, `scroll` moves every row up and blanks the last one. Here each
routine is computed as one update of memory, loops included, for any base and any
page it maps to.
-/

namespace Zbiggie.Proof

open Zbiggie Machine

/-- A machine with other memory. -/
def withRam (k : Kernel) (m : Mem) : Kernel := { k with ram := m }

@[simp] theorem withRam_ram (k : Kernel) (m : Mem) : (withRam k m).ram = m := rfl
@[simp] theorem withRam_page (k : Kernel) (m : Mem) : (withRam k m).page = k.page := rfl
@[simp] theorem withRam_withRam (k : Kernel) (m m' : Mem) :
    withRam (withRam k m) m' = withRam k m' := rfl
@[simp] theorem withRam_self (k : Kernel) : withRam k k.ram = k := rfl

/-- The kernel reaches the physical page `P` at the virtual addresses from `base` on. -/
structure Mapped (L : Layout) (k : Kernel) (base P : Nat) : Prop where
  tables : Tables k
  selected : Selected L k
  window :
    (base = mapVideoMem ∧ P = lowFrame k) ∨ ∃ i, i < 4 ∧ base = bufferPage i ∧ P = videoFrame i

namespace Mapped

variable {L : Layout} {k k' : Kernel} {base P : Nat}

theorem of_page (h : Mapped L k base P) (he : k'.page = k.page) : Mapped L k' base P where
  tables := h.tables.of_page he
  selected := by unfold Selected; rw [he]; exact h.selected
  window := by unfold lowFrame; rw [he]; exact h.window

theorem translate (h : Mapped L k base P) {o : Nat} (ho : o < offset4K) :
    translate L k k.page.cr3 false (BitVec.ofNat 32 (base + o)) = some (P + o) := by
  rcases h.window with ⟨rfl, rfl⟩ | ⟨i, hi, rfl, rfl⟩
  · exact translate_mapVideoMem h.tables h.selected ho
  · exact translate_bufferPage h.tables h.selected hi ho

theorem kstore (h : Mapped L k base P) {o : Nat} (ho : o < offset4K) (b : Byte) :
    kstore L k (BitVec.ofNat 32 (base + o)) b = withRam k (store k.ram (P + o) b) := by
  unfold Zbiggie.kstore
  rw [h.translate ho]
  rfl

theorem kload (h : Mapped L k base P) {o : Nat} (ho : o < offset4K) :
    kload L k (BitVec.ofNat 32 (base + o)) = k.ram (P + o) := by
  unfold Zbiggie.kload
  rw [h.translate ho]

theorem withRam (h : Mapped L k base P) (m : Mem) : Mapped L (withRam k m) base P := h.of_page rfl

/-- A character and its attribute. -/
theorem kstore_pair (h : Mapped L k base P) {o : Nat} (ho : o + 1 < offset4K) (b b' : Byte) :
    Zbiggie.kstore L (Zbiggie.kstore L k (BitVec.ofNat 32 (base + o)) b)
        (BitVec.ofNat 32 (base + (o + 1))) b'
      = Proof.withRam k (store (store k.ram (P + o) b) (P + (o + 1)) b') := by
  rw [h.kstore (by omega), (h.withRam _).kstore ho]
  rfl

/-- The windows all lie low in the address space. -/
theorem base_lt (h : Mapped L k base P) : 0 < base ∧ base ≤ bufferPage 3 := by
  rcases h.window with ⟨rfl, _⟩ | ⟨i, hi, rfl, _⟩
  · exact ⟨by decide, by decide⟩
  · simp only [bufferPage, numPds, maxPid, offset4M, offset4K]
    omega

end Mapped

/-! ## Copying a page -/

/-- Memory after the first `n` bytes of page `Q` have been copied to page `P`. -/
def copied (P Q n : Nat) (m : Mem) : Mem := fun a =>
  if P ≤ a ∧ a < P + n then m (Q + (a - P)) else m a

/-- **`memcpy` between two windows** whose pages do not overlap. -/
theorem kmemcpy_mapped {L : Layout} {k : Kernel} {dest src P Q : Nat} (hd : Mapped L k dest P)
    (hs : Mapped L k src Q) (hPQ : P + offset4K ≤ Q ∨ Q + offset4K ≤ P) :
    kmemcpy L (BitVec.ofNat 32 dest) (BitVec.ofNat 32 src) offset4K k
      = withRam k (copied P Q offset4K k.ram) := by
  unfold kmemcpy
  refine forLoop_inv (P := fun n (k' : Kernel) => k' = withRam k (copied P Q n k.ram)) ?_
    offset4K ?_
  · have h0 : copied P Q 0 k.ram = k.ram := by
      funext a
      unfold copied
      rw [if_neg (by omega)]
    rw [h0, withRam_self]
  · rintro i k' hi rfl
    have hd' : Mapped L (withRam k (copied P Q i k.ram)) dest P := hd.of_page rfl
    have hs' : Mapped L (withRam k (copied P Q i k.ram)) src Q := hs.of_page rfl
    rw [← BitVec.ofNat_add, ← BitVec.ofNat_add, hs'.kload hi, hd'.kstore hi, withRam_ram,
      withRam_withRam]
    congr 1
    funext a
    unfold copied
    -- the byte just copied, read from a page the copy does not write
    by_cases ha : a = P + i
    · subst ha
      rw [store_self, if_neg (by omega), if_pos (by omega)]
      congr 1; omega
    · rw [store_of_ne ha]
      by_cases hin : P ≤ a ∧ a < P + i
      · rw [if_pos hin, if_pos (by omega)]
      · rw [if_neg hin, if_neg (by omega)]

/-! ## A cell -/

/-- The offset of cell `(x, y)` in its page. -/
def cellOff (x y : Int) : Int := 2 * (numCols * y + x)

/-- Memory with a character and its attribute at offset `o` of page `P`, if there is room. -/
def cellPut (P : Nat) (attr : Byte) (o : Int) (c : Byte) (m : Mem) : Mem :=
  if o < offset4K - 1 then store (store m (P + o.toNat) c) (P + (o.toNat + 1)) attr else m

/-- **One cell**, at a cursor that is not negative and not beyond the reach of an `int`. -/
theorem putCell_mapped {L : Layout} {k : Kernel} {base P : Nat} (h : Mapped L k base P)
    (attr c : Byte) {x y : Int} (hx : 0 ≤ x) (hy : 0 ≤ y) (hsmall : cellOff x y < 2000000000) :
    putCell L base attr x y c k = withRam k (cellPut P attr (cellOff x y) c k.ram) := by
  obtain ⟨hb0, hb⟩ := h.base_lt
  have hb' : base ≤ 50343936 := hb
  have hoff : 0 ≤ cellOff x y := by
    simp only [cellOff, numCols]; omega
  have haddr : cellAddr base x y = base + cellOff x y := by
    unfold cellAddr
    rw [show (base : Int) + 2 * (numCols * y + x) = base + cellOff x y from rfl]
    exact int32_of_range (by omega) (by omega)
  unfold putCell cellPut
  simp only [haddr]
  generalize hg : cellOff x y = g at *
  by_cases hroom : g < offset4K - 1
  · have ho : g.toNat + 1 < offset4K := by
      simp only [offset4K] at hroom ⊢; omega
    have e1 : BitVec.ofInt 32 ((base : Int) + g) = BitVec.ofNat 32 (base + g.toNat) := by
      rw [← BitVec.ofInt_natCast]
      congr 1; omega
    have e2 : BitVec.ofInt 32 ((base : Int) + g + 1) = BitVec.ofNat 32 (base + (g.toNat + 1)) := by
      rw [← BitVec.ofInt_natCast]
      congr 1; omega
    rw [if_pos ⟨by omega, by omega⟩, if_pos hroom, e1, e2, h.kstore_pair ho]
  · rw [if_neg (by omega), if_neg hroom, withRam_self]

/-! ## Scrolling -/

theorem cellWord_succ (base x y : Nat) :
    cellWord base x y + 1 = BitVec.ofNat 32 (base + (2 * (numCols * y + x) + 1)) := by
  unfold cellWord
  rw [← Nat.add_assoc, BitVec.ofNat_add _ 1]
  rfl

/-- Memory after the first `i` cells of page `P` have taken the cell one row below. -/
def shifted (P i : Nat) (m : Mem) : Mem := fun a =>
  if P ≤ a ∧ a < P + 2 * i then m (a + 160) else m a

/-- One cell of the row copy. -/
theorem shifted_succ (P i : Nat) (m : Mem) :
    store (store (shifted P i m) (P + 2 * i) (shifted P i m (P + 2 * (i + 80)))) (P + (2 * i + 1))
      (store (shifted P i m) (P + 2 * i) (shifted P i m (P + 2 * (i + 80)))
        (P + (2 * (i + 80) + 1))) = shifted P (i + 1) m := by
  -- what is read lies one row below what is written, so it is still the old byte
  have h1 : shifted P i m (P + 2 * (i + 80)) = m (P + 2 * i + 160) := by
    unfold shifted
    rw [if_neg (by omega), show P + 2 * (i + 80) = P + 2 * i + 160 by omega]
  have h2 : store (shifted P i m) (P + 2 * i) (m (P + 2 * i + 160)) (P + (2 * (i + 80) + 1))
      = m (P + 2 * i + 161) := by
    rw [store_of_ne (by omega)]
    unfold shifted
    rw [if_neg (by omega), show P + (2 * (i + 80) + 1) = P + 2 * i + 161 by omega]
  rw [h1, h2]
  funext a
  by_cases ha1 : a = P + (2 * i + 1)
  · subst ha1
    rw [store_self]
    unfold shifted
    rw [if_pos (by omega), show P + (2 * i + 1) + 160 = P + 2 * i + 161 by omega]
  · rw [store_of_ne ha1]
    by_cases ha0 : a = P + 2 * i
    · subst ha0
      rw [store_self]
      unfold shifted
      rw [if_pos (by omega)]
    · rw [store_of_ne ha0]
      unfold shifted
      by_cases hin : P ≤ a ∧ a < P + 2 * i
      · rw [if_pos hin, if_pos (by omega)]
      · rw [if_neg hin, if_neg (by omega)]

/-- **The row-copying loops**, as one shift of the page. -/
theorem scrollRows_mapped {L : Layout} {k : Kernel} {base P : Nat} (h : Mapped L k base P) :
    scrollRows L base k = withRam k (shifted P 1920 k.ram) := by
  unfold scrollRows
  refine forLoop_inv (P := fun y (k' : Kernel) => k' = withRam k (shifted P (80 * y) k.ram)) ?_
    (numRows - 1) ?_
  · have h0 : shifted P 0 k.ram = k.ram := by
      funext a
      unfold shifted
      rw [if_neg (by omega)]
    rw [Nat.mul_zero, h0, withRam_self]
  · rintro y k' hy rfl
    have hy' : y < 24 := hy
    refine forLoop_inv
      (P := fun x (k' : Kernel) => k' = withRam k (shifted P (80 * y + x) k.ram)) rfl numCols ?_
    rintro x k' hx rfl
    have hx' : x < 80 := hx
    have hk : Mapped L (withRam k (shifted P (80 * y + x) k.ram)) base P := h.of_page rfl
    have hrow : 2 * (numCols * (y + 1) + x) = 2 * (80 * y + x + 80) := by
      simp only [numCols]; omega
    have hin : ∀ {o : Nat}, o < 2 * 2000 → o < offset4K := fun ho => by
      simp only [offset4K]; omega
    dsimp only
    rw [cellWord_succ, cellWord_succ, cellWord, cellWord, hrow,
      show numCols * y + x = 80 * y + x from rfl, hk.kload (hin (by omega)),
      hk.kstore (hin (by omega)), (hk.withRam _).kload (hin (by omega)),
      (hk.withRam _).kstore (hin (by omega))]
    simp only [withRam_ram, withRam_withRam]
    rw [shifted_succ, Nat.add_assoc]

/-- Memory after the first `x` cells of the last row of page `P` have been blanked. -/
def blanked (P x : Nat) (attr : Byte) (m : Mem) : Mem := fun a =>
  if P + 3840 ≤ a ∧ a < P + 3840 + 2 * x then (if (a - P) % 2 = 0 then 0 else attr) else m a

/-- **The blanking loop.** -/
theorem blankRow_mapped {L : Layout} {k : Kernel} {base P : Nat} (h : Mapped L k base P)
    (attr : Byte) :
    blankRow L base (numRows - 1) attr k = withRam k (blanked P 80 attr k.ram) := by
  unfold blankRow
  refine forLoop_inv (P := fun x (k' : Kernel) => k' = withRam k (blanked P x attr k.ram)) ?_
    numCols ?_
  · have h0 : blanked P 0 attr k.ram = k.ram := by
      funext a
      unfold blanked
      rw [if_neg (by omega)]
    rw [h0, withRam_self]
  · rintro x k' hx rfl
    have hx' : x < 80 := hx
    have hk : Mapped L (withRam k (blanked P x attr k.ram)) base P := h.of_page rfl
    have hrow : 2 * (numCols * (numRows - 1) + x) = 3840 + 2 * x := by
      simp only [numCols, numRows]; omega
    rw [cellWord_succ, cellWord, hrow, hk.kstore_pair (by simp only [offset4K]; omega),
      withRam_ram, withRam_withRam]
    congr 1
    funext a
    by_cases ha1 : a = P + (3840 + 2 * x + 1)
    · subst ha1
      rw [store_self]
      unfold blanked
      rw [if_pos (by omega), if_neg (by omega)]
    · rw [store_of_ne ha1]
      by_cases ha0 : a = P + (3840 + 2 * x)
      · subst ha0
        rw [store_self]
        unfold blanked
        rw [if_pos (by omega), if_pos (by omega)]
      · rw [store_of_ne ha0]
        unfold blanked
        by_cases hin : P + 3840 ≤ a ∧ a < P + 3840 + 2 * x
        · have hin' : P + 3840 ≤ a ∧ a < P + 3840 + 2 * (x + 1) := by omega
          rw [if_pos hin, if_pos hin']
        · rw [if_neg hin, if_neg (by omega)]

/-- Memory after page `P` has been scrolled by one row. -/
def scrolled (P : Nat) (attr : Byte) (m : Mem) : Mem := blanked P 80 attr (shifted P 1920 m)

end Zbiggie.Proof
