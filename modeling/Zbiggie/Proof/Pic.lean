import Mathlib.Data.List.Induction
import Zbiggie.Kernel.Pic

/-!
# Which interrupt lines are masked

A controller takes four words to initialise, and after the fourth every byte at its data
port is the new mask. `i8259_init` sends the last words of both controllers to the master.
So the master has them too early and takes its cascade word for its fourth, and the slave
is still waiting: the next two calls for a line of its own are not masks to it.

From then on a set bit is a masked line, and `enable_irq` is the call that sets one.
-/

namespace Zbiggie.Proof

open Zbiggie Machine

/-! ## The data sheet -/

/-- What a controller takes the next byte at its data port for. -/
inductive PicWord where
  | icw2 | icw3 | icw4 | ocw1
  deriving DecidableEq

/-- A controller: what it expects, which lines it masks, and whether it acknowledges by itself. -/
structure Controller where
  next : PicWord
  mask : Byte
  autoEoi : Bool

/-- A byte at the data port. -/
def Controller.data (c : Controller) (v : Byte) : Controller :=
  match c.next with
  | .icw2 => { c with next := .icw3 }
  | .icw3 => { c with next := .icw4 }
  | .icw4 => { c with next := .ocw1, autoEoi := v.getLsbD 1 }
  | .ocw1 => { c with mask := v }

inductive Side where
  | master | slave
  deriving DecidableEq

def Side.port : Side → Nat
  | .master => 0x20
  | .slave => 0xA0

/-- What the data sheet says about the initialisation in cascade mode and about the mask. -/
structure PicSheet {σ : Type} (pic : PortDevice σ) where
  ctl : σ → Side → Controller
  outb_icw1 (side : Side) (s : σ) :
    ctl (pic.outb 0x11 side.port s) =
      Function.update (ctl s) side { ctl s side with next := .icw2, mask := 0 }
  outb_data (side : Side) (v : Byte) (s : σ) :
    ctl (pic.outb v (side.port + 1) s) = Function.update (ctl s) side ((ctl s side).data v)
  inb_data (side : Side) (s : σ) : ctl (pic.inb (side.port + 1) s).2 = ctl s
  inb_mask (side : Side) (s : σ) (h : (ctl s side).next = .ocw1) :
    (pic.inb (side.port + 1) s).1 = (ctl s side).mask

variable {σ : Type} {pic : PortDevice σ}

/-! ## The initialisation -/

theorem i8259Init_ctl (sheet : PicSheet pic) (s : σ) :
    sheet.ctl (Ports.i8259Init pic s) .master = ⟨.ocw1, 0x01, true⟩ ∧
      sheet.ctl (Ports.i8259Init pic s) .slave =
        ⟨.icw3, 0, (sheet.ctl s .slave).autoEoi⟩ := by
  have hmaster : ∀ v s, sheet.ctl (pic.outb v (Ports.master8259Port + Ports.dataOffset) s) =
      Function.update (sheet.ctl s) .master ((sheet.ctl s .master).data v) :=
    sheet.outb_data .master
  have hslave : ∀ v s, sheet.ctl (pic.outb v (Ports.slave8259Port + Ports.dataOffset) s) =
      Function.update (sheet.ctl s) .slave ((sheet.ctl s .slave).data v) :=
    sheet.outb_data .slave
  have hicw1m : ∀ s, sheet.ctl (pic.outb Ports.icw1 Ports.master8259Port s) =
      Function.update (sheet.ctl s) .master
        { sheet.ctl s .master with next := .icw2, mask := 0 } := sheet.outb_icw1 .master
  have hicw1s : ∀ s, sheet.ctl (pic.outb Ports.icw1 Ports.slave8259Port s) =
      Function.update (sheet.ctl s) .slave
        { sheet.ctl s .slave with next := .icw2, mask := 0 } := sheet.outb_icw1 .slave
  unfold Ports.i8259Init
  simp only [hmaster, hslave, hicw1m, hicw1s, Function.update_self]
  constructor
  · simp [Controller.data, Ports.icw3Slave, Ports.icw4]
  · simp [Controller.data]

/-! ## A request -/

/-- The line a request is about. -/
def lineOf : PicRequest → Nat
  | .enable irqNum => irqNum
  | .disable irqNum => irqNum

/-- What a request makes of the bit of its line. -/
def bitOf : PicRequest → Bool
  | .enable _ => true
  | .disable _ => false

/-- The controller of a line. -/
def sideOf (irqNum : Nat) : Side := if irqNum < 8 then .master else .slave

/-- The first line of a controller. -/
def Side.base : Side → Nat
  | .master => 0
  | .slave => 8

/-- A line has one of the eight bits of its controller. -/
theorem base_le_line {irq : Nat} (h : irq < 16) :
    (sideOf irq).base ≤ irq ∧ irq - (sideOf irq).base < 8 := by
  unfold sideOf
  by_cases hlt : irq < 8
  · rw [if_pos hlt, show Side.master.base = 0 from rfl]
    omega
  · rw [if_neg hlt, show Side.slave.base = 8 from rfl]
    omega

/-- A mask with the bit of one line changed. -/
def setLine (mask : Byte) (i : Nat) (bit : Bool) : Byte :=
  if bit = true then mask ||| (1#8 <<< i) else mask &&& ~~~(1#8 <<< i)

theorem setLine_getLsbD (mask : Byte) {i j : Nat} (hi : i < 8) (hj : j < 8) (bit : Bool) :
    (setLine mask i bit).getLsbD j = if j = i then bit else mask.getLsbD j := by
  have hbit : ∀ i < 8, ∀ j < 8, (1#8 <<< i).getLsbD j = decide (j = i) := by decide
  unfold setLine
  cases bit with
  | true =>
      rw [if_pos rfl, BitVec.getLsbD_or, hbit i hi j hj]
      by_cases h : j = i <;> simp [h]
  | false =>
      rw [if_neg (by decide), BitVec.getLsbD_and, BitVec.getLsbD_not, hbit i hi j hj]
      by_cases h : j = i <;> simp [h, hj]

/-- A single call. -/
def picRequest (pic : PortDevice σ) (r : PicRequest) (s : σ) : σ := picRequests pic [r] s

/--
One byte goes to the controller of the line, and it is the new mask if the controller is
ready for one.
-/
theorem picRequest_ctl (sheet : PicSheet pic) (r : PicRequest) (s : σ) :
    ∃ v, sheet.ctl (picRequest pic r s) = Function.update (sheet.ctl s) (sideOf (lineOf r))
        ((sheet.ctl s (sideOf (lineOf r))).data v) ∧
      ((sheet.ctl s (sideOf (lineOf r))).next = .ocw1 →
        v = setLine (sheet.ctl s (sideOf (lineOf r))).mask
          (lineOf r - (sideOf (lineOf r)).base) (bitOf r)) := by
  have hport : ∀ irq : Nat, Ports.irqPort irq =
      ((sideOf irq).port + 1, 1#8 <<< (irq - (sideOf irq).base)) := by
    intro irq
    unfold Ports.irqPort sideOf
    by_cases h : irq < 8
    · rw [if_pos h, if_pos h]
      rfl
    · rw [if_neg h, if_neg h]
      rfl
  cases r with
  | enable irq =>
      refine ⟨(pic.inb ((sideOf irq).port + 1) s).1 ||| 1#8 <<< (irq - (sideOf irq).base), ?_, ?_⟩
      · show sheet.ctl (Ports.enableIrq pic irq s) = _
        unfold Ports.enableIrq
        rw [hport]
        dsimp only
        rw [sheet.outb_data, sheet.inb_data]
        rfl
      · intro (hnext : (sheet.ctl s (sideOf irq)).next = .ocw1)
        rw [sheet.inb_mask _ _ hnext]
        rfl
  | disable irq =>
      refine ⟨(pic.inb ((sideOf irq).port + 1) s).1 &&& ~~~(1#8 <<< (irq - (sideOf irq).base)),
        ?_, ?_⟩
      · show sheet.ctl (Ports.disableIrq pic irq s) = _
        unfold Ports.disableIrq
        rw [hport]
        dsimp only
        rw [sheet.outb_data, sheet.inb_data]
        rfl
      · intro (hnext : (sheet.ctl s (sideOf irq)).next = .ocw1)
        rw [sheet.inb_mask _ _ hnext]
        rfl

/-! ## Runs -/

/-- The requests for the lines of one controller. -/
def ownRequests (side : Side) (rs : List PicRequest) : List PicRequest :=
  rs.filter fun r => decide (sideOf (lineOf r) = side)

/-- What was last asked for a line. -/
def lastRequest (line : Nat) (rs : List PicRequest) : Option Bool :=
  ((rs.filter fun r => decide (lineOf r = line)).getLast?).map bitOf

/-- What a controller expects that has still to swallow some words. -/
def pending : Nat → PicWord
  | 0 => .ocw1
  | 1 => .icw4
  | _ => .icw3

theorem lastRequest_snoc (line : Nat) (rs : List PicRequest) (r : PicRequest) :
    lastRequest line (rs ++ [r])
      = if lineOf r = line then some (bitOf r) else lastRequest line rs := by
  unfold lastRequest
  rw [List.filter_append]
  by_cases h : lineOf r = line
  · rw [if_pos h, List.filter_cons_of_pos (by simpa using h), List.filter_nil,
      List.getLast?_concat, Option.map_some]
  · rw [if_neg h, List.filter_cons_of_neg (by simpa using h), List.filter_nil, List.append_nil]

/--
A controller that first swallows `k` words, over any requests: the first `k` for its lines
are lost, and a bit of the mask is what was last asked for its line after that.
-/
theorem picRequests_ctl (sheet : PicSheet pic) (side : Side) {k : Nat} (hk : k ≤ 2) {s : σ}
    (hnext : (sheet.ctl s side).next = pending k) (rs : List PicRequest)
    (hrs : ∀ r ∈ rs, lineOf r < 16) :
    (sheet.ctl (picRequests pic rs s) side).next = pending (k - (ownRequests side rs).length) ∧
      (k = 0 → (sheet.ctl (picRequests pic rs s) side).autoEoi = (sheet.ctl s side).autoEoi) ∧
      ∀ i < 8, (sheet.ctl (picRequests pic rs s) side).mask.getLsbD i =
        (lastRequest (side.base + i) ((ownRequests side rs).drop k)).getD
          ((sheet.ctl s side).mask.getLsbD i) := by
  induction rs using List.reverseRecOn with
  | nil =>
      refine ⟨hnext, fun _ => rfl, ?_⟩
      intro i _
      rw [show (ownRequests side []).drop k = [] from List.drop_nil]
      rfl
  | append_singleton rs r ih =>
      obtain ⟨hn, ha, hm⟩ := ih fun r hr => hrs r (List.mem_append_left _ hr)
      have hline : lineOf r < 16 := hrs r (List.mem_append_right _ (List.mem_singleton.mpr rfl))
      have hrun : picRequests pic (rs ++ [r]) s = picRequest pic r (picRequests pic rs s) := by
        unfold picRequest picRequests
        rw [List.foldl_append]
      have hown : ownRequests side (rs ++ [r]) =
          if sideOf (lineOf r) = side then ownRequests side rs ++ [r] else ownRequests side rs := by
        unfold ownRequests
        rw [List.filter_append]
        by_cases h : sideOf (lineOf r) = side <;> simp [h]
      obtain ⟨v, hctl, hv⟩ := picRequest_ctl sheet r (picRequests pic rs s)
      rw [hrun, hctl, hown]
      by_cases hside : sideOf (lineOf r) = side
      · subst hside
        rw [Function.update_self, if_pos rfl, List.length_append, List.length_singleton]
        generalize hc : sheet.ctl (picRequests pic rs s) (sideOf (lineOf r)) = c at hn ha hm hv
        generalize ownRequests (sideOf (lineOf r)) rs = own at hn hm
        obtain ⟨hbase, hbit⟩ := base_le_line hline
        by_cases hready : k ≤ own.length
        · -- a mask
          have hocw1 : c.next = .ocw1 := by
            rw [hn, show k - own.length = 0 by omega]
            rfl
          have hdata : c.data v = { c with mask := v } := by
            unfold Controller.data
            rw [hocw1]
          rw [hdata, hv hocw1, List.drop_append_of_le_length hready,
            show k - (own.length + 1) = 0 by omega]
          refine ⟨hocw1, ha, ?_⟩
          intro i hi
          rw [setLine_getLsbD _ hbit hi, lastRequest_snoc]
          by_cases hiline : i = lineOf r - (sideOf (lineOf r)).base
          · rw [if_pos hiline, if_pos (by omega)]
            rfl
          · rw [if_neg hiline, if_neg (by omega)]
            exact hm i hi
        · -- a word of the initialisation
          rw [List.drop_of_length_le (by omega)] at hm
          rw [List.drop_of_length_le (by rw [List.length_append, List.length_singleton]; omega)]
          have hword : (c.data v).next = pending (k - (own.length + 1)) ∧
              (c.data v).mask = c.mask := by
            have hleft : k - own.length = 1 ∨ k - own.length = 2 := by omega
            unfold Controller.data
            rcases hleft with h | h
            · rw [h] at hn
              rw [hn, show k - (own.length + 1) = 0 by omega]
              exact ⟨rfl, rfl⟩
            · rw [h] at hn
              rw [hn, show k - (own.length + 1) = 1 by omega]
              exact ⟨rfl, rfl⟩
          refine ⟨hword.1, fun h => by omega, ?_⟩
          rw [hword.2]
          exact hm
      · rw [Function.update_of_ne (Ne.symm hside), if_neg hside]
        exact ⟨hn, ha, hm⟩

/--
The controllers after `i8259_init` and any calls of `enable_irq` and `disable_irq`, in any
order. The master acknowledges by itself, and a line of its is masked if `enable_irq` was
the last call for it; line 0 also if there was none. Of the slave's lines the same is true
from the third call on: the first two complete its initialisation.
-/
theorem pic_masks_what_is_enabled (sheet : PicSheet pic) (s : σ) {rs : List PicRequest}
    (hrs : ∀ r ∈ rs, lineOf r < 16) :
    ((sheet.ctl (picRequests pic rs (Ports.i8259Init pic s)) .master).next = .ocw1 ∧
      (sheet.ctl (picRequests pic rs (Ports.i8259Init pic s)) .master).autoEoi = true ∧
      ∀ i < 8, (sheet.ctl (picRequests pic rs (Ports.i8259Init pic s)) .master).mask.getLsbD i =
        (lastRequest i (ownRequests .master rs)).getD (decide (i = 0))) ∧
    (sheet.ctl (picRequests pic rs (Ports.i8259Init pic s)) .slave).next =
        pending (2 - (ownRequests .slave rs).length) ∧
      ∀ i < 8, (sheet.ctl (picRequests pic rs (Ports.i8259Init pic s)) .slave).mask.getLsbD i =
        (lastRequest (8 + i) ((ownRequests .slave rs).drop 2)).getD false := by
  obtain ⟨hmaster, hslave⟩ := i8259Init_ctl sheet s
  have hone : ∀ i < 8, (0x01#8).getLsbD i = decide (i = 0) := by decide
  constructor
  · obtain ⟨hn, ha, hm⟩ := picRequests_ctl sheet .master (Nat.zero_le 2)
      (show _ = pending 0 by rw [hmaster]; rfl) rs hrs
    rw [hmaster] at ha hm
    refine ⟨?_, ha rfl, ?_⟩
    · rw [hn, Nat.zero_sub]
      rfl
    · intro i hi
      rw [hm i hi, List.drop_zero, show Side.master.base = 0 from rfl, Nat.zero_add]
      exact congrArg _ (hone i hi)
  · obtain ⟨hn, -, hm⟩ := picRequests_ctl sheet .slave (Nat.le_refl 2)
      (show _ = pending 2 by rw [hslave]; rfl) rs hrs
    rw [hslave] at hm
    refine ⟨hn, ?_⟩
    intro i hi
    rw [hm i hi]
    exact congrArg _ BitVec.getLsbD_zero

/-- Two controllers that do nothing else. -/
def plainPic : PortDevice (Side → Controller) where
  outb v port s :=
    if port = 0x20 ∧ v = 0x11 then
      Function.update s .master { s .master with next := .icw2, mask := 0 }
    else if port = 0xA0 ∧ v = 0x11 then
      Function.update s .slave { s .slave with next := .icw2, mask := 0 }
    else if port = 0x21 then Function.update s .master ((s .master).data v)
    else if port = 0xA1 then Function.update s .slave ((s .slave).data v)
    else s
  inb port s := (if port = 0x21 then (s .master).mask else (s .slave).mask, s)

def plainPicSheet : PicSheet plainPic where
  ctl s := s
  outb_icw1 side _ := by cases side <;> rfl
  outb_data side _ _ := by cases side <;> rfl
  inb_data _ _ := rfl
  inb_mask side _ _ := by cases side <;> rfl

/-- The calls the kernel makes at boot: nothing is masked, and the slave still waits. -/
theorem pic_masks_boot :
    ((picRequests plainPic [.enable 8, .disable 0]
        (Ports.i8259Init plainPic fun _ => ⟨.ocw1, 0xFF, false⟩)) .slave).next = .icw4 ∧
      ∀ i < 8, ((picRequests plainPic [.enable 8, .disable 0]
        (Ports.i8259Init plainPic fun _ => ⟨.ocw1, 0xFF, false⟩)) .master).mask.getLsbD i =
          false := by
  obtain ⟨⟨-, -, hm⟩, hn, -⟩ := @pic_masks_what_is_enabled _ _ plainPicSheet
    (fun _ => ⟨.ocw1, 0xFF, false⟩) [.enable 8, .disable 0] (by decide)
  have hlast : ∀ i < 8, (lastRequest i (ownRequests .master [.enable 8, .disable 0])).getD
      (decide (i = 0)) = false := by decide
  exact ⟨hn, fun i hi => (hm i hi).trans (hlast i hi)⟩

end Zbiggie.Proof
