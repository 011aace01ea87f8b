import Zbiggie.Kernel.Rtc
import Mathlib.Data.List.Count
import Mathlib.Tactic.IntervalCases

/-!
# What the clock is set to, and whom a tick wakes

There is one chip and one flag for all processes. This file says what that comes to over
whole runs.

The chip ends up at the last frequency anyone was granted, with its time base and its
other control bits as they were. That rests on what the data sheet says about the two
ports (`ClockSheet`), and only on that: an access to the data port may change the
selection, the update bit of register A may read as anything, and nothing at all is said
about writing to a register other than A and B.

A reader is released by the first tick it gets to see. It gets to see a tick unless
another reader enters `rtc_read` in between, and then that tick is gone.
-/

namespace Zbiggie.Proof

open Zbiggie Machine Ports

/-! ## The data sheet -/

/-- What the kernel configures: the writable bits of register A, register B, the NMI mask. -/
structure ClockSetup where
  ctrlA : BitVec 7
  ctrlB : Byte
  nmiMasked : Bool
  deriving DecidableEq

/-- Bits 4 to 6 of register A. -/
def ClockSetup.divider (c : ClockSetup) : BitVec 3 := c.ctrlA.extractLsb' 4 3

/-- Bits 0 to 3 of register A. -/
def ClockSetup.rate (c : ClockSetup) : BitVec 4 := c.ctrlA.extractLsb' 0 4

/-- How often the clock interrupts in a second. -/
def ClockSetup.frequency (c : ClockSetup) : Nat := 32768 >>> (c.rate.toNat - 1)

/-- What the data sheet says about the two ports. -/
structure ClockSheet {σ : Type} (chip : PortDevice σ) where
  /-- The register behind the data port. -/
  selected : σ → BitVec 7
  setup : σ → ClockSetup
  outb_index_selected (v : Byte) (s : σ) : selected (chip.outb v 0x70 s) = v.setWidth 7
  outb_index_setup (v : Byte) (s : σ) :
    setup (chip.outb v 0x70 s) = { setup s with nmiMasked := v.msb }
  outb_A (v : Byte) (s : σ) (h : selected s = 0x0A#7) :
    setup (chip.outb v 0x71 s) = { setup s with ctrlA := v.setWidth 7 }
  outb_B (v : Byte) (s : σ) (h : selected s = 0x0B#7) :
    ∃ b, setup (chip.outb v 0x71 s) = { setup s with ctrlB := b } ∧
      -- a byte that sets SET, the top bit, clears another
      (v.msb = false → b = v)
  inb_A (s : σ) (h : selected s = 0x0A#7) :
    (chip.inb 0x71 s).1.setWidth 7 = (setup s).ctrlA
  inb_B (s : σ) (h : selected s = 0x0B#7) : (chip.inb 0x71 s).1 = (setup s).ctrlB
  inb_index_setup (s : σ) : setup (chip.inb 0x70 s).2 = setup s
  inb_data_setup (s : σ) : setup (chip.inb 0x71 s).2 = setup s

variable {σ : Type} {chip : PortDevice σ}

/-! ## What each operation does to the setup -/

theorem msb_and_nmiOn (v : Byte) : (v &&& nmiOn).msb = false := by
  rw [BitVec.msb_and]
  exact Bool.and_false _

theorem enableNmi_setup (sheet : ClockSheet chip) (s : σ) :
    sheet.setup (enableNmi chip s) = { sheet.setup s with nmiMasked := false } := by
  unfold enableNmi rtcIndexPort
  simp only [sheet.outb_index_setup, sheet.inb_index_setup, msb_and_nmiOn]

theorem msb_or_rtcEnable (v : Byte) : (v ||| rtcEnable).msb = v.msb := by
  rw [BitVec.msb_or]
  exact Bool.or_false _

theorem rtcInit_setup (sheet : ClockSheet chip) (s : σ) :
    ∃ b, sheet.setup (rtcInit chip s) = { sheet.setup s with ctrlB := b, nmiMasked := false } ∧
      ((sheet.setup s).ctrlB.msb = false → b = (sheet.setup s).ctrlB ||| rtcEnable) := by
  have hsel : ∀ s, sheet.selected (chip.outb noNmiB rtcIndexPort s) = 0x0B#7 :=
    fun s => sheet.outb_index_selected noNmiB s
  have hread :
      (chip.inb rtcRwPort (chip.outb noNmiB rtcIndexPort s)).1 = (sheet.setup s).ctrlB := by
    rw [rtcRwPort, sheet.inb_B _ (hsel _), rtcIndexPort, sheet.outb_index_setup]
  obtain ⟨b, hb, hplain⟩ := sheet.outb_B
    ((chip.inb rtcRwPort (chip.outb noNmiB rtcIndexPort s)).1 ||| rtcEnable) _
    (hsel (chip.inb rtcRwPort (chip.outb noNmiB rtcIndexPort s)).2)
  rw [hread, msb_or_rtcEnable] at hplain
  refine ⟨b, ?_, hplain⟩
  unfold rtcInit
  simp only [enableNmi_setup]
  rw [rtcRwPort] at hb ⊢
  rw [hb, rtcIndexPort, sheet.outb_index_setup, sheet.inb_data_setup, sheet.outb_index_setup]

theorem rtcHandler_setup (sheet : ClockSheet chip) (s : σ) :
    sheet.setup (rtcHandler chip s) = { sheet.setup s with nmiMasked := false } := by
  unfold rtcHandler
  simp only [enableNmi_setup]
  rw [rtcRwPort, sheet.inb_data_setup, rtcIndexPort, sheet.outb_index_setup]

/-- Register A as a new rate leaves it: the time base kept, the rate below it. -/
def ClockSetup.withRate (c : ClockSetup) (rate : BitVec 4) : ClockSetup :=
  { c with ctrlA := (c.ctrlA &&& 0x70#7) ||| rate.setWidth 7, nmiMasked := false }

@[simp] theorem ClockSetup.withRate_divider (c : ClockSetup) (rate : BitVec 4) :
    (c.withRate rate).divider = c.divider := by
  unfold ClockSetup.withRate ClockSetup.divider
  ext i hi
  have hcases : i = 0 ∨ i = 1 ∨ i = 2 := by omega
  rcases hcases with rfl | rfl | rfl <;> simp

@[simp] theorem ClockSetup.withRate_rate (c : ClockSetup) (rate : BitVec 4) :
    (c.withRate rate).rate = rate := by
  unfold ClockSetup.withRate ClockSetup.rate
  ext i hi
  have hcases : i = 0 ∨ i = 1 ∨ i = 2 ∨ i = 3 := by omega
  rcases hcases with rfl | rfl | rfl | rfl <;> simp

/-- The byte `change_rtc_freq` writes, less the update bit that came with the old one. -/
theorem rate_byte (v : Byte) (rate : BitVec 4) :
    ((v &&& rateMask) ||| rate.setWidth 8).setWidth 7 =
      (v.setWidth 7 &&& 0x70#7) ||| rate.setWidth 7 := by
  unfold rateMask
  ext i hi
  have hcases : i = 0 ∨ i = 1 ∨ i = 2 ∨ i = 3 ∨ i = 4 ∨ i = 5 ∨ i = 6 := by omega
  rcases hcases with rfl | rfl | rfl | rfl | rfl | rfl | rfl <;> simp

theorem ofInt_rate {rate : Nat} (h : rate < 16) :
    BitVec.ofInt 8 (rate : Int) = (BitVec.ofNat 4 rate).setWidth 8 := by
  apply BitVec.eq_of_toNat_eq
  simp only [BitVec.toNat_ofInt, BitVec.toNat_setWidth, BitVec.toNat_ofNat]
  omega

/-- **A rate in range is set**, and the answer is the one `open` and `write` pass on. -/
theorem changeRtcFreq_setup (sheet : ClockSheet chip) {rate : Nat} (hlo : 2 < rate)
    (hhi : rate < 16) (s : σ) :
    (Ports.changeRtcFreq chip rate s).1 = Zbiggie.changeRtcFreq rate ∧
      sheet.setup (Ports.changeRtcFreq chip rate s).2 =
        (sheet.setup s).withRate (BitVec.ofNat 4 rate) := by
  have hok : ¬ ((rate : Int) ≤ 2 ∨ (rate : Int) > 15) := by omega
  have hsel : ∀ s, sheet.selected (chip.outb noNmiA rtcIndexPort s) = 0x0A#7 :=
    fun s => sheet.outb_index_selected noNmiA s
  unfold Ports.changeRtcFreq Zbiggie.changeRtcFreq
  rw [if_neg hok, if_neg hok]
  refine ⟨rfl, ?_⟩
  simp only [enableNmi_setup]
  rw [rtcRwPort, sheet.outb_A _ _ (hsel _), ofInt_rate hhi, rate_byte, sheet.inb_A _ (hsel _),
    rtcIndexPort, sheet.outb_index_setup, sheet.inb_data_setup, sheet.outb_index_setup]
  rfl

/-- The frequencies a write may ask for, `HZ_2` to `HZ_1024`. -/
def Grantable (frequency : Word) (numbytes : Int) : Prop :=
  numbytes = 4 ∧ ∃ k < 10, frequency.toNat = 2 ^ (k + 1)

instance (frequency : Word) (numbytes : Int) : Decidable (Grantable frequency numbytes) :=
  inferInstanceAs (Decidable (_ ∧ ∃ k < 10, _))

/-- `rtc_write` passes a rate on for the ten powers of two and refuses everything else. -/
theorem rtcWrite_cases (chip : PortDevice σ) (f : Word) (n : Int) (s : σ) :
    (∃ k < 10, n = 4 ∧ f.toNat = 2 ^ (k + 1) ∧
        Ports.rtcWrite chip f n s = Ports.changeRtcFreq chip ((15 - k : Nat) : Int) s ∧
        Zbiggie.rtcWrite f n = Zbiggie.changeRtcFreq ((15 - k : Nat) : Int)) ∨
      (¬ Grantable f n ∧ Ports.rtcWrite chip f n s = (-1, s) ∧ Zbiggie.rtcWrite f n = -1) := by
  by_cases hn : n = 4
  · subst hn
    by_cases hf : ∃ k < 10, f.toNat = 2 ^ (k + 1)
    · obtain ⟨k, hk, hfk⟩ := hf
      refine .inl ⟨k, hk, rfl, hfk, ?_, ?_⟩
      · unfold Ports.rtcWrite
        rw [hfk]
        interval_cases k <;> rfl
      · unfold Zbiggie.rtcWrite
        rw [hfk]
        interval_cases k <;> rfl
    · refine .inr ⟨fun h => hf h.2, ?_, ?_⟩
      · unfold Ports.rtcWrite
        rw [if_neg (by simp)]
        split
        case h_11 => rfl
        all_goals
          rename_i h
          exact absurd ⟨f.toNat.log2 - 1, by rw [h]; decide, by rw [h]; rfl⟩ hf
      · unfold Zbiggie.rtcWrite
        rw [if_neg (by simp)]
        split
        case h_11 => rfl
        all_goals
          rename_i h
          exact absurd ⟨f.toNat.log2 - 1, by rw [h]; decide, by rw [h]; rfl⟩ hf
  · refine .inr ⟨fun h => hn h.1, ?_, ?_⟩
    · exact if_pos hn
    · exact if_pos hn

/-! ## The frequency over a run -/

/-- The frequency an action sets, if it sets one: `open` the slowest, a write what it asks. -/
def granted : RtcAct → Option Nat
  | .openRtc => some 2
  | .write f n => if Grantable f n then some f.toNat else none
  | _ => none

/-- Whether an action gets as far as the ports. -/
def reachesPorts : RtcAct → Bool
  | .init => true
  | .interrupt => true
  | a => (granted a).isSome

theorem withRate_frequency (c : ClockSetup) {k : Nat} (hk : k < 10) :
    (c.withRate (BitVec.ofNat 4 (15 - k))).frequency = 2 ^ (k + 1) := by
  rw [ClockSetup.frequency, ClockSetup.withRate_rate]
  interval_cases k <;> rfl

/-- What one action leaves of the setup. -/
structure SetupStep (c d : ClockSetup) (a : RtcAct) : Prop where
  frequency : d.frequency = (granted a).getD c.frequency
  divider : d.divider = c.divider
  /-- Unless the clock is being set. -/
  ctrlB : c.ctrlB.msb = false → d.ctrlB = if a = .init then c.ctrlB ||| rtcEnable else c.ctrlB
  nmiMasked : d.nmiMasked = (c.nmiMasked && !reachesPorts a)

/-- **One step.** Readers and refused writes leave the chip alone. -/
theorem rtcStep_setup (sheet : ClockSheet chip) {s t : Rtc σ} {a : RtcAct}
    (h : RtcStep chip s a t) : SetupStep (sheet.setup s.chip) (sheet.setup t.chip) a := by
  have hsame : ∀ c : ClockSetup, c.nmiMasked = (c.nmiMasked && !false) :=
    fun c => (Bool.and_true _).symm
  cases h with
  | init =>
    obtain ⟨b, hb, hplain⟩ := rtcInit_setup sheet s.chip
    rw [hb]
    exact ⟨rfl, rfl, hplain, (Bool.and_false _).symm⟩
  | openRtc =>
    have h : sheet.setup (rtcOpen chip s.chip).2 = (sheet.setup s.chip).withRate 15#4 :=
      (changeRtcFreq_setup sheet (by decide) (by decide) s.chip).2
    rw [h]
    exact ⟨withRate_frequency _ (k := 0) (by decide), ClockSetup.withRate_divider _ _,
      fun _ => rfl, (Bool.and_false _).symm⟩
  | write f n =>
    have hr : reachesPorts (.write f n) = (granted (.write f n)).isSome := rfl
    rcases rtcWrite_cases chip f n s.chip with ⟨k, hk, hn, hf, hw, -⟩ | ⟨hno, hw, -⟩
    · obtain ⟨_, h⟩ := @changeRtcFreq_setup σ chip sheet (15 - k) (by omega) (by omega) s.chip
      have hg : granted (.write f n) = some f.toNat := if_pos ⟨hn, k, hk, hf⟩
      rw [hw, h]
      refine ⟨?_, ClockSetup.withRate_divider _ _, fun _ => rfl, ?_⟩
      · rw [withRate_frequency _ hk, hg, hf]
        rfl
      · rw [hr, hg]
        exact (Bool.and_false _).symm
    · have hg : granted (.write f n) = none := if_neg hno
      rw [hw]
      refine ⟨by rw [hg]; rfl, rfl, fun _ => rfl, ?_⟩
      rw [hr, hg]
      exact hsame _
  | call p => exact ⟨rfl, rfl, fun _ => rfl, hsame _⟩
  | poll p => exact ⟨rfl, rfl, fun _ => rfl, hsame _⟩
  | interrupt =>
    rw [rtcHandler_setup sheet]
    exact ⟨rfl, rfl, fun _ => rfl, (Bool.and_false _).symm⟩

/--
The clock runs at the last frequency anyone was granted, in any order of opens, writes,
reads and ticks. Its time base is untouched, its interrupt is enabled once `rtc_init` has
run with the other bits of register B kept, provided the clock was not being set when it
all began, and the NMI is not left masked. The answers are those of `rtcWrite`.
-/
theorem rtc_runs_at_last_frequency (sheet : ClockSheet chip) {s t : Rtc σ} {as : List RtcAct}
    (h : Run (RtcStep chip) s as t) :
    (sheet.setup t.chip).frequency =
        (as.filterMap granted).getLastD (sheet.setup s.chip).frequency ∧
      (sheet.setup t.chip).divider = (sheet.setup s.chip).divider ∧
      ((sheet.setup s.chip).ctrlB.msb = false → (sheet.setup t.chip).ctrlB =
        if .init ∈ as then (sheet.setup s.chip).ctrlB ||| rtcEnable
        else (sheet.setup s.chip).ctrlB) ∧
      (sheet.setup t.chip).nmiMasked =
        ((sheet.setup s.chip).nmiMasked && !as.any reachesPorts) ∧
      ∀ f n, (Ports.rtcWrite chip f n t.chip).1 = Zbiggie.rtcWrite f n := by
  have hanswer : ∀ f n, (Ports.rtcWrite chip f n t.chip).1 = Zbiggie.rtcWrite f n := by
    intro f n
    rcases rtcWrite_cases chip f n t.chip with ⟨k, hk, -, -, hw, hv⟩ | ⟨-, hw, hv⟩
    · rw [hw, hv]
      exact (changeRtcFreq_setup sheet (by omega) (by omega) t.chip).1
    · rw [hw, hv]
  refine ⟨?_, ?_, ?_, ?_, hanswer⟩ <;> clear hanswer
  · induction h with
    | nil => rfl
    -- the last frequency granted is that of this step, if it grants one
    | @snoc as a t u _ hs ih =>
      rw [(rtcStep_setup sheet hs).frequency, ih, List.filterMap_append]
      cases hg : granted a with
      | none => simp [hg]
      | some f => simp [hg]
  · induction h with
    | nil => rfl
    | snoc _ hs ih => exact (rtcStep_setup sheet hs).divider.trans ih
  · intro hset
    induction h with
    | nil => rfl
    | @snoc as a t u _ hs ih =>
      -- `init` never sets SET, so it stays clear
      have hclear : (sheet.setup t.chip).ctrlB.msb = false := by
        rw [ih]
        split
        · rw [msb_or_rtcEnable, hset]
        · exact hset
      rw [(rtcStep_setup sheet hs).ctrlB hclear, ih]
      by_cases ha : a = .init
      · subst ha
        by_cases hm : RtcAct.init ∈ as
        · simp [hm, BitVec.or_assoc]
        · simp [hm]
      · simp [ha, Ne.symm ha]
  · induction h with
    | nil => simp
    | @snoc as a t u _ hs ih =>
      rw [(rtcStep_setup sheet hs).nmiMasked, ih, List.any_append]
      simp [Bool.and_assoc]

/-- A clock that does nothing by itself, and forgets the selection after each data access. -/
def plainClock : PortDevice (BitVec 7 × ClockSetup) where
  outb v port s :=
    if port = 0x70 then (v.setWidth 7, { s.2 with nmiMasked := v.msb })
    else if port = 0x71 then
      (0x0D#7,
        if s.1 = 0x0A#7 then { s.2 with ctrlA := v.setWidth 7 }
        else if s.1 = 0x0B#7 then { s.2 with ctrlB := if v.msb then v &&& ~~~0x10#8 else v }
        else s.2)
    else s
  inb port s :=
    if port = 0x71 then
      -- the update bit reads as set
      (if s.1 = 0x0A#7 then 1#1 ++ s.2.ctrlA else if s.1 = 0x0B#7 then s.2.ctrlB else 0#8,
        (0x0D#7, s.2))
    else (0xFF#8, s)

def plainSheet : ClockSheet plainClock where
  selected s := s.1
  setup s := s.2
  outb_index_selected _ _ := rfl
  outb_index_setup _ _ := rfl
  outb_A v s h := by simp [plainClock, h]
  outb_B v s h := by
    refine ⟨if v.msb then v &&& ~~~0x10#8 else v, by simp [plainClock, h], ?_⟩
    intro hset
    rw [hset]
    rfl
  inb_A s h := by
    simp only [plainClock, h, if_true]
    exact BitVec.setWidth_append_eq_right
  inb_B s h := by simp [plainClock, h]
  inb_index_setup _ := rfl
  inb_data_setup _ := rfl

/-- The clock after the firmware: 1024 Hz, no interrupt enabled, nobody reading. -/
def clockAtBoot : Rtc (BitVec 7 × ClockSetup) where
  chip := (0#7, ⟨0x26#7, 0x02#8, false⟩)
  rtcF := false
  reading := fun _ => false

/-- An accepted write between two refused ones decides. -/
theorem rtc_runs_at_sixty_four :
    ∃ t : Rtc (BitVec 7 × ClockSetup),
      Run (RtcStep plainClock) clockAtBoot
        [.init, .openRtc, .write 7#32 4, .write 64#32 4, .write 128#32 2, .interrupt] t ∧
      t.chip.2.frequency = 64 ∧ t.chip.2.ctrlB = 0x42#8 ∧ t.chip.2.nmiMasked = false := by
  have hrun : ∃ t, Run (RtcStep plainClock) clockAtBoot
      [.init, .openRtc, .write 7#32 4, .write 64#32 4, .write 128#32 2, .interrupt] t :=
    ⟨_, (((((Run.nil.snoc .init).snoc .openRtc).snoc (.write _ _)).snoc (.write _ _)).snoc
      (.write _ _)).snoc .interrupt⟩
  obtain ⟨t, ht⟩ := hrun
  obtain ⟨hf, _, hb, hn, _⟩ := rtc_runs_at_last_frequency plainSheet ht
  exact ⟨t, ht, hf.trans rfl, (hb (by decide)).trans (by decide), hn.trans (by decide)⟩

/-! ## Whom a tick wakes -/

/-- A tick has come, and since then nobody has entered `rtc_read`. -/
def TickPending (as : List RtcAct) : Prop :=
  ∃ before after, as = before ++ .interrupt :: after ∧ ∀ q, RtcAct.call q ∉ after

theorem tickPending_snoc {as : List RtcAct} {a : RtcAct} :
    TickPending (as ++ [a]) ↔ a = .interrupt ∨ (TickPending as ∧ ∀ q, a ≠ .call q) := by
  constructor
  · rintro ⟨before, after, h, hq⟩
    rcases List.eq_nil_or_concat after with rfl | ⟨after, b, rfl⟩
    · exact .inl (by simpa using (List.append_inj' h rfl).2)
    · rw [List.concat_eq_append] at hq
      rw [List.concat_eq_append, ← List.cons_append, ← List.append_assoc] at h
      obtain ⟨h1, h2⟩ := List.append_inj' h rfl
      obtain rfl : a = b := by simpa using h2
      refine .inr ⟨⟨before, after, h1, ?_⟩, ?_⟩
      · exact fun q hm => hq q (List.mem_append_left _ hm)
      · exact fun q hm => hq q (List.mem_append_right _ (by simp [hm]))
  · rintro (rfl | ⟨⟨before, after, rfl, hq⟩, ha⟩)
    · exact ⟨as, [], rfl, fun _ hm => by cases hm⟩
    · refine ⟨before, after ++ [a], by simp, ?_⟩
      intro q hm
      rcases List.mem_append.mp hm with hm | hm
      · exact hq q hm
      · exact ha q (List.mem_singleton.mp hm).symm

/-- What the flag and the readers say about the run so far. -/
structure Waits {σ : Type} (as : List RtcAct) (t : Rtc σ) : Prop where
  set : t.rtcF = true → ¬ TickPending as
  clear : t.rtcF = false → TickPending as ∨ ∀ q, RtcAct.call q ∉ as
  called : ∀ p, t.reading p = true → RtcAct.call p ∈ as
  /-- A reader that a tick has released has not yet used it up. -/
  done : ∀ p, as.count (.call p) ≤ as.count .interrupt +
    (if t.reading p = true ∧ t.rtcF = true then 1 else 0)

theorem count_snoc (as : List RtcAct) (a b : RtcAct) :
    (as ++ [a]).count b = as.count b + if a = b then 1 else 0 := by
  rw [List.count_append, List.count_singleton]
  simp only [beq_iff_eq]

/-- An action that is neither a call nor a tick: readers may only leave, and the flag stays. -/
theorem waits_quiet {as : List RtcAct} {s t : Rtc σ} {a : RtcAct} (h : Waits as s)
    (hcall : ∀ q, a ≠ .call q) (htick : a ≠ .interrupt) (hf : t.rtcF = s.rtcF)
    (hr : ∀ p, t.reading p = true → s.reading p = true)
    (hr' : ∀ p, s.reading p = true → s.rtcF = true → t.reading p = true) :
    Waits (as ++ [a]) t := by
  have hpending : TickPending (as ++ [a]) ↔ TickPending as := by
    rw [tickPending_snoc]
    exact ⟨fun h => h.elim (absurd · htick) And.left, fun h => .inr ⟨h, hcall⟩⟩
  constructor
  · intro hset
    rw [hpending]
    exact h.set (hf ▸ hset)
  · intro hclear
    rw [hpending]
    rcases h.clear (hf ▸ hclear) with h | h
    · exact .inl h
    · refine .inr fun q hm => ?_
      rcases List.mem_append.mp hm with hm | hm
      · exact h q hm
      · exact hcall q (List.mem_singleton.mp hm).symm
  · exact fun p hp => List.mem_append_left _ (h.called p (hr p hp))
  · intro p
    rw [count_snoc, count_snoc, if_neg (hcall p), if_neg htick, hf]
    refine (h.done p).trans ?_
    by_cases hp : s.reading p = true ∧ s.rtcF = true
    · rw [if_pos hp, if_pos ⟨hr' p hp.1 hp.2, hp.2⟩]
    · rw [if_neg hp]
      omega

/-- **One step.** A call sets the flag for everyone, a tick clears it for everyone. -/
theorem waits_step {as : List RtcAct} {s t : Rtc σ} {a : RtcAct} (h : Waits as s)
    (hs : RtcStep chip s a t) : Waits (as ++ [a]) t := by
  cases hs with
  | init => exact waits_quiet h nofun nofun rfl (fun _ hp => hp) (fun _ hp _ => hp)
  | openRtc => exact waits_quiet h nofun nofun rfl (fun _ hp => hp) (fun _ hp _ => hp)
  | write f n => exact waits_quiet h nofun nofun rfl (fun _ hp => hp) (fun _ hp _ => hp)
  | poll q hq =>
    refine waits_quiet h nofun nofun rfl ?_ ?_
    · intro p (hp : Function.update s.reading q s.rtcF p = true)
      by_cases hpq : p = q
      · exact hpq ▸ hq
      · rwa [Function.update_of_ne hpq] at hp
    · intro p hp hset
      show Function.update s.reading q s.rtcF p = true
      by_cases hpq : p = q
      · subst hpq
        rwa [Function.update_self]
      · rwa [Function.update_of_ne hpq]
  | call q hq =>
    constructor
    · intro _ hpending
      rcases tickPending_snoc.mp hpending with h | h
      · cases h
      · exact h.2 q rfl
    · exact fun hclear => by cases hclear
    · intro p (hp : Function.update s.reading q true p = true)
      by_cases hpq : p = q
      · subst hpq
        exact List.mem_append_right _ (List.mem_singleton.mpr rfl)
      · rw [Function.update_of_ne hpq] at hp
        exact List.mem_append_left _ (h.called p hp)
    -- one more call of `q`, and one more that is under way
    · intro p
      have hdone := h.done p
      rw [count_snoc, count_snoc, if_neg (show RtcAct.call q ≠ .interrupt from nofun)]
      by_cases hpq : p = q
      · subst hpq
        rw [if_neg (fun h => by rw [hq] at h; cases h.1)] at hdone
        rw [if_pos rfl, if_pos ⟨Function.update_self .., rfl⟩]
        omega
      · rw [if_neg (fun h => hpq (RtcAct.call.inj h).symm)]
        simp only [Function.update_of_ne hpq]
        by_cases hp : s.reading p = true
        · rw [if_pos ⟨hp, trivial⟩]
          split at hdone <;> omega
        · rw [if_neg (fun h => hp h.1)] at hdone
          omega
  | interrupt =>
    constructor
    · exact fun hset => by cases hset
    · exact fun _ => .inl (tickPending_snoc.mpr (.inl rfl))
    · exact fun p hp => List.mem_append_left _ (h.called p hp)
    · intro p
      have hdone := h.done p
      rw [count_snoc, count_snoc, if_neg (show RtcAct.interrupt ≠ .call p from nofun), if_pos rfl]
      split at hdone <;> omega

theorem waits_run {s t : Rtc σ} {as : List RtcAct} (hflag : s.rtcF = false)
    (hnone : ∀ p, s.reading p = false) (h : Run (RtcStep chip) s as t) : Waits as t := by
  induction h with
  | nil =>
    constructor
    · exact fun hset => by rw [hflag] at hset; cases hset
    · exact fun _ => .inr fun _ hm => by cases hm
    · exact fun p hp => by rw [hnone p] at hp; cases hp
    · exact fun p => Nat.zero_le _
  | snoc _ hs ih => exact waits_step ih hs

/--
`rtc_read` over every interleaving of readers and ticks: a reader leaves its loop exactly
when a tick has come after the last call of *any* reader. So it never returns before a
tick that follows its own call, one tick releases all who wait, and a tick that is
followed by another reader's call before this one looks again is lost on it. No process
finishes more reads than there were ticks.
-/
theorem rtc_read_waits_for_tick {s t u : Rtc σ} {as : List RtcAct} (hflag : s.rtcF = false)
    (hnone : ∀ p, s.reading p = false) (h : Run (RtcStep chip) s as t) {p : Nat}
    (hp : RtcStep chip t (.poll p) u) :
    (u.reading p = false ↔
      ∃ before after, as = before ++ .interrupt :: after ∧ ∀ q, RtcAct.call q ∉ after) ∧
    as.count (.call p) ≤ as.count .interrupt + if u.reading p = true then 1 else 0 := by
  have hw := waits_run hflag hnone h
  cases hp with
  | poll _ hread =>
    simp only [Function.update_self]
    have hdone := hw.done p
    cases hf : t.rtcF with
    | true =>
      rw [hread, hf, if_pos ⟨rfl, rfl⟩] at hdone
      exact ⟨⟨nofun, fun h => absurd h (hw.set hf)⟩, hdone⟩
    | false =>
      rw [hf, if_neg nofun] at hdone
      refine ⟨⟨fun _ => ?_, fun _ => rfl⟩, hdone⟩
      rcases hw.clear hf with h | h
      · exact h
      · exact absurd (hw.called p hread) (h p)

/-- Two readers and two ticks: the second reader's call takes the first tick from the other. -/
theorem rtc_read_waits_for_tick_two :
    ∃ t u : Rtc (BitVec 7 × ClockSetup),
      Run (RtcStep plainClock) clockAtBoot [.call 4, .interrupt, .call 5] t ∧
      RtcStep plainClock t (.poll 4) u ∧ u.reading 4 = true := by
  have hrun : ∃ t, Run (RtcStep plainClock) clockAtBoot [.call 4, .interrupt, .call 5] t ∧
      t.reading 4 = true :=
    ⟨_, ((Run.nil.snoc (.call 4 rfl)).snoc .interrupt).snoc (.call 5 rfl), rfl⟩
  obtain ⟨t, ht, hread⟩ := hrun
  refine ⟨t, _, ht, .poll 4 hread, ?_⟩
  have h := (rtc_read_waits_for_tick rfl (fun _ => rfl) ht (.poll 4 hread)).1
  rw [← Bool.not_eq_false, h]
  intro (hpending : TickPending ([.call 4, .interrupt] ++ [.call 5]))
  rcases tickPending_snoc.mp hpending with h | h
  · cases h
  · exact h.2 5 rfl

end Zbiggie.Proof
