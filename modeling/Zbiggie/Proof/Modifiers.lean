import Zbiggie.Proof.Editing
import Zbiggie.Proof.Execute

/-!
# Shift, Control and the terminals

There is one keyboard and there are three terminals. `alt_flag` and
`caps_lock_flag` are kept once, but the shift and control flags once for each
terminal, and a press or a release is recorded for the terminal on display.

`Board` is the keyboard itself: the keys that are down, going by the last code of
each, and the terminal its user has called up. `Agrees` says that the flags a key is
translated by are those of the board. They are as long as nobody calls up another
terminal with one of the three keys down, and no longer (`modifiers_follow_iff`).
-/

namespace Zbiggie.Proof

open Zbiggie Machine

/-! ## The keyboard -/

/-- The keys held down, and the terminal on display. -/
structure Board where
  shiftL : Bool
  shiftR : Bool
  ctrl : Bool
  alt : Bool
  shown : Term
  deriving DecidableEq

namespace Board

/-- What a scancode tells of the keyboard: a key went down or came up, or Alt called a terminal. -/
def key (b : Board) (c : Byte) : Board :=
  if c = 0x2A then { b with shiftL := true }
  else if c = 0xAA then { b with shiftL := false }
  else if c = 0x36 then { b with shiftR := true }
  else if c = 0xB6 then { b with shiftR := false }
  else if c = 0x1D then { b with ctrl := true }
  else if c = 0x9D then { b with ctrl := false }
  else if c = 0x38 then { b with alt := true }
  else if c = 0xB8 then { b with alt := false }
  else if c = 0x3B ∧ b.alt then { b with shown := 0 }
  else if c = 0x3C ∧ b.alt then { b with shown := 1 }
  else if c = 0x3D ∧ b.alt then { b with shown := 2 }
  else b

/-- The keyboard after a sequence of scancodes. -/
def keys (b : Board) (cs : List Byte) : Board := cs.foldl key b

@[simp] theorem keys_nil (b : Board) : b.keys [] = b := rfl

@[simp] theorem keys_cons (b : Board) (c : Byte) (cs : List Byte) :
    b.keys (c :: cs) = (b.key c).keys cs := rfl

/-- One of the keys that are flagged for each terminal is down. -/
def Held (b : Board) : Prop := b.shiftL = true ∨ b.shiftR = true ∨ b.ctrl = true

/-- A scancode that calls up another terminal while such a key is down. -/
def Strays (b : Board) (c : Byte) : Prop := b.Held ∧ (b.key c).shown ≠ b.shown

/-- No scancode of the sequence does that. -/
def Steady (b : Board) : List Byte → Prop
  | [] => True
  | c :: cs => ¬ b.Strays c ∧ Steady (b.key c) cs

/-- The scancode is one a keyboard in this state can send: nothing goes down twice. -/
def Sends (b : Board) (c : Byte) : Prop :=
  (c = 0x2A → b.shiftL = false) ∧ (c = 0xAA → b.shiftL = true) ∧
    (c = 0x36 → b.shiftR = false) ∧ (c = 0xB6 → b.shiftR = true) ∧
    (c = 0x1D → b.ctrl = false) ∧ (c = 0x9D → b.ctrl = true)

/-- Presses and releases of the three keys alternate. -/
def Alternates (b : Board) : List Byte → Prop
  | [] => True
  | c :: cs => b.Sends c ∧ Alternates (b.key c) cs

instance instDecidableStrays (b : Board) (c : Byte) : Decidable (b.Strays c) := by
  unfold Strays Held; infer_instance

instance instDecidableSends (b : Board) (c : Byte) : Decidable (b.Sends c) := by
  unfold Sends; infer_instance

instance instDecidableSteady : (b : Board) → (cs : List Byte) → Decidable (b.Steady cs)
  | _, [] => .isTrue trivial
  | b, c :: cs =>
      have := instDecidableSteady (b.key c) cs
      inferInstanceAs (Decidable (¬ b.Strays c ∧ (b.key c).Steady cs))

instance instDecidableAlternates : (b : Board) → (cs : List Byte) → Decidable (b.Alternates cs)
  | _, [] => .isTrue trivial
  | b, c :: cs =>
      have := instDecidableAlternates (b.key c) cs
      inferInstanceAs (Decidable (b.Sends c ∧ (b.key c).Alternates cs))

end Board

/-- The keyboard with none of the three keys down, in front of machine `k`. -/
def boardOf (k : Kernel) : Board :=
  ⟨false, false, false, k.keys.altFlag, k.page.currentTerminal⟩

/-- `key_handler` on one scancode after the other. -/
def keyHandlers (L : Layout) (k : Kernel) (cs : List Byte) : Kernel :=
  cs.foldl (fun k c => keyHandler L c k) k

@[simp] theorem keyHandlers_nil (L : Layout) (k : Kernel) : keyHandlers L k [] = k := rfl

@[simp] theorem keyHandlers_cons (L : Layout) (k : Kernel) (c : Byte) (cs : List Byte) :
    keyHandlers L k (c :: cs) = keyHandlers L (keyHandler L c k) cs := by
  unfold keyHandlers
  rw [List.foldl_cons]

/-- The flags a key is translated by are those of the keys held down. -/
structure Agrees (k : Kernel) (b : Board) : Prop where
  shiftL : k.keys.shiftLFlag k.page.currentTerminal = b.shiftL
  shiftR : k.keys.shiftRFlag k.page.currentTerminal = b.shiftR
  ctrl : k.keys.ctrlFlag k.page.currentTerminal = b.ctrl

/-! ## What leaves the flags alone -/

/-- No modifier flag changed but Caps Lock, and the same terminal is on display. -/
structure Unshifted (k k' : Kernel) : Prop where
  shiftL : k'.keys.shiftLFlag = k.keys.shiftLFlag
  shiftR : k'.keys.shiftRFlag = k.keys.shiftRFlag
  ctrl : k'.keys.ctrlFlag = k.keys.ctrlFlag
  alt : k'.keys.altFlag = k.keys.altFlag
  shown : k'.page.currentTerminal = k.page.currentTerminal

namespace Unshifted

variable {L : Layout} {k k' k'' : Kernel}

theorem of_keys (hk : k'.keys = k.keys) (hp : k'.page = k.page) : Unshifted k k' := by
  constructor
  · rw [hk]
  · rw [hk]
  · rw [hk]
  · rw [hk]
  · rw [hp]

theorem refl (k : Kernel) : Unshifted k k := of_keys rfl rfl

theorem trans (h : Unshifted k k') (h' : Unshifted k' k'') : Unshifted k k'' where
  shiftL := h'.shiftL.trans h.shiftL
  shiftR := h'.shiftR.trans h.shiftR
  ctrl := h'.ctrl.trans h.ctrl
  alt := h'.alt.trans h.alt
  shown := h'.shown.trans h.shown

/-- Nothing the line editor stores is a flag. -/
theorem frame : EditFrame Unshifted where
  refl := refl
  trans := trans
  setLine := fun _ _ _ _ => of_keys rfl rfl
  setCurPos := fun _ _ _ => of_keys rfl rfl
  setCurSize := fun _ _ _ => of_keys rfl rfl
  setPrevSize := fun _ _ _ => of_keys rfl rfl
  setWaitForNl := fun _ _ _ => of_keys rfl rfl
  setWrite := fun _ _ _ _ => of_keys rfl rfl
  histUp := fun t k => by
    obtain ⟨_, he⟩ := browsed_histUp t k
    rw [he]
    exact of_keys rfl rfl
  histDown := fun _ _ => of_keys rfl rfl
  shows := fun h => of_keys h.keys h.page

end Unshifted

/-! ## What does not -/

theorem kmemcpy_keys (L : Layout) (dest src : Word) (n : Nat) (k : Kernel) :
    (kmemcpy L dest src n k).keys = k.keys :=
  (Shows.forLoop (t := 0) (fun _ k => Shows.kstore 0 k _ _) n k).keys

/-- A switch of terminals takes no flag along. -/
theorem switchTo_keys (L : Layout) (u : Term) (k : Kernel) : (switchTo L u k).keys = k.keys := by
  have hcontext : ∀ (p : Nat) (k : Kernel), (termSwitch (switchContext p k)).keys = k.keys :=
    fun _ _ => rfl
  have hpage : ∀ (k : Kernel) (p : Paging), ({ k with page := p } : Kernel).keys = k.keys :=
    fun _ _ => rfl
  unfold switchTo switchVideo
  split
  · rfl
  · rw [hcontext, kmemcpy_keys, hpage, kmemcpy_keys]

/-- The scancodes of left shift, right shift, control and Alt, down and up. -/
def modifierKeys : List Byte := [0x2A, 0xAA, 0x36, 0xB6, 0x1D, 0x9D, 0x38, 0xB8]

/-- The scancodes of the function keys that go with Alt. -/
def functionKeys : List Byte := [0x3B, 0x3C, 0x3D]

/-- Any other key, and a function key without Alt, is of no concern to the flags. -/
theorem Unshifted.keyHandler (L : Layout) {c : Byte} {k : Kernel} (hmod : c ∉ modifierKeys)
    (hswitch : ¬ (c ∈ functionKeys ∧ k.keys.altFlag = true)) : Unshifted k (keyHandler L c k) := by
  have hno : ∀ {n : Nat}, BitVec.ofNat 8 n ∈ modifierKeys → ¬ c.toNat = n :=
    fun hn h => hmod (toNat_eq_ofNat h ▸ hn)
  have hnofn : ∀ {n : Nat}, BitVec.ofNat 8 n ∈ functionKeys →
      ¬ (c.toNat = n ∧ k.keys.altFlag = true) :=
    fun hn h => hswitch ⟨toNat_eq_ofNat h.1 ▸ hn, h.2⟩
  refine LineFrame.choice (fun _ => refl k) fun _ => ?_
  refine LineFrame.choice (fun _ => frame.downHist k) fun _ => ?_
  refine LineFrame.choice (fun _ => frame.upHist k) fun _ => ?_
  refine LineFrame.choice (fun _ => frame.termMoveLeft k) fun _ => ?_
  refine LineFrame.choice (fun _ => frame.termMoveRight k) fun _ => ?_
  refine LineFrame.choice (fun h => absurd h (hno (by decide))) fun _ => ?_
  refine LineFrame.choice (fun h => absurd h (hno (by decide))) fun _ => ?_
  refine LineFrame.choice (fun h => absurd h (hno (by decide))) fun _ => ?_
  refine LineFrame.choice (fun h => absurd h (hno (by decide))) fun _ => ?_
  -- Caps Lock has a flag of its own
  refine LineFrame.choice (fun _ => ⟨rfl, rfl, rfl, rfl, rfl⟩) fun _ => ?_
  refine LineFrame.choice (fun h => absurd h (hno (by decide))) fun _ => ?_
  refine LineFrame.choice (fun h => absurd h (hno (by decide))) fun _ => ?_
  refine LineFrame.choice (fun h => absurd h (hno (by decide))) fun _ => ?_
  refine LineFrame.choice (fun h => absurd h (hno (by decide))) fun _ => ?_
  refine LineFrame.choice ?_ (fun _ => refl k)
  intro hrange
  refine LineFrame.choice (fun h => absurd h (hnofn (by decide))) fun _ => ?_
  refine LineFrame.choice (fun h => absurd h (hnofn (by decide))) fun _ => ?_
  refine LineFrame.choice (fun h => absurd h (hnofn (by decide))) fun _ => ?_
  exact frame.keyChar hrange.2 k

theorem Board.key_other {b : Board} {c : Byte} (hmod : c ∉ modifierKeys)
    (hswitch : ¬ (c ∈ functionKeys ∧ b.alt = true)) : b.key c = b := by
  simp only [modifierKeys, functionKeys, List.mem_cons, List.not_mem_nil, or_false, not_or]
    at hmod hswitch
  unfold Board.key
  grind

theorem Board.key_modifier_shown {b : Board} {c : Byte} (hc : c ∈ modifierKeys) :
    (b.key c).shown = b.shown := by
  simp only [modifierKeys, List.mem_cons, List.not_mem_nil, or_false] at hc
  rcases hc with rfl | rfl | rfl | rfl | rfl | rfl | rfl | rfl
  all_goals rfl

/-- With Alt down a function key calls up its terminal, on the keyboard and in the machine. -/
theorem functionKey_switches (L : Layout) {c : Byte} {k : Kernel} {b : Board}
    (hc : c ∈ functionKeys) (hk : k.keys.altFlag = true) (hb : b.alt = true) :
    ∃ u, keyHandler L c k = switchTo L u k ∧ b.key c = { b with shown := u } := by
  simp only [functionKeys, List.mem_cons, List.not_mem_nil, or_false] at hc
  rcases hc with rfl | rfl | rfl
  · exact ⟨0, by simp [keyHandler, notPrintableArray, hk], by simp [Board.key, hb]⟩
  · exact ⟨1, by simp [keyHandler, notPrintableArray, hk], by simp [Board.key, hb]⟩
  · exact ⟨2, by simp [keyHandler, notPrintableArray, hk], by simp [Board.key, hb]⟩

/-! ## The invariant -/

/-- A flag is set on no terminal but `u`, and there as the key is held. -/
def Tracks (flag : Term → Bool) (held : Bool) (u : Term) : Prop :=
  ∀ t, flag t = (held && decide (t = u))

/-- A press or a release. -/
theorem Tracks.set {flag : Term → Bool} {held : Bool} {u : Term} (h : Tracks flag held u)
    (b : Bool) : Tracks (Function.update flag u b) b u := by
  intro t
  by_cases ht : t = u
  · simp [ht]
  · rw [Function.update_of_ne ht, h t]
    simp [ht]

/-- A switch to where it does not matter. -/
theorem Tracks.move {flag : Term → Bool} {held : Bool} {u v : Term} (h : Tracks flag held u)
    (hv : held = true → v = u) : Tracks flag held v := by
  intro t
  rw [h t]
  cases held with
  | false => rfl
  | true => rw [hv rfl]

theorem Tracks.elsewhere {flag : Term → Bool} {held : Bool} {u v : Term} (h : Tracks flag held u)
    (hv : v ≠ u) : flag v = false := by
  rw [h v]
  simp [hv]

theorem Tracks.here {flag : Term → Bool} {held : Bool} {u : Term} (h : Tracks flag held u) :
    flag u = held := by
  rw [h u]
  simp

/--
**The invariant.** The machine has the keyboard's Alt and terminal, and the flags of the
terminals that are not on display are clear.
-/
structure Follows (k : Kernel) (b : Board) : Prop where
  alt : k.keys.altFlag = b.alt
  shown : k.page.currentTerminal = b.shown
  shiftL : Tracks k.keys.shiftLFlag b.shiftL b.shown
  shiftR : Tracks k.keys.shiftRFlag b.shiftR b.shown
  ctrl : Tracks k.keys.ctrlFlag b.ctrl b.shown

namespace Follows

variable {L : Layout} {k k' : Kernel} {b : Board} {c : Byte}

theorem agrees (h : Follows k b) : Agrees k b := by
  constructor
  · rw [h.shown]
    exact h.shiftL.here
  · rw [h.shown]
    exact h.shiftR.here
  · rw [h.shown]
    exact h.ctrl.here

theorem unshifted (h : Follows k b) (hu : Unshifted k k') : Follows k' b where
  alt := hu.alt.trans h.alt
  shown := hu.shown.trans h.shown
  shiftL := by rw [hu.shiftL]; exact h.shiftL
  shiftR := by rw [hu.shiftR]; exact h.shiftR
  ctrl := by rw [hu.ctrl]; exact h.ctrl

/-- A key of a modifier goes down, or comes up. -/
theorem modifier (h : Follows k b) (hc : c ∈ modifierKeys) :
    Follows (keyHandler L c k) (b.key c) := by
  have hshown := h.shown
  obtain ⟨halt, _, hl, hr, hctrl⟩ := h
  simp only [modifierKeys, List.mem_cons, List.not_mem_nil, or_false] at hc
  -- each code is recorded in one flag of the terminal on display, or in `alt_flag`
  rcases hc with rfl | rfl | rfl | rfl | rfl | rfl | rfl | rfl
  all_goals simp only [keyHandler, notPrintableArray, Board.key, setFlag, hshown]
  · exact ⟨halt, hshown, hl.set true, hr, hctrl⟩
  · exact ⟨halt, hshown, hl.set false, hr, hctrl⟩
  · exact ⟨halt, hshown, hl, hr.set true, hctrl⟩
  · exact ⟨halt, hshown, hl, hr.set false, hctrl⟩
  · exact ⟨halt, hshown, hl, hr, hctrl.set true⟩
  · exact ⟨halt, hshown, hl, hr, hctrl.set false⟩
  · exact ⟨rfl, hshown, hl, hr, hctrl⟩
  · exact ⟨rfl, hshown, hl, hr, hctrl⟩

/-- A switch, with nothing held or to the terminal already there. -/
theorem switched (h : Follows k b) {u : Term} (hu : b.Held → u = b.shown) :
    Follows (switchTo L u k) { b with shown := u } := by
  have hkeys := switchTo_keys L u k
  constructor
  · rw [hkeys]
    exact h.alt
  · exact (switchTo_shown L u k).1
  · rw [hkeys]
    exact h.shiftL.move (fun hl => hu (.inl hl))
  · rw [hkeys]
    exact h.shiftR.move (fun hr => hu (.inr (.inl hr)))
  · rw [hkeys]
    exact h.ctrl.move (fun hc => hu (.inr (.inr hc)))

/-- A switch to another terminal with one of the keys down: that key's flag is not set there. -/
theorem astray (h : Follows k b) {u : Term} (hheld : b.Held) (hu : u ≠ b.shown) :
    ¬ Agrees (switchTo L u k) { b with shown := u } := by
  rintro ⟨hl, hr, hc⟩
  rw [(switchTo_shown L u k).1, switchTo_keys] at hl hr hc
  rw [h.shiftL.elsewhere hu] at hl
  rw [h.shiftR.elsewhere hu] at hr
  rw [h.ctrl.elsewhere hu] at hc
  rcases hheld with hh | hh | hh
  · exact absurd (hl.trans hh) (by decide)
  · exact absurd (hr.trans hh) (by decide)
  · exact absurd (hc.trans hh) (by decide)

/-- **One scancode**: the invariant lasts, or the flags are wrong at once. -/
theorem step (h : Follows k b) (c : Byte) :
    (¬ b.Strays c ∧ Follows (keyHandler L c k) (b.key c)) ∨
      (b.Strays c ∧ ¬ Agrees (keyHandler L c k) (b.key c)) := by
  by_cases hmod : c ∈ modifierKeys
  · exact .inl ⟨fun hs => hs.2 (Board.key_modifier_shown hmod), h.modifier hmod⟩
  · by_cases hswitch : c ∈ functionKeys ∧ b.alt = true
    · obtain ⟨u, hk, hb⟩ := functionKey_switches L hswitch.1 (h.alt.trans hswitch.2) hswitch.2
      by_cases hs : b.Strays c
      · refine .inr ⟨hs, ?_⟩
        obtain ⟨hheld, hne⟩ := hs
        rw [hb] at hne
        rw [hk, hb]
        exact h.astray hheld hne
      · refine .inl ⟨hs, ?_⟩
        rw [hk, hb]
        refine h.switched ?_
        intro hheld
        by_contra hne
        exact hs ⟨hheld, by rw [hb]; exact hne⟩
    · have hb : b.key c = b := Board.key_other hmod hswitch
      refine .inl ⟨fun hs => hs.2 (by rw [hb]), ?_⟩
      rw [hb]
      exact h.unshifted (.keyHandler L hmod (by rw [h.alt]; exact hswitch))

end Follows

/-- No flag is set on any terminal, as at boot. -/
def FlagsClear (k : Kernel) : Prop :=
  ∀ t, k.keys.shiftLFlag t = false ∧ k.keys.shiftRFlag t = false ∧ k.keys.ctrlFlag t = false

theorem FlagsClear.follows {k : Kernel} (h : FlagsClear k) : Follows k (boardOf k) :=
  ⟨rfl, rfl, fun t => (h t).1, fun t => (h t).2.1, fun t => (h t).2.2⟩

/-- A property of every prefix, the empty one apart. -/
theorem forall_prefix_cons {α : Type} {P : List α → Prop} {a : α} {l : List α} (h : P []) :
    (∀ p, p <+: a :: l → P p) ↔ ∀ p, p <+: l → P (a :: p) := by
  constructor
  · intro hall p hp
    exact hall _ (List.prefix_cons_inj a |>.mpr hp)
  · intro hall p hp
    rcases List.prefix_cons_iff.mp hp with rfl | ⟨t, rfl, ht⟩
    · exact h
    · exact hall t ht

/-- **A run of the keyboard** from where the flags are right. -/
theorem Follows.agrees_iff {L : Layout} {k : Kernel} {b : Board} (h : Follows k b)
    (cs : List Byte) :
    (∀ p, p <+: cs → Agrees (keyHandlers L k p) (b.keys p)) ↔ b.Steady cs := by
  induction cs generalizing k b with
  | nil =>
      refine ⟨fun _ => trivial, ?_⟩
      intro _ p hp
      rw [List.prefix_nil.mp hp]
      exact h.agrees
  | cons c cs ih =>
      rw [forall_prefix_cons (P := fun p => Agrees (keyHandlers L k p) (b.keys p)) h.agrees]
      rcases h.step (L := L) c with ⟨hs, hnext⟩ | ⟨hs, hwrong⟩
      · exact (ih hnext).trans ⟨fun hrest => ⟨hs, hrest⟩, fun hrest => hrest.2⟩
      · -- both sides fail here
        exact ⟨fun hall => absurd (hall [] (List.nil_prefix)) hwrong,
          fun hsteady => absurd hs hsteady.1⟩

/--
**The modifier flags follow the keyboard, up to a switch under a held key.** Whatever is
typed from a state with no flag set, after each scancode the flags of the terminal on
display are those of the keys then held, if and only if no scancode calls up another
terminal while left shift, right shift or control is down.
-/
theorem modifiers_follow_iff (L : Layout) (k : Kernel) (h : FlagsClear k) (cs : List Byte) :
    (∀ p, p <+: cs → Agrees (keyHandlers L k p) ((boardOf k).keys p)) ↔ (boardOf k).Steady cs :=
  h.follows.agrees_iff cs

/-- A capital letter on terminal `0`, then Alt and F2, and control on terminal `1`. -/
theorem modifiers_follow_capital :
    FlagsClear .zero ∧ (boardOf .zero).Steady [0x2A, 0x1E, 0xAA, 0x38, 0x3C, 0xB8, 0x1D] ∧
      ∀ p, p <+: [0x2A, 0x1E, 0xAA, 0x38, 0x3C, 0xB8, 0x1D] →
        Agrees (keyHandlers someLayout .zero p) ((boardOf .zero).keys p) := by
  have hclear : FlagsClear .zero := fun _ => ⟨rfl, rfl, rfl⟩
  have hsteady : (boardOf .zero).Steady [0x2A, 0x1E, 0xAA, 0x38, 0x3C, 0xB8, 0x1D] := by decide
  exact ⟨hclear, hsteady, (modifiers_follow_iff someLayout .zero hclear _).mpr hsteady⟩

/-- Left shift is recorded for the terminal on display, and for no other. -/
theorem keyHandler_shiftL (L : Layout) (k : Kernel) (t : Term) :
    (keyHandler L 0x2A k).keys.shiftLFlag t
        = (if t = k.page.currentTerminal then true else k.keys.shiftLFlag t) ∧
      (keyHandler L 0xAA k).keys.shiftLFlag t
        = (if t = k.page.currentTerminal then false else k.keys.shiftLFlag t) ∧
      (keyHandler L 0xAA k).keys.altFlag = k.keys.altFlag := by
  refine ⟨?_, ?_, ?_⟩
  · simp [keyHandler, notPrintableArray, setFlag, Function.update_apply]
  · simp [keyHandler, notPrintableArray, setFlag, Function.update_apply]
  · simp [keyHandler, notPrintableArray]

/--
Left shift down on terminal `0`, Alt and F2, left shift up, F1: the flag read is clear
while the key is held, and set once it is not.
-/
theorem shift_across_switch (L : Layout) {k : Kernel} (h0 : k.page.currentTerminal = 0)
    (hclear : FlagsClear k) :
    ¬ Agrees (keyHandlers L k [0x2A, 0x38, 0x3C]) ((boardOf k).keys [0x2A, 0x38, 0x3C]) ∧
      ¬ Agrees (keyHandlers L k [0x2A, 0x38, 0x3C, 0xAA, 0x3B])
        ((boardOf k).keys [0x2A, 0x38, 0x3C, 0xAA, 0x3B]) := by
  have hf1 : ∀ k, k.keys.altFlag = true → keyHandler L 0x3B k = switchTo L 0 k := by
    intro k hk
    simp [keyHandler, notPrintableArray, hk]
  -- the machine with shift and Alt down
  have h2 : ∃ k2, keyHandler L 0x38 (keyHandler L 0x2A k) = k2 ∧ k2.keys.altFlag = true ∧
      ∀ t, k2.keys.shiftLFlag t = if t = 0 then true else false := by
    refine ⟨_, keyHandler_alt L _, rfl, ?_⟩
    intro t
    rw [← (hclear t).1, ← h0]
    exact (keyHandler_shiftL L k t).1
  obtain ⟨k2, hk2, halt, hflag⟩ := h2
  simp only [keyHandlers_cons, keyHandlers_nil, hk2, keyHandler_altF2 L halt]
  refine ⟨?_, ?_⟩
  · intro h
    have hl := h.shiftL
    rw [(switchTo_shown L 1 k2).1, switchTo_keys, hflag 1] at hl
    exact absurd hl (by simp [Board.key, boardOf])
  · intro h
    have hl := h.shiftL
    rw [hf1, (switchTo_shown _ _ _).1, switchTo_keys, (keyHandler_shiftL _ _ 0).2.1,
      (switchTo_shown L 1 k2).1, switchTo_keys, hflag 0] at hl
    · exact absurd hl (by simp [Board.key, boardOf])
    · rw [(keyHandler_shiftL _ _ 0).2.2, switchTo_keys]
      exact halt

/-- A sequence the keyboard can send, and neither agreement holds. -/
theorem shift_held_across_switch :
    FlagsClear .zero ∧ (boardOf .zero).Alternates [0x2A, 0x38, 0x3C, 0xAA, 0x3B] ∧
      ((boardOf .zero).keys [0x2A, 0x38, 0x3C]).shiftL = true ∧
      ¬ Agrees (keyHandlers someLayout .zero [0x2A, 0x38, 0x3C])
        ((boardOf .zero).keys [0x2A, 0x38, 0x3C]) ∧
      ((boardOf .zero).keys [0x2A, 0x38, 0x3C, 0xAA, 0x3B]).shiftL = false ∧
      ¬ Agrees (keyHandlers someLayout .zero [0x2A, 0x38, 0x3C, 0xAA, 0x3B])
        ((boardOf .zero).keys [0x2A, 0x38, 0x3C, 0xAA, 0x3B]) := by
  have hclear : FlagsClear .zero := fun _ => ⟨rfl, rfl, rfl⟩
  have h := shift_across_switch someLayout (k := .zero) rfl hclear
  exact ⟨hclear, by decide, by decide, h.1, by decide, h.2⟩

end Zbiggie.Proof
