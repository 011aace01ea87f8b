import Zbiggie.Proof.Modifiers
import Zbiggie.Proof.ReadLine

/-!
# From scancodes to the line that is read

The two tables say which character a key has, with and without shift, and a letter is a
capital if shift is held or Caps Lock is on, but not both. `Desk.text` is what a sequence of
scancodes comes to that way. What `key_handler` does is that, for the codes the tables know
and those of `notPrintableArray`, which it does not look up at all: Tab and the star of the
keypad have a character in the tables and still type none.
-/

namespace Zbiggie.Proof

open Zbiggie Machine

/-! ## What is typed -/

/-- The entry of `scan2ASCII`. -/
def plainEntry (c : Byte) : Nat := scan2Ascii.getD c.toNat 0

/-- The entry of `shift2ASCII`. -/
def shiftEntry (c : Byte) : Nat := shift2Ascii.getD c.toNat 0

/-- A key with a character: `0` and `0xFF` are none. -/
def HasChar (c : Byte) : Prop :=
  ¬ ((plainEntry c = 0 ∨ plainEntry c = 0xFF) ∧ (shiftEntry c = 0 ∨ shiftEntry c = 0xFF))

instance : DecidablePred HasChar := fun c => by
  unfold HasChar
  infer_instance

def IsLetter (c : Byte) : Prop := 96 < plainEntry c ∧ plainEntry c < 123

instance : DecidablePred IsLetter := fun c => by
  unfold IsLetter
  infer_instance

/-- Up, left, right and down. -/
def arrowKeys : List Byte := [0x48, 0x4B, 0x4D, 0x50]

/-- The keys that set a flag: Caps Lock and the modifiers. -/
def flagKeys : List Byte := 0x3A :: modifierKeys

/-- The keys that are held, and Caps Lock. -/
structure Desk where
  board : Board
  caps : Bool

namespace Desk

def key (d : Desk) (c : Byte) : Desk :=
  ⟨d.board.key c, if c = 0x3A then !d.caps else d.caps⟩

def shift (d : Desk) : Bool := d.board.shiftR || d.board.shiftL

/-- The character of a key. -/
def char (d : Desk) (c : Byte) : Byte :=
  if IsLetter c then BitVec.ofNat 8 (if d.shift ^^ d.caps then plainEntry c - 32 else plainEntry c)
  else BitVec.ofNat 8 (if d.shift then shiftEntry c else plainEntry c)

/-- What a key types, if it has a character and is not one of those `skipped`. -/
def types (skipped : List Nat) (d : Desk) (c : Byte) : List Byte :=
  if HasChar c ∧ c.toNat ∉ skipped then [d.char c] else []

/-- What a sequence of scancodes types. -/
def text (skipped : List Nat) : Desk → List Byte → List Byte
  | _, [] => []
  | d, c :: cs => d.types skipped c ++ (d.key c).text skipped cs

/-- No Enter, Backspace, arrow, Ctrl-L or switch of terminals. -/
structure Plain (d : Desk) (c : Byte) : Prop where
  edits : c ∉ [enterKey, backspaceKey]
  moves : c ∉ arrowKeys
  clears : ¬ (c = 0x26 ∧ d.board.ctrl = true)
  switches : ¬ (c ∈ functionKeys ∧ d.board.alt = true)

/-- A key that goes down, with no entry in the tables and not in `notPrintableArray` either. -/
def Unlisted (c : Byte) : Prop :=
  plainEntry c = 0 ∧ 1 < c.toNat ∧ c.toNat < 123 ∧ c.toNat ∉ notPrintableArray

instance : DecidablePred Unlisted := fun c => by
  unfold Unlisted
  infer_instance

/-- A sequence of such keys, all of them listed. -/
def Typing : Desk → List Byte → Prop
  | _, [] => True
  | d, c :: cs => d.Plain c ∧ ¬ Unlisted c ∧ Typing (d.key c) cs

instance instDecidablePlain (d : Desk) (c : Byte) : Decidable (d.Plain c) :=
  decidable_of_iff (c ∉ [enterKey, backspaceKey] ∧ c ∉ arrowKeys ∧
    ¬ (c = 0x26 ∧ d.board.ctrl = true) ∧ ¬ (c ∈ functionKeys ∧ d.board.alt = true))
    ⟨fun h => ⟨h.1, h.2.1, h.2.2.1, h.2.2.2⟩, fun h => ⟨h.edits, h.moves, h.clears, h.switches⟩⟩

instance instDecidableTyping : (d : Desk) → (cs : List Byte) → Decidable (d.Typing cs)
  | _, [] => .isTrue trivial
  | d, c :: cs =>
      have := instDecidableTyping (d.key c) cs
      inferInstanceAs (Decidable (d.Plain c ∧ ¬ Unlisted c ∧ (d.key c).Typing cs))

end Desk

/-- What the machine takes the keyboard for. -/
def deskOf (k : Kernel) : Desk :=
  ⟨⟨k.keys.shiftLFlag k.page.currentTerminal, k.keys.shiftRFlag k.page.currentTerminal,
    k.keys.ctrlFlag k.page.currentTerminal, k.keys.altFlag, k.page.currentTerminal⟩,
    k.keys.capsLockFlag⟩

/-! ## The tables -/

/-- A character that neither ends the line nor edits it. -/
def Ordinary (ch : Byte) : Prop := ch ∉ [0, 0x0A, 0x0D, 0x08]

instance : DecidablePred Ordinary := fun ch => by
  unfold Ordinary
  infer_instance

/-- A key with a character is looked up, unless `notPrintableArray` has it. -/
theorem hasChar_code : ∀ c : Byte, HasChar c →
    c ∉ flagKeys ∧ c.toNat ≠ 0x50 ∧ c.toNat ≠ 0x48 ∧
      (c.toNat ∉ [0x4B, 0x4D, 0x38, 0x1D, 0x2A, 0x36, 0x3A] ∧ 1 < c.toNat ∧ c.toNat < 123) ∧
      c.toNat ∉ [0x3B, 0x3C, 0x3D] := by
  decide +kernel

/-- The shifted letters of the table are small. -/
theorem letter_shiftEntry : ∀ c : Byte, IsLetter c → HasChar c ∧ shiftEntry c = plainEntry c := by
  decide +kernel

theorem entry_ordinary : ∀ c : Byte, HasChar c → c ∉ [enterKey, backspaceKey] →
    Ordinary (BitVec.ofNat 8 (plainEntry c)) ∧ Ordinary (BitVec.ofNat 8 (shiftEntry c)) ∧
      (IsLetter c → Ordinary (BitVec.ofNat 8 (plainEntry c - 32))) := by
  decide +kernel

/-- A key that is listed and has no character is a modifier, or not looked up. -/
theorem listed_code : ∀ c : Byte, ¬ HasChar c → ¬ Desk.Unlisted c → c ∉ flagKeys →
    c.toNat ∈ notPrintableArray ∨ ¬ (1 < c.toNat ∧ c.toNat < 123) := by
  decide +kernel

section Keys

variable {L : Layout} {k : Kernel} {t : Term} {d : Desk} {w : List Byte} {c : Byte}

theorem Desk.char_ordinary (hc : HasChar c) (hne : c ∉ [enterKey, backspaceKey]) :
    Ordinary (d.char c) := by
  obtain ⟨hplain, hshift, hletter⟩ := entry_ordinary c hc hne
  unfold Desk.char
  by_cases hl : IsLetter c
  · rw [if_pos hl]
    split
    · exact hletter hl
    · exact hplain
  · rw [if_neg hl]
    split
    · exact hshift
    · exact hplain

/-- The flags are those of the keyboard, and the line is what was typed. -/
structure Typed (k : Kernel) (t : Term) (d : Desk) (w : List Byte) : Prop where
  shown : k.page.currentTerminal = t
  desk : deskOf k = d
  line : LineIs k t w
  ordinary : ∀ ch ∈ w, Ordinary ch

/-- **A key that prints**: the handler's chain of tests comes to the character. -/
theorem keyChar_char (hclear : ¬ (c = 0x26 ∧ (deskOf k).board.ctrl = true)) :
    keyChar L c.toNat k = termPutc L ((deskOf k).char c) k := by
  have hl : ∀ c : Byte, plainEntry c = 0x6C → c = 0x26 := by decide +kernel
  have hplain : scan2Ascii.getD c.toNat 0 = plainEntry c := rfl
  have hshift : shift2Ascii.getD c.toNat 0 = shiftEntry c := rfl
  have hheld : (k.keys.shiftRFlag k.page.currentTerminal ||
      k.keys.shiftLFlag k.page.currentTerminal) = (deskOf k).shift := rfl
  unfold keyChar
  dsimp only
  rw [hplain, hshift, hheld, if_neg fun h => hclear ⟨hl c h.1, h.2⟩]
  unfold Desk.char
  have hcaps : k.keys.capsLockFlag = (deskOf k).caps := rfl
  rw [hcaps]
  by_cases hletter : IsLetter c
  · rw [if_pos hletter]
    by_cases hup : ((deskOf k).shift ^^ (deskOf k).caps) = true
    · rw [if_pos ⟨hletter, hup⟩, if_pos hup]
    · -- shift and Caps Lock together: the shifted entry, which is small
      rw [if_neg fun h => hup h.2, if_neg hup, (letter_shiftEntry c hletter).2]
      split
      · rfl
      · rfl
  · rw [if_neg hletter, if_neg fun h => hletter h.1]
    split
    · rfl
    · rfl

theorem LineIs.insert (h : LineIs k t w) (hcur : k.page.currentTerminal = t)
    (hroom : w.length < 127)
    {ch : Byte} (hch : Ordinary ch) : LineIs (termPutc L ch k) t (w ++ [ch]) := by
  simp only [Ordinary, List.mem_cons, List.not_mem_nil, or_false, not_or] at hch
  have hsize : (bufSize : Int) - 1 = 127 := rfl
  have hins := termInsert_spec (L := L) ch k hcur
  rw [termPutc_plain ⟨hch.2.1, hch.2.2.1, hch.2.2.2⟩, hcur, h.curPos, h.curSize, hsize,
    if_pos ⟨by omega, by omega⟩]
  refine ⟨?_, ?_, ?_⟩
  · rw [hins.curPos, Function.update_self, h.curPos, List.length_append, List.length_singleton]
    rfl
  · rw [hins.curSize, Function.update_self, h.curSize, List.length_append, List.length_singleton]
    rfl
  · intro j hj
    rw [List.length_append, List.length_singleton] at hj
    rw [hins.line, h.curPos, h.curSize]
    by_cases hlast : j = w.length
    · rw [if_pos (by omega), hlast, List.getD_append_right _ _ _ _ (Nat.le_refl _), Nat.sub_self]
      rfl
    · rw [if_neg (by omega), if_neg (by omega), h.bytes j (by omega),
        List.getD_append _ _ _ _ (by omega)]

/-- The modifiers and Caps Lock change a flag, and nothing else. -/
theorem modifier_desk (L : Layout) (k : Kernel) (hc : c ∈ flagKeys) :
    deskOf (keyHandler L c k) = (deskOf k).key c ∧ (keyHandler L c k).term = k.term ∧
      (keyHandler L c k).page = k.page := by
  simp only [flagKeys, modifierKeys, List.mem_cons, List.not_mem_nil, or_false] at hc
  rcases hc with rfl | rfl | rfl | rfl | rfl | rfl | rfl | rfl | rfl
  all_goals
    simp [keyHandler, notPrintableArray, setFlag, deskOf, Desk.key, Board.key]

/-- A key that is not looked up does nothing. -/
theorem keyHandler_idle (L : Layout) (k : Kernel) (hc : c.toNat ∈ notPrintableArray ∨
    (c ∉ flagKeys ∧ c ∉ arrowKeys ∧ ¬ (1 < c.toNat ∧ c.toNat < 123))) :
    keyHandler L c k = k := by
  unfold keyHandler
  dsimp only
  rcases hc with hskip | ⟨hmod, harrow, hrange⟩
  · rw [if_pos hskip]
  · have hno : ∀ {n : Nat}, BitVec.ofNat 8 n ∈ flagKeys → ¬ c.toNat = n :=
      fun hn h => hmod (toNat_eq_ofNat h ▸ hn)
    have hnot : ∀ {n : Nat}, BitVec.ofNat 8 n ∈ arrowKeys → ¬ c.toNat = n :=
      fun hn h => harrow (toNat_eq_ofNat h ▸ hn)
    by_cases hskip : c.toNat ∈ notPrintableArray
    · rw [if_pos hskip]
    · rw [if_neg hskip, if_neg (hnot (by decide)), if_neg (hnot (by decide)),
        if_neg (hnot (by decide)), if_neg (hnot (by decide)), if_neg (hno (by decide)),
        if_neg (hno (by decide)), if_neg (hno (by decide)), if_neg (hno (by decide)),
        if_neg (hno (by decide)), if_neg (hno (by decide)), if_neg (hno (by decide)),
        if_neg (hno (by decide)), if_neg (hno (by decide)), if_neg hrange]

theorem Desk.key_other (hmod : c ∉ flagKeys)
    (hswitch : ¬ (c ∈ functionKeys ∧ d.board.alt = true)) : d.key c = d := by
  rw [flagKeys, List.mem_cons, not_or] at hmod
  unfold Desk.key
  rw [Board.key_other hmod.2 hswitch, if_neg hmod.1]

theorem deskOf_congr {k' : Kernel} (h : k'.keys = k.keys ∧ k'.page = k.page) :
    deskOf k' = deskOf k := by
  unfold deskOf
  rw [h.1, h.2]

theorem termPutc_keys (L : Layout) (ch : Byte) (k : Kernel) :
    (termPutc L ch k).keys = k.keys ∧ (termPutc L ch k).page = k.page := by
  have hframe : LineFrame fun k k' => k'.keys = k.keys ∧ k'.page = k.page :=
    { refl := fun _ => ⟨rfl, rfl⟩
      trans := fun h h' => ⟨h'.1.trans h.1, h'.2.trans h.2⟩
      setLine := fun _ _ _ _ => ⟨rfl, rfl⟩
      setCurPos := fun _ _ _ => ⟨rfl, rfl⟩
      setCurSize := fun _ _ _ => ⟨rfl, rfl⟩
      setPrevSize := fun _ _ _ => ⟨rfl, rfl⟩
      setWaitForNl := fun _ _ _ => ⟨rfl, rfl⟩
      setWrite := fun _ _ _ _ => ⟨rfl, rfl⟩
      shows := fun h => ⟨h.keys, h.page⟩ }
  exact hframe.termPutc ch k

/-- A character key. -/
theorem Typed.char (h : Typed k t d w) (hplain : d.Plain c) (hc : HasChar c)
    (hskip : c.toNat ∉ notPrintableArray) (hroom : w.length < 127) :
    Typed (keyHandler L c k) t (d.key c) (w ++ [d.char c]) := by
  obtain ⟨hflag, h50, h48, ⟨hcode, h1, h123⟩, hfun⟩ := hasChar_code c hc
  have hedit : EditKey c k :=
    ⟨hskip, .inr (.inr ⟨hcode, h1, h123, fun h => hfun h.1⟩)⟩
  have hkey : keyHandler L c k = termPutc L (d.char c) k := by
    rw [keyHandler_prints hedit h50 h48, ← h.desk]
    exact keyChar_char (by rw [h.desk]; exact hplain.clears)
  have hord : Ordinary (d.char c) := Desk.char_ordinary hc hplain.edits
  have hkeys := termPutc_keys L (d.char c) k
  rw [hkey, Desk.key_other hflag hplain.switches]
  refine ⟨?_, (deskOf_congr hkeys).trans h.desk, h.line.insert h.shown hroom hord, ?_⟩
  · rw [hkeys.2]
    exact h.shown
  · intro ch hch
    rcases List.mem_append.mp hch with hch | hch
    · exact h.ordinary ch hch
    · rw [List.mem_singleton.mp hch]
      exact hord

/-- **One scancode.** -/
theorem Typed.step (h : Typed k t d w) (hplain : d.Plain c) (hlisted : ¬ Desk.Unlisted c)
    (hroom : (w ++ d.types notPrintableArray c).length ≤ 127) :
    Typed (keyHandler L c k) t (d.key c) (w ++ d.types notPrintableArray c) := by
  by_cases hchar : HasChar c ∧ c.toNat ∉ notPrintableArray
  · have htypes : d.types notPrintableArray c = [d.char c] := if_pos hchar
    rw [htypes, List.length_append, List.length_singleton] at hroom
    rw [htypes]
    exact h.char hplain hchar.1 hchar.2 (by omega)
  · have htypes : d.types notPrintableArray c = [] := if_neg hchar
    rw [htypes, List.append_nil]
    by_cases hmod : c ∈ flagKeys
    · obtain ⟨hdesk, hterm, hpage⟩ := modifier_desk L k hmod
      refine ⟨by rw [hpage]; exact h.shown, by rw [hdesk, h.desk], ⟨?_, ?_, ?_⟩, h.ordinary⟩
      · rw [hterm]
        exact h.line.curPos
      · rw [hterm]
        exact h.line.curSize
      · intro j hj
        unfold Kernel.line
        rw [hterm]
        exact h.line.bytes j hj
    · have hidle : keyHandler L c k = k := by
        refine keyHandler_idle L k ?_
        by_cases hskip : c.toNat ∈ notPrintableArray
        · exact .inl hskip
        · have hnone : ¬ HasChar c := fun hc => hchar ⟨hc, hskip⟩
          exact (listed_code c hnone hlisted hmod).imp id fun hr => ⟨hmod, hplain.moves, hr⟩
      rw [hidle, Desk.key_other hmod hplain.switches]
      exact h

/-- **Any sequence of them.** -/
theorem Typed.run (cs : List Byte) (h : Typed k t d w) (hcs : d.Typing cs)
    (hroom : (w ++ d.text notPrintableArray cs).length ≤ 127) :
    ∃ d', Typed (keyHandlers L k cs) t d' (w ++ d.text notPrintableArray cs) := by
  induction cs generalizing k d w with
  | nil =>
      refine ⟨d, ?_⟩
      rw [Desk.text, List.append_nil]
      exact h
  | cons c cs ih =>
      obtain ⟨hplain, hlisted, hrest⟩ := hcs
      rw [Desk.text, ← List.append_assoc] at hroom ⊢
      rw [keyHandlers_cons]
      refine ih (h.step hplain hlisted ?_) hrest hroom
      rw [List.length_append] at hroom
      omega

/-- Enter hands the line to the call that waits for it. -/
theorem Typed.delivers (h : Typed k t d w) (hlen : w.length ≤ 127) {n : Int} (hn : w.length < n) :
    DeliversLine L t n (keyHandler L enterKey k) w := by
  have hline := termEnter_line k
  have hwait := termEnter_wait k
  rw [h.shown, h.line.curSize] at hline
  have hshown : (termEnter k).page.currentTerminal = t := h.shown
  rw [h.shown] at hwait
  rw [keyHandler_enter]
  generalize termEnter k = k' at hline hwait hshown
  refine deliversLine_of ⟨hshown, ?_, ?_⟩ hlen ?_ ?_ hn
  · intro b hb hend
    have hord := h.ordinary b hb
    simp only [Ordinary, List.mem_cons, List.not_mem_nil, or_false, not_or] at hord
    rcases hend with rfl | rfl
    · exact hord.2.1 rfl
    · exact hord.1 rfl
  · intro j hj
    rw [hline, if_neg (by omega)]
    exact h.line.bytes j hj
  · rw [hline, if_pos rfl]
    exact .inl rfl
  · rw [hwait, Function.update_self]

end Keys

/--
**From scancodes to the line.** Whatever keys are pressed and released on a terminal, on an
empty line, and whatever was held before: if every code is one the tables or
`notPrintableArray` know, and the line has room, then the call that waits for it gets the
characters that were typed.
-/
theorem scancodes_deliver {L : Layout} {k : Kernel} {t : Term} (hcur : k.page.currentTerminal = t)
    (hpos : k.term.curPos t = 0) (hsize : k.term.curSize t = 0) {cs : List Byte}
    (hcs : (deskOf k).Typing cs) (hlen : ((deskOf k).text notPrintableArray cs).length ≤ 127)
    {n : Int} (hn : ((deskOf k).text notPrintableArray cs).length < n) :
    DeliversLine L t n (keyHandlers L k (cs ++ [enterKey]))
      ((deskOf k).text notPrintableArray cs) := by
  have hempty : Typed k t (deskOf k) [] :=
    ⟨hcur, rfl, ⟨hpos, hsize, fun j hj => absurd hj (Nat.not_lt_zero j)⟩,
      fun ch hch => absurd hch List.not_mem_nil⟩
  obtain ⟨d, htyped⟩ := hempty.run (L := L) cs hcs hlen
  have henter : keyHandlers L k (cs ++ [enterKey]) = keyHandler L enterKey (keyHandlers L k cs) :=
    List.foldl_append ..
  rw [henter]
  exact htyped.delivers hlen hn

/-- Shift and "a", "a" without, and Tab. -/
theorem scancodes_deliver_letters :
    DeliversLine someLayout 0 128 (keyHandlers someLayout .zero
      ([0x2A, 0x1E, 0xAA, 0x1E, 0x9E, 0x0F] ++ [enterKey])) [0x41, 0x61] := by
  have htyping : (deskOf .zero).Typing [0x2A, 0x1E, 0xAA, 0x1E, 0x9E, 0x0F] := by decide
  exact scancodes_deliver rfl rfl rfl htyping (by decide) (by decide)

/-- Tab has a character in both tables, and nothing is delivered. -/
theorem scancodes_tab :
    HasChar 0x0F ∧ (deskOf .zero).Plain 0x0F ∧ (deskOf .zero).text [] [0x0F] = [0x09] ∧
      DeliversLine someLayout 0 128 (keyHandlers someLayout .zero ([0x0F] ++ [enterKey])) [] ∧
      ¬ DeliversLine someLayout 0 128 (keyHandlers someLayout .zero ([0x0F] ++ [enterKey]))
        ((deskOf .zero).text [] [0x0F]) := by
  have htext : (deskOf .zero).text [] [0x0F] = [0x09] := by decide
  have hzero : Typed .zero 0 (deskOf .zero) [] :=
    ⟨rfl, rfl, ⟨rfl, rfl, fun j hj => absurd hj (Nat.not_lt_zero j)⟩,
      fun ch hch => absurd hch List.not_mem_nil⟩
  have hnone : DeliversLine someLayout 0 128
      (keyHandlers someLayout .zero ([0x0F] ++ [enterKey])) [] :=
    hzero.delivers (by decide) (by decide)
  refine ⟨by decide, by decide, htext, hnone, ?_⟩
  intro h
  have hlen := h.length_eq hnone
  rw [htext] at hlen
  exact absurd hlen (by decide)

end Zbiggie.Proof
