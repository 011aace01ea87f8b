import Zbiggie.Machine.TextWords
import Zbiggie.Proof.CommandLine
import Zbiggie.Proof.Directory
import Zbiggie.User.Emulate

/-!
# What a program sees under Linux

A program is tried out under Linux and then put on the disk. The two must not show it
different arguments, or the trial says nothing. They do show it different arguments: the
kernel passes on the rest of the line as it was typed, and the library takes it apart into
words and puts one blank between them. This file says exactly when that makes no
difference.
-/

namespace Zbiggie.Proof

open Zbiggie Machine Emulate

/-! ## What is a word to the library -/

/-- A blank or a newline. -/
def isBreak (c : Byte) : Bool := decide (c = 0x20 ∨ c = 0x0A)

/-- The text up to a newline with a break before it. Other newlines are breaks like blanks. -/
def commandEnd : Bool → List Byte → List Byte
  | _, [] => []
  | before, c :: t => if c = 0x0A ∧ before = true then [] else c :: commandEnd (isBreak c) t

/-- The arguments in what follows the first word and the break behind it. -/
def argsOf (t : List Byte) : List (List Byte) := wordsOf isBreak (commandEnd true t)

section Words

variable {w t : List Byte} {c : Byte}

theorem commandEnd_word (hw : ∀ x ∈ w, isBreak x = false) (hne : w ≠ []) :
    ∀ (before : Bool) (t : List Byte), commandEnd before (w ++ t) = w ++ commandEnd false t := by
  induction w with
  | nil => exact absurd rfl hne
  | cons a w ih =>
      intro before t
      have ha : isBreak a = false := hw a List.mem_cons_self
      have hnl : ¬ (a = 0x0A ∧ before = true) := by
        rintro ⟨rfl, -⟩
        exact absurd ha (by decide)
      rw [List.cons_append, commandEnd, if_neg hnl, ha]
      rcases w with _ | ⟨b, w⟩
      · rfl
      · rw [ih (fun x hx => hw x (List.mem_cons_of_mem a hx)) (by simp)]
        rfl

theorem argsOf_blank (t : List Byte) : argsOf (0x20 :: t) = argsOf t := by
  unfold argsOf
  rw [commandEnd, if_neg (by decide), wordsOf_cons_brk (by decide)]
  rfl

theorem argsOf_newline (t : List Byte) : argsOf (0x0A :: t) = [] := by
  unfold argsOf
  rw [commandEnd, if_pos ⟨rfl, rfl⟩, wordsOf_nil]

theorem argsOf_word (hne : w ≠ []) (hw : ∀ x ∈ w, isBreak x = false) : argsOf w = [w] := by
  have h := commandEnd_word hw hne true []
  rw [List.append_nil, commandEnd, List.append_nil] at h
  unfold argsOf
  rw [h, wordsOf_word hne hw]

theorem argsOf_word_break (hne : w ≠ []) (hw : ∀ x ∈ w, isBreak x = false)
    (hc : isBreak c = true) (t : List Byte) : argsOf (w ++ c :: t) = w :: argsOf t := by
  unfold argsOf
  rw [commandEnd_word hw hne, commandEnd, if_neg (by simp), hc, wordsOf_word_brk hne hw hc]

theorem argsOf_blanks (k : Nat) (t : List Byte) :
    argsOf (List.replicate k 0x20 ++ t) = argsOf t := by
  induction k with
  | zero => rfl
  | succ k ih => rw [List.replicate_succ, List.cons_append, argsOf_blank, ih]

/-- A text is some blanks, and something else behind them. -/
theorem blanks_then (t : List Byte) :
    ∃ k u, t = List.replicate k 0x20 ++ u ∧ u.head? ≠ some 0x20 := by
  induction t with
  | nil => exact ⟨0, [], rfl, by simp⟩
  | cons a t ih =>
      by_cases ha : a = 0x20
      · obtain ⟨k, u, rfl, hu⟩ := ih
        exact ⟨k + 1, u, by rw [ha, List.replicate_succ, List.cons_append], hu⟩
      · exact ⟨0, a :: t, rfl, by simpa using ha⟩

end Words

/-! ## The scan -/

section Scan

variable {buf : Mem} {fuel scan k : Nat}

theorem skipBlanks_spec (hblank : ∀ j, j < k → buf (scan + j) = 0x20) (hend : buf (scan + k) ≠ 0x20)
    (hfuel : k < fuel) : skipBlanks buf fuel scan = some (scan + k) := by
  induction k generalizing scan fuel with
  | zero =>
      obtain ⟨fuel, rfl⟩ : ∃ f, fuel = f + 1 := ⟨fuel - 1, by omega⟩
      exact if_neg hend
  | succ k ih =>
      obtain ⟨fuel, rfl⟩ : ∃ f, fuel = f + 1 := ⟨fuel - 1, by omega⟩
      have h0 := hblank 0 (by omega)
      rw [Nat.add_zero] at h0
      rw [skipBlanks, if_pos h0,
        ih (fun j hj => by rw [Nat.add_assoc, Nat.add_comm 1]; exact hblank (j + 1) (by omega))
          (by rwa [Nat.add_assoc, Nat.add_comm 1]) (by omega),
        Nat.add_assoc, Nat.add_comm 1]

theorem skipWord_spec (hword : ∀ j, j < k → buf (scan + j) ≠ 0 ∧ isBreak (buf (scan + j)) = false)
    (hend : buf (scan + k) = 0 ∨ isBreak (buf (scan + k)) = true) (hfuel : k < fuel) :
    skipWord buf fuel scan = some (scan + k) := by
  have hiff : ∀ c : Byte, (c ≠ 0 ∧ c ≠ 0x20 ∧ c ≠ 0x0A) ↔ (c ≠ 0 ∧ isBreak c = false) := by
    intro c
    unfold isBreak
    rw [decide_eq_false_iff_not, not_or]
  induction k generalizing scan fuel with
  | zero =>
      obtain ⟨fuel, rfl⟩ : ∃ f, fuel = f + 1 := ⟨fuel - 1, by omega⟩
      refine if_neg fun h => ?_
      obtain ⟨h0, hb⟩ := (hiff _).mp h
      rcases hend with h | h
      · exact h0 h
      · exact absurd (hb.symm.trans h) (by decide)
  | succ k ih =>
      obtain ⟨fuel, rfl⟩ : ∃ f, fuel = f + 1 := ⟨fuel - 1, by omega⟩
      have h0 := hword 0 (by omega)
      rw [Nat.add_zero] at h0
      rw [skipWord, if_pos ((hiff _).mpr h0),
        ih (fun j hj => by rw [Nat.add_assoc, Nat.add_comm 1]; exact hword (j + 1) (by omega))
          (by rwa [Nat.add_assoc, Nat.add_comm 1]) (by omega),
        Nat.add_assoc, Nat.add_comm 1]

end Scan

/-- There is a string at an address, terminator included. -/
def HoldsAt (m : Mem) (a : Nat) (s : List Byte) : Prop := Holds (fun j => m (a + j)) s

section HoldsAt

variable {m m' : Mem} {a : Nat} {u v : List Byte}

theorem HoldsAt.get (h : HoldsAt m a (u ++ v)) {j : Nat} (hj : j < u.length) :
    m (a + j) = u[j] := by
  have hbyte := h j (by rw [List.length_append]; omega)
  rw [show m (a + j) = cstr (u ++ v) j from hbyte]
  unfold cstr
  rw [List.getD_append _ _ _ _ hj, List.getD_eq_getElem _ _ hj]

theorem HoldsAt.right (h : HoldsAt m a (u ++ v)) : HoldsAt m (a + u.length) v := by
  intro j hj
  have hbyte := h (u.length + j) (by rw [List.length_append]; omega)
  dsimp only at hbyte ⊢
  rw [Nat.add_assoc, hbyte]
  unfold cstr
  rw [List.getD_append_right _ _ _ _ (by omega), Nat.add_sub_cancel_left]

theorem HoldsAt.append (hbytes : ∀ j (hj : j < u.length), m (a + j) = u[j])
    (h : HoldsAt m (a + u.length) v) : HoldsAt m a (u ++ v) := by
  intro j hj
  rw [List.length_append] at hj
  dsimp only
  by_cases hlt : j < u.length
  · unfold cstr
    rw [List.getD_append _ _ _ _ hlt, List.getD_eq_getElem _ _ hlt]
    exact hbytes j hlt
  · obtain ⟨i, rfl⟩ : ∃ i, j = u.length + i := ⟨j - u.length, by omega⟩
    have hbyte := h i (by omega)
    dsimp only at hbyte
    rw [← Nat.add_assoc, hbyte]
    unfold cstr
    rw [List.getD_append_right _ _ _ _ (by omega), Nat.add_sub_cancel_left]

theorem HoldsAt.of_bytes (hbytes : ∀ j (hj : j < u.length), m (a + j) = u[j])
    (hend : m (a + u.length) = 0) : HoldsAt m a u := by
  intro j hj
  unfold cstr
  rcases Nat.lt_or_eq_of_le hj with hlt | rfl
  · rw [List.getD_eq_getElem _ _ hlt]
    exact hbytes j hlt
  · rw [List.getD_eq_default _ _ (Nat.le_refl _)]
    exact hend

theorem HoldsAt.upToNul (h : HoldsAt m a u) (h0 : 0 ∉ u) {n : Nat} (hn : u.length ≤ n) :
    upToNul (fun i => m (a + i)) n 0 = u := by
  rw [upToNul_of_reads h0 fun j _ hj => h j hj]
  exact List.take_of_length_le hn

end HoldsAt

/-- A word is scanned up to what ends it. -/
theorem skipWord_holds {m : Mem} {a fuel : Nat} {w r : List Byte} (h : HoldsAt m a (w ++ r))
    (hw : ∀ x ∈ w, isBreak x = false) (hw0 : 0 ∉ w)
    (hr : r = [] ∨ ∃ c t, r = c :: t ∧ isBreak c = true) (hfuel : w.length < fuel) :
    skipWord m fuel a = some (a + w.length) := by
  refine skipWord_spec ?_ ?_ hfuel
  · intro j hj
    rw [h.get hj]
    exact ⟨fun h => hw0 (h ▸ List.getElem_mem hj), hw _ (List.getElem_mem hj)⟩
  · rw [show m (a + w.length) = cstr r 0 from h.right 0 (Nat.zero_le _)]
    rcases hr with rfl | ⟨c, t, rfl, hc⟩
    · exact .inl rfl
    · exact .inr hc

/-- At the end of the text there is no further argument. -/
theorem parseArgs_end {fuel scan : Nat} {args : List Nat} {buf : Mem} (h : buf scan = 0) :
    parseArgs (fuel + 1) scan args buf = some (args, store buf scan 0) := by
  have hskip : skipBlanks buf cmdBufSize scan = some (scan + 0) :=
    skipBlanks_spec (fun j hj => absurd hj (Nat.not_lt_zero j))
      (by rw [Nat.add_zero, h]; decide) (by decide)
  rw [parseArgs, hskip]
  exact if_pos (.inl h)

/--
The loop over the arguments, on the text it has before it: it finds the words, and each
is a string when it is done. It looks at nothing before the text.
-/
theorem parseArgs_spec {t : List Byte} (h0 : 0 ∉ t) : ∀ {fuel scan : Nat} {args : List Nat}
    {buf : Mem}, HoldsAt buf scan t → t.length < fuel → t.length < cmdBufSize →
    ∃ offs buf', parseArgs fuel scan args buf = some (args ++ offs, buf') ∧
      (∀ a, a < scan → buf' a = buf a) ∧ List.Forall₂ (HoldsAt buf') offs (argsOf t) := by
  induction hn : t.length using Nat.strongRecOn generalizing t with
  | ind n ih =>
      intro fuel scan args buf hbuf hfuel hsize
      obtain ⟨fuel, rfl⟩ : ∃ f, fuel = f + 1 := ⟨fuel - 1, by omega⟩
      obtain ⟨k, u, rfl, hu⟩ := blanks_then t
      rw [List.length_append, List.length_replicate] at hn
      have hrest : HoldsAt buf (scan + k) u := by
        have h := hbuf.right
        rwa [List.length_replicate] at h
      have hfirst : buf (scan + k) = cstr u 0 := hrest 0 (Nat.zero_le _)
      have hskip : skipBlanks buf cmdBufSize scan = some (scan + k) := by
        refine skipBlanks_spec ?_ ?_ (by omega)
        · intro j hj
          rw [hbuf.get (by rwa [List.length_replicate]), List.getElem_replicate]
        · rw [hfirst]
          rcases u with _ | ⟨c, u⟩
          · decide
          · exact fun h => hu (congrArg some h)
      rw [argsOf_blanks, parseArgs, hskip]
      dsimp only
      obtain ⟨w, r, rfl, hw, hr⟩ := word_then_break isBreak u
      have hw0 : 0 ∉ w := fun h => h0 (List.mem_append_right _ (List.mem_append_left _ h))
      by_cases hne : w = []
      · -- nothing more on this line
        subst hne
        rw [List.nil_append] at hfirst hu ⊢
        have hend : (buf (scan + k) = 0 ∨ buf (scan + k) = 0x0A) ∧ argsOf r = [] := by
          rcases hr with rfl | ⟨c, t, rfl, hc⟩
          · exact ⟨.inl hfirst, by unfold argsOf; rw [commandEnd, wordsOf_nil]⟩
          · have hnl : c = 0x0A := by
              rcases of_decide_eq_true hc with rfl | rfl
              · exact absurd rfl hu
              · rfl
            subst hnl
            exact ⟨.inr hfirst, argsOf_newline t⟩
        rw [if_pos hend.1, hend.2]
        refine ⟨[], _, by rw [List.append_nil], ?_, .nil⟩
        exact fun a ha => store_of_ne (by omega)
      · have hpos : 0 < w.length := List.length_pos_of_ne_nil hne
        have hget : ∀ j (hj : j < w.length), buf (scan + k + j) = w[j] := fun j hj => hrest.get hj
        have hgo : ¬ (buf (scan + k) = 0 ∨ buf (scan + k) = 0x0A) := by
          have h := hget 0 hpos
          rw [Nat.add_zero] at h
          rw [h]
          rintro (h | h)
          · exact hw0 (h ▸ List.getElem_mem hpos)
          · have hb := hw _ (List.getElem_mem hpos)
            rw [h] at hb
            exact absurd hb (by decide)
        have hbehind : HoldsAt buf (scan + k + w.length) r := hrest.right
        have hlast : buf (scan + k + w.length) = cstr r 0 := hbehind 0 (Nat.zero_le _)
        rw [List.length_append] at hn
        have hword : skipWord buf cmdBufSize (scan + k) = some (scan + k + w.length) :=
          skipWord_holds hrest hw hw0 hr (by omega)
        rw [if_neg hgo, hword]
        dsimp only
        rcases hr with rfl | ⟨c, t, rfl, hc⟩
        · -- the word ends the text, and the text ends the arguments
          have hzero : buf (scan + k + w.length) = 0 := hlast
          obtain ⟨fuel, rfl⟩ : ∃ f, fuel = f + 1 := ⟨fuel - 1, by omega⟩
          rw [if_neg (not_not.mpr hzero), parseArgs_end hzero, List.append_nil,
            argsOf_word hne hw]
          refine ⟨[scan + k], _, rfl, fun a ha => store_of_ne (by omega), .cons ?_ .nil⟩
          refine HoldsAt.of_bytes ?_ (store_self _ _ _)
          intro j hj
          rw [store_of_ne (by omega), hget j hj]
        · -- the break behind the word becomes its terminator
          have hcne : buf (scan + k + w.length) ≠ 0 := by
            rw [hlast]
            exact fun h =>
              h0 (List.mem_append_right _ (List.mem_append_right _ (h ▸ by simp [cstr])))
          have ht0 : 0 ∉ t := fun h =>
            h0 (List.mem_append_right _ (List.mem_append_right _ (List.mem_cons_of_mem c h)))
          have hnext : HoldsAt (store buf (scan + k + w.length) 0) (scan + k + w.length + 1) t := by
            intro j hj
            have h := (HoldsAt.right (u := [c]) hbehind) j hj
            dsimp only at h ⊢
            rw [store_of_ne (by omega), ← h]
            rfl
          rw [List.length_cons] at hn
          obtain ⟨offs, buf', hrun, hkept, hall⟩ :=
            @ih t.length (by omega) t ht0 rfl fuel _ (args ++ [scan + k]) _ hnext
              (by omega) (by omega)
          rw [if_pos hcne, hrun, argsOf_word_break hne hw hc, List.append_assoc]
          refine ⟨(scan + k) :: offs, buf', rfl, ?_, .cons ?_ hall⟩
          · intro a ha
            rw [hkept a (by omega), store_of_ne (by omega)]
          · refine HoldsAt.of_bytes ?_ ?_
            · intro j hj
              rw [hkept _ (by omega), store_of_ne (by omega), hget j hj]
            · rw [hkept _ (by omega), store_self]

/-! ## From the command to the strings -/

/-- What the library runs, less the "./" in front of it. -/
def programWord (cmd : List Byte) : List Byte := cmd.takeWhile (!isBreak ·)

/-- What is behind the program's name and the break that ends it. -/
def argText (cmd : List Byte) : List Byte := (cmd.dropWhile (!isBreak ·)).tail

theorem commandEnd_front (t : List Byte) : ∀ before, commandEnd before t <+: t := by
  induction t with
  | nil => exact fun _ => List.prefix_rfl
  | cons c t ih =>
      intro before
      rw [commandEnd]
      split
      · exact List.nil_prefix
      · exact (List.prefix_cons_inj c).mpr (ih _)

theorem mem_argsOf {t w : List Byte} (h : w ∈ argsOf t) :
    w <:+: t ∧ w ≠ [] ∧ ∀ x ∈ w, isBreak x = false := by
  obtain ⟨hpiece, hw⟩ := mem_wordsOf h
  exact ⟨hpiece.trans (commandEnd_front t true).isInfix, hw⟩

theorem argText_suffix (cmd : List Byte) : argText cmd <:+ cmd :=
  (List.tail_suffix _).trans (List.dropWhile_suffix _)

theorem strings_eq {m : Mem} {offs : List Nat} {ws : List (List Byte)}
    (h : List.Forall₂ (HoldsAt m) offs ws)
    (hws : ∀ w ∈ ws, 0 ∉ w ∧ w.length ≤ cmdBufSize) :
    (offs.map fun a => upToNul (fun i => m (a + i)) cmdBufSize 0) = ws := by
  induction h with
  | nil => rfl
  | @cons a w offs ws hstring _ ih =>
      obtain ⟨h0, hlen⟩ := hws w List.mem_cons_self
      rw [List.map_cons, hstring.upToNul h0 hlen, ih fun v hv => hws v (List.mem_cons_of_mem w hv)]

/-- The command stands behind the "./", which stands at the start. -/
theorem commandBuf_spec (cmd : List Byte) (buf : Mem) :
    commandBuf cmd buf 0 = 0x2E ∧ commandBuf cmd buf 1 = 0x2F ∧
      HoldsAt (commandBuf cmd buf) 2 cmd := by
  unfold commandBuf
  refine ⟨?_, ?_, ?_⟩
  · rw [memcpy_apply, if_neg (by omega), store_of_ne (by decide), store_self]
  · rw [memcpy_apply, if_neg (by omega), store_self]
  · intro j hj
    dsimp only
    rw [memcpy_apply, if_pos (by omega), Nat.add_sub_cancel_left]

theorem holdsAt_program {m : Mem} {w : List Byte} (hdot : m 0 = 0x2E) (hslash : m 1 = 0x2F)
    (hbytes : ∀ j (hj : j < w.length), m (2 + j) = w[j]) (hend : m (2 + w.length) = 0) :
    HoldsAt m 0 ([0x2E, 0x2F] ++ w) := by
  refine HoldsAt.append ?_ (HoldsAt.of_bytes hbytes hend)
  intro j hj
  rcases j with _ | _ | j
  · exact hdot
  · exact hslash
  · exact absurd hj (by simp)

theorem program_fits {cmd : List Byte} (h0 : 0 ∉ cmd) (hlen : cmd.length ≤ 1023) :
    0 ∉ [0x2E, 0x2F] ++ programWord cmd ∧
      ([0x2E, 0x2F] ++ programWord cmd).length ≤ cmdBufSize := by
  constructor
  · intro h
    rcases List.mem_append.mp h with h | h
    · exact absurd h (by decide)
    · exact h0 ((List.takeWhile_sublist _).mem h)
  · have hwlen : (programWord cmd).length ≤ cmd.length := (List.takeWhile_sublist _).length_le
    rw [List.length_append]
    show 2 + (programWord cmd).length ≤ 1026
    omega

/-- **The strings a program is started with**: its name behind "./", then the words. -/
theorem argv_eq {cmd : List Byte} (h0 : 0 ∉ cmd) (hlen : cmd.length ≤ 1023) (buf : Mem) :
    argv cmd buf = some (([0x2E, 0x2F] ++ programWord cmd) :: argsOf (argText cmd)) := by
  obtain ⟨hdot, hslash, hcmd⟩ := commandBuf_spec cmd buf
  have hw : ∀ x ∈ programWord cmd, isBreak x = false := fun x hx => by
    simpa using List.mem_takeWhile_imp hx
  have hw0 : 0 ∉ programWord cmd := fun h => h0 ((List.takeWhile_sublist _).mem h)
  have hwlen : (programWord cmd).length ≤ cmd.length := (List.takeWhile_sublist _).length_le
  have ht0 : 0 ∉ argText cmd := fun h => h0 ((argText_suffix cmd).sublist.mem h)
  have htlen : (argText cmd).length ≤ cmd.length := (argText_suffix cmd).sublist.length_le
  have hrest : cmd.dropWhile (!isBreak ·) = [] ∨
      ∃ c t, cmd.dropWhile (!isBreak ·) = c :: t ∧ isBreak c = true := dropWhile_break isBreak cmd
  have hargs : ∀ w ∈ argsOf (argText cmd), 0 ∉ w ∧ w.length ≤ cmdBufSize := by
    intro v hv
    have hsub := (mem_argsOf hv).1.sublist
    exact ⟨fun h => ht0 (hsub.mem h), by have := hsub.length_le; unfold cmdBufSize; omega⟩
  have hcut : cmd = programWord cmd ++ cmd.dropWhile (!isBreak ·) :=
    List.takeWhile_append_dropWhile.symm
  have hholds : HoldsAt (commandBuf cmd buf) 2
      (programWord cmd ++ cmd.dropWhile (!isBreak ·)) := hcut ▸ hcmd
  have hfind := skipWord_holds hholds hw hw0 hrest
    (show (programWord cmd).length < cmdBufSize by unfold cmdBufSize; omega)
  have hend : commandBuf cmd buf (2 + (programWord cmd).length) =
      cstr (cmd.dropWhile (!isBreak ·)) 0 := hholds.right 0 (Nat.zero_le _)
  -- a buffer that still begins like this one and has a NUL behind the name
  have hname : ∀ m : Mem, (∀ a, a < 2 + (programWord cmd).length → m a = commandBuf cmd buf a) →
      m (2 + (programWord cmd).length) = 0 → HoldsAt m 0 ([0x2E, 0x2F] ++ programWord cmd) := by
    intro m hsame hnul
    refine holdsAt_program (by rw [hsame 0 (by omega), hdot]) (by rw [hsame 1 (by omega), hslash])
      ?_ hnul
    intro j hj
    rw [hsame _ (by omega), hholds.get hj]
  have hdone : ∀ offs m, splitCommand cmd buf = some (0 :: offs, m) →
      HoldsAt m 0 ([0x2E, 0x2F] ++ programWord cmd) →
      List.Forall₂ (HoldsAt m) offs (argsOf (argText cmd)) →
      argv cmd buf = some (([0x2E, 0x2F] ++ programWord cmd) :: argsOf (argText cmd)) := by
    intro offs m hsplit hfirst hall
    unfold argv
    rw [hsplit, Option.map_some]
    refine congrArg some (strings_eq (.cons hfirst hall) ?_)
    intro v hv
    rcases List.mem_cons.mp hv with rfl | hv
    · exact program_fits h0 hlen
    · exact hargs v hv
  rcases hrest with hnil | ⟨c, t, hcons, hc⟩
  · have hnul : commandBuf cmd buf (2 + (programWord cmd).length) = 0 := by
      rw [hend, hnil]
      rfl
    refine hdone [] (commandBuf cmd buf) ?_ (hname _ (fun _ _ => rfl) hnul) ?_
    · unfold splitCommand
      simp only [hfind]
      exact if_neg (not_not.mpr hnul)
    · unfold argText
      rw [hnil, List.tail_nil, argsOf, commandEnd, wordsOf_nil]
      exact .nil
  · have htext : argText cmd = t := by
      unfold argText
      rw [hcons, List.tail_cons]
    have hgo : commandBuf cmd buf (2 + (programWord cmd).length) ≠ 0 := by
      rw [hend, hcons]
      intro (hzero : c = 0)
      have hmem : c ∈ cmd.dropWhile (!isBreak ·) := hcons ▸ List.mem_cons_self
      exact h0 (hzero ▸ (List.dropWhile_suffix _).sublist.mem hmem)
    have hnext : HoldsAt (store (commandBuf cmd buf) (2 + (programWord cmd).length) 0)
        (2 + (programWord cmd).length + 1) t := by
      intro j hj
      have hbyte := (HoldsAt.right (u := [c]) (hcons ▸ hholds.right)) j hj
      dsimp only at hbyte ⊢
      rw [store_of_ne (by omega), ← hbyte]
      rfl
    obtain ⟨offs, m, hrun, hkept, hall⟩ := @parseArgs_spec t (htext ▸ ht0) _ _ [0] _ hnext
      (show t.length < cmdBufSize by rw [htext] at htlen; unfold cmdBufSize; omega)
      (show t.length < cmdBufSize by rw [htext] at htlen; unfold cmdBufSize; omega)
    refine hdone offs m ?_ (hname m ?_ ?_) (htext ▸ hall)
    · unfold splitCommand
      simp only [hfind]
      rw [if_pos hgo, hrun]
      rfl
    · intro a ha
      rw [hkept a (by omega), store_of_ne (by omega)]
    · rw [hkept _ (by omega), store_self]

/-! ## Putting the arguments together -/

/-- The words with one blank between them. -/
def joined (args : List (List Byte)) : List Byte := [0x20].intercalate args

theorem joined_cons {arg : List Byte} {args : List (List Byte)} (h : args ≠ []) :
    joined (arg :: args) = arg ++ 0x20 :: joined args := by
  unfold joined
  rw [List.intercalate_cons_of_ne_nil h, List.append_assoc, List.singleton_append]

theorem joinArgs_cons (arg : List Byte) (args : List (List Byte)) (buf : Nat) (n : Int) (m : Mem) :
    joinArgs (arg :: args) buf n m =
      if (arg.length : Int) > n then (-1, m)
      else if args = [] then
        endArgs (buf + arg.length) (n - arg.length) (memcpy m buf (cstr arg) (arg.length + 1))
      else if n - arg.length < 1 then (-1, memcpy m buf (cstr arg) (arg.length + 1))
      else
        joinArgs args (buf + arg.length + 1) (n - arg.length - 1)
          (store (memcpy m buf (cstr arg) (arg.length + 1)) (buf + arg.length) 0x20) := rfl

/-- Nothing is written before the buffer, or more than one byte behind it. -/
theorem joinArgs_frame (args : List (List Byte)) : ∀ {buf : Nat} {n : Int} (m : Mem) {a : Nat},
    a < buf ∨ (buf : Int) + n < a → (joinArgs args buf n m).2 a = m a := by
  have hend : ∀ {buf : Nat} {n : Int} (m : Mem) {a : Nat}, a < buf ∨ (buf : Int) + n < a →
      (endArgs buf n m).2 a = m a := by
    intro buf n m a ha
    unfold endArgs
    split
    · rfl
    · exact store_of_ne (by omega)
  induction args with
  | nil => exact fun m a ha => hend m ha
  | cons arg args ih =>
      intro buf n m a ha
      rw [joinArgs_cons]
      split
      · rfl
      · have hcopy : memcpy m buf (cstr arg) (arg.length + 1) a = m a := by
          rw [memcpy_apply, if_neg (by omega)]
        split
        · rw [hend _ (by omega), hcopy]
        · split
          · exact hcopy
          · rw [ih _ (by omega), store_of_ne (by omega), hcopy]

/-- **`getargs` succeeds when the joined words and a NUL fit**, and then they are there. -/
theorem joinArgs_spec (args : List (List Byte)) : ∀ (buf : Nat) (n : Int) (m : Mem),
    ((joined args).length + 1 ≤ n → (joinArgs args buf n m).1 = 0 ∧
        HoldsAt (joinArgs args buf n m).2 buf (joined args)) ∧
      (¬ (joined args).length + 1 ≤ n → (joinArgs args buf n m).1 = -1) := by
  induction args with
  | nil =>
      intro buf n m
      unfold joinArgs endArgs
      constructor
      · intro h
        rw [if_neg (by simp [joined] at h; omega)]
        refine ⟨rfl, HoldsAt.of_bytes (fun j hj => absurd hj (Nat.not_lt_zero j)) ?_⟩
        exact store_self _ _ _
      · intro h
        rw [if_pos (by simp [joined] at h; omega)]
  | cons arg args ih =>
      intro buf n m
      have hcopied : ∀ j (hj : j < arg.length),
          memcpy m buf (cstr arg) (arg.length + 1) (buf + j) = arg[j] := by
        intro j hj
        rw [memcpy_apply, if_pos (by omega), Nat.add_sub_cancel_left]
        unfold cstr
        rw [List.getD_eq_getElem _ _ hj]
      -- behind the last argument comes the NUL, behind the others a blank
      by_cases hnil : args = []
      · subst hnil
        have hjoined : joined [arg] = arg := List.intercalate_singleton
        rw [joinArgs_cons, hjoined, if_pos rfl]
        unfold endArgs
        constructor
        · intro h
          rw [if_neg (by omega), if_neg (by omega)]
          refine ⟨rfl, HoldsAt.of_bytes ?_ (store_self _ _ _)⟩
          intro j hj
          dsimp only
          rw [store_of_ne (by omega), hcopied j hj]
        · intro h
          by_cases hlen : (arg.length : Int) > n
          · rw [if_pos hlen]
          · rw [if_neg hlen, if_pos (by omega)]
      · rw [joinArgs_cons, joined_cons hnil, List.length_append, List.length_cons, if_neg hnil]
        have hih := ih (buf + arg.length + 1) (n - arg.length - 1)
          (store (memcpy m buf (cstr arg) (arg.length + 1)) (buf + arg.length) 0x20)
        constructor
        · intro h
          rw [if_neg (by omega), if_neg (by omega)]
          obtain ⟨hret, hholds⟩ := hih.1 (by omega)
          -- the calls for the rest write behind the blank and leave the front alone
          refine ⟨hret, HoldsAt.append ?_ (HoldsAt.append (u := [0x20]) ?_ hholds)⟩
          · intro j hj
            rw [joinArgs_frame _ _ (.inl (by omega)), store_of_ne (by omega), hcopied j hj]
          · intro j hj
            obtain rfl : j = 0 := by simpa using hj
            rw [Nat.add_zero, joinArgs_frame _ _ (.inl (by omega))]
            exact store_self _ _ _
        · intro h
          by_cases hlen : (arg.length : Int) > n
          · rw [if_pos hlen]
          · rw [if_neg hlen]
            split
            · rfl
            · exact hih.2 (by omega)

/--
The byte behind the buffer is overwritten, by a NUL, exactly when some of the words end
where the buffer does: the check before a word is copied leaves no room for its terminator.
-/
theorem joinArgs_overflow (args : List (List Byte)) : ∀ (buf n : Nat) (m : Mem),
    (joinArgs args buf n m).2 (buf + n) =
      if ∃ k < args.length, (joined (args.take (k + 1))).length = n then 0 else m (buf + n) := by
  induction args with
  | nil =>
      intro buf n m
      rw [if_neg (by rintro ⟨k, hk, -⟩; exact absurd hk (Nat.not_lt_zero k))]
      unfold joinArgs endArgs
      split
      · rfl
      · exact store_of_ne (by omega)
  | cons arg args ih =>
      intro buf n m
      have hone : joined [arg] = arg := List.intercalate_singleton
      -- the first word alone, or the first word, a blank and some of the others
      have hfront : (∃ k < (arg :: args).length, (joined ((arg :: args).take (k + 1))).length = n) ↔
          arg.length = n ∨
            ∃ k < args.length, arg.length + 1 + (joined (args.take (k + 1))).length = n := by
        have hstep : ∀ k, k < args.length → (joined ((arg :: args).take (k + 1 + 1))).length =
            arg.length + 1 + (joined (args.take (k + 1))).length := by
          intro k hk
          have hne : args.take (k + 1) ≠ [] := by
            rw [ne_eq, List.take_eq_nil_iff, not_or]
            exact ⟨by omega, fun h => by rw [h] at hk; exact absurd hk (Nat.not_lt_zero k)⟩
          rw [List.take_succ_cons, joined_cons hne, List.length_append, List.length_cons]
          omega
        constructor
        · rintro ⟨k, hk, h⟩
          rcases k with _ | k
          · exact .inl (by simpa [hone] using h)
          · have hk' : k < args.length := by simpa using hk
            exact .inr ⟨k, hk', by rw [← hstep k hk', h]⟩
        · rintro (h | ⟨k, hk, h⟩)
          · exact ⟨0, by simp, by simpa [hone] using h⟩
          · exact ⟨k + 1, by simpa using hk, by rw [hstep k hk, h]⟩
      rw [joinArgs_cons]
      rcases Nat.lt_trichotomy arg.length n with hlt | heq | hgt
      · have hcopy : memcpy m buf (cstr arg) (arg.length + 1) (buf + n) = m (buf + n) := by
          rw [memcpy_apply, if_neg (by omega)]
        rw [if_neg (by omega)]
        by_cases hnil : args = []
        · subst hnil
          rw [if_pos rfl, if_neg (by
            rw [hfront]
            rintro (h | ⟨k, hk, -⟩)
            · omega
            · exact absurd hk (Nat.not_lt_zero k))]
          unfold endArgs
          split
          · exact hcopy
          · dsimp only
            rw [store_of_ne (by omega), hcopy]
        · obtain ⟨r, rfl⟩ : ∃ r, n = arg.length + 1 + r := ⟨n - arg.length - 1, by omega⟩
          have hih := ih (buf + arg.length + 1) r
            (store (memcpy m buf (cstr arg) (arg.length + 1)) (buf + arg.length) 0x20)
          have hend : (((arg.length + 1 + r : Nat) : Int) - arg.length - 1) = (r : Int) := by omega
          have hroom : ¬ (((arg.length + 1 + r : Nat) : Int) - arg.length < 1) := by omega
          rw [if_neg hnil, if_neg hroom, hend,
            show buf + (arg.length + 1 + r) = buf + arg.length + 1 + r by omega, hih,
            store_of_ne (by omega)]
          have hiff : (∃ k < args.length, (joined (args.take (k + 1))).length = r) ↔
              ∃ k < (arg :: args).length,
                (joined ((arg :: args).take (k + 1))).length = arg.length + 1 + r := by
            rw [hfront]
            constructor
            · rintro ⟨k, hk, h⟩
              exact .inr ⟨k, hk, by omega⟩
            · rintro (h | ⟨k, hk, h⟩)
              · omega
              · exact ⟨k, hk, by omega⟩
          rw [show buf + arg.length + 1 + r = buf + (arg.length + 1 + r) by omega, hcopy]
          exact if_congr hiff rfl rfl
      · subst heq
        rw [if_pos (hfront.mpr (.inl rfl)), if_neg (by omega)]
        have hcopy : memcpy m buf (cstr arg) (arg.length + 1) (buf + arg.length) = 0 := by
          rw [memcpy_apply, if_pos (by omega), Nat.add_sub_cancel_left]
          exact List.getD_eq_default _ _ (Nat.le_refl _)
        have hfull : ((arg.length : Int) - arg.length) < 1 := by omega
        unfold endArgs
        rw [if_pos hfull]
        split <;> exact hcopy
      · rw [if_pos (by omega), if_neg (by rw [hfront]; rintro (h | ⟨k, -, h⟩) <;> omega)]

/-! ## The two systems compared -/

theorem zero_not_mem_joined {cmd : List Byte} (h0 : 0 ∉ cmd) :
    0 ∉ joined (argsOf (argText cmd)) := by
  have hargs : ∀ args : List (List Byte), (∀ w ∈ args, 0 ∉ w) → 0 ∉ joined args := by
    intro args
    induction args with
    | nil => exact fun _ h => absurd h List.not_mem_nil
    | cons w args ih =>
        intro h hmem
        rcases args with _ | ⟨v, args⟩
        · exact h w List.mem_cons_self (by simpa [joined] using hmem)
        · rw [joined_cons (by simp), List.mem_append, List.mem_cons] at hmem
          rcases hmem with hw | hsep | hrest
          · exact h w List.mem_cons_self hw
          · exact absurd hsep (by decide)
          · exact ih (fun u hu => h u (List.mem_cons_of_mem w hu)) hrest
  refine hargs _ ?_
  intro w hw hmem
  exact h0 ((argText_suffix cmd).sublist.mem ((mem_argsOf hw).1.sublist.mem hmem))

theorem commandEnd_eq {t : List Byte} (hnl : 0x0A ∉ t) : ∀ before, commandEnd before t = t := by
  induction t with
  | nil => exact fun _ => rfl
  | cons c t ih =>
      intro before
      have hc : c ≠ 0x0A := fun h => hnl (h ▸ List.mem_cons_self)
      rw [commandEnd, if_neg (fun h => hc h.1), ih fun h => hnl (List.mem_cons_of_mem c h)]

theorem wordsOf_dropBlanks (t : List Byte) :
    wordsOf isBreak (t.dropWhile isBlank) = wordsOf isBreak t := by
  induction t with
  | nil => rfl
  | cons c t ih =>
      by_cases hc : isBlank c = true
      · have hb : isBreak c = true := by
          unfold isBreak
          exact decide_eq_true (.inl (of_decide_eq_true hc))
        rw [List.dropWhile_cons_of_pos hc, ih, wordsOf_cons_brk hb]
      · rw [List.dropWhile_cons_of_neg hc]

/-- Where a command has no NUL, the two systems agree on what belongs to a word. -/
theorem inWord_cut {cmd : List Byte} (h0 : 0 ∉ cmd) :
    cmd.takeWhile inWord = programWord cmd ∧ cmd.dropWhile inWord = cmd.dropWhile (!isBreak ·) := by
  induction cmd with
  | nil => exact ⟨rfl, rfl⟩
  | cons c cmd ih =>
      obtain ⟨htake, hdrop⟩ := ih fun h => h0 (List.mem_cons_of_mem c h)
      have hc : c ≠ 0 := fun h => h0 (h ▸ List.mem_cons_self)
      have hiff : inWord c = !isBreak c := by
        unfold inWord isBreak
        by_cases hb : c = 0x20 ∨ c = 0x0A
        · rcases hb with rfl | rfl <;> rfl
        · obtain ⟨hblank, hnl⟩ := not_or.mp hb
          rw [decide_eq_true ⟨hc, hnl, hblank⟩, decide_eq_false hb]
          rfl
      unfold programWord at htake ⊢
      rw [List.takeWhile_cons, List.takeWhile_cons, List.dropWhile_cons, List.dropWhile_cons, hiff,
        htake, hdrop]
      exact ⟨rfl, rfl⟩

/-- The kernel passes on what is behind the first word, less the blanks before it. -/
theorem argPart_eq {cmd : List Byte} (h0 : 0 ∉ cmd) (hnl : 0x0A ∉ cmd)
    (hblank : cmd.head? ≠ some 0x20) :
    programWord cmd = firstWord cmd ∧ argPart cmd = (argText cmd).dropWhile isBlank := by
  have hstart : cmd.dropWhile isBlank = cmd := by
    rcases cmd with _ | ⟨c, cmd⟩
    · rfl
    · refine List.dropWhile_cons_of_neg fun h => hblank ?_
      exact congrArg some (of_decide_eq_true h)
  have hrest : ∀ l : List Byte, (∀ x ∈ l, x ∈ cmd) → l.takeWhile inLine = l := by
    intro l hl
    rw [List.takeWhile_eq_self_iff]
    intro x hx
    exact decide_eq_true ⟨fun h => h0 (h ▸ hl x hx), fun h => hnl (h ▸ hl x hx)⟩
  unfold firstWord argPart
  rw [hstart, (inWord_cut h0).1, (inWord_cut h0).2]
  refine ⟨rfl, ?_⟩
  rw [hrest _ fun x hx => (List.dropWhile_suffix _).sublist.mem
    ((List.dropWhile_suffix _).sublist.mem hx)]
  unfold argText
  rcases dropWhile_break isBreak cmd with hnil | ⟨c, t, hcons, hc⟩
  · rw [hnil, List.tail_nil]
  · have hcmem : c ∈ cmd :=
      (List.dropWhile_suffix (!isBreak ·)).sublist.mem (hcons ▸ List.mem_cons_self)
    have hcb : isBlank c = true := by
      rcases of_decide_eq_true hc with rfl | rfl
      · rfl
      · exact absurd hcmem hnl
    rw [hcons, List.tail_cons, List.dropWhile_cons_of_pos hcb]

/-- The kernel's argument text and the words of the library, where a command is one line. -/
theorem joined_eq_argPart_iff {cmd : List Byte} (h0 : 0 ∉ cmd) (hnl : 0x0A ∉ cmd)
    (hblank : cmd.head? ≠ some 0x20) :
    joined (argsOf (argText cmd)) = argPart cmd ↔ Neat 0x20 (argPart cmd) := by
  obtain ⟨-, hargs⟩ := argPart_eq h0 hnl hblank
  have htext : 0x0A ∉ argText cmd := fun h => hnl ((argText_suffix cmd).sublist.mem h)
  have hwords : argsOf (argText cmd) = wordsOf isBreak (argPart cmd) := by
    unfold argsOf
    rw [commandEnd_eq htext, hargs, wordsOf_dropBlanks]
  have hpart : 0x0A ∉ argPart cmd := by
    rw [hargs]
    exact fun h => htext ((List.dropWhile_suffix _).sublist.mem h)
  have hsep : ∀ x ∈ argPart cmd, isBreak x = true ↔ x = 0x20 := by
    intro x hx
    unfold isBreak
    rw [decide_eq_true_iff]
    exact or_iff_left fun h => hpart (h ▸ hx)
  rw [hwords]
  constructor
  · intro h
    rw [← h]
    refine neat_intercalate ?_
    intro w hw
    obtain ⟨-, hne, hbrk⟩ := mem_wordsOf hw
    exact ⟨hne, fun hmem => absurd (hbrk _ hmem) (by decide)⟩
  · exact intercalate_wordsOf hsep

/--
A command run under Linux. The program is started with the words of its arguments, and
`getargs` gives them to it with one blank between two, if they and a NUL fit. A command the
kernel's buffers hold is parsed to the same name there, and to the same arguments exactly
when these were neatly typed: one blank between two of them and none behind the last.
-/
theorem emulated_arguments {cmd : List Byte} (h0 : 0 ∉ cmd) (scratch : Mem) :
    (∀ linux : List (List Byte) → WaitStatus, ece391Execute linux cmd scratch =
      some (if 1023 < cmd.length then -1
        else exitValue (linux (([0x2E, 0x2F] ++ programWord cmd) :: argsOf (argText cmd))))) ∧
      (∀ (name : List Byte) (buf : Nat) (n : Int) (m : Mem),
        ((Emulate.ece391Getargs (name :: argsOf (argText cmd)) buf n m).1 = 0 ↔
            (joined (argsOf (argText cmd))).length + 1 ≤ n) ∧
          ((Emulate.ece391Getargs (name :: argsOf (argText cmd)) buf n m).1 = 0 →
            HoldsAt (Emulate.ece391Getargs (name :: argsOf (argText cmd)) buf n m).2 buf
              (joined (argsOf (argText cmd))))) ∧
      (cmd.length < bufSize → 0x0A ∉ cmd → cmd.head? ≠ some 0x20 → ∀ exec args : Mem,
        Holds (parseInput cmd exec args bufSize).1 (programWord cmd) ∧
          (Holds (parseInput cmd exec args bufSize).2 (joined (argsOf (argText cmd))) ↔
            Neat 0x20 (argPart cmd))) := by
  refine ⟨?_, ?_, ?_⟩
  · intro linux
    unfold ece391Execute
    by_cases hlong : 1023 < cmd.length
    · rw [if_pos hlong, if_pos hlong]
    · rw [if_neg hlong, if_neg hlong, argv_eq h0 (Nat.le_of_not_lt hlong)]
      rfl
  · intro name buf n m
    obtain ⟨hfits, hnot⟩ := joinArgs_spec (argsOf (argText cmd)) buf n m
    unfold Emulate.ece391Getargs
    rw [List.tail_cons]
    by_cases h : ((joined (argsOf (argText cmd))).length : Int) + 1 ≤ n
    · obtain ⟨hret, hholds⟩ := hfits h
      exact ⟨⟨fun _ => h, fun _ => hret⟩, fun _ => hholds⟩
    · have hret := hnot h
      rw [hret]
      exact ⟨⟨fun h => absurd h (by decide), fun h' => absurd h' h⟩,
        fun h => absurd h (by decide)⟩
  · intro hlen hnl hblank exec args
    obtain ⟨hword, hargs⟩ := copied_of_length_le (Nat.le_of_lt hlen)
    have hexec := parseInput_exec cmd exec args bufSize
    have hrest := parseInput_args cmd exec args bufSize
    rw [hword, ← (argPart_eq h0 hnl hblank).1] at hexec
    rw [hargs] at hrest
    refine ⟨hexec, ?_⟩
    rw [← joined_eq_argPart_iff h0 hnl hblank]
    constructor
    -- a buffer holds one string
    · exact fun h => h.unique hrest (zero_not_mem_joined h0) (zero_not_mem_argPart cmd)
    · intro h
      rw [h]
      exact hrest

/-- Two blanks between two arguments: a program sees one of them under Linux. -/
theorem emulated_arguments_blanks :
    ece391Execute (fun argv => .exited argv.length) [0x61, 0x20, 0x62, 0x20, 0x20, 0x63]
        (fun _ => 0) = some 3 ∧
      ¬ Holds (parseInput [0x61, 0x20, 0x62, 0x20, 0x20, 0x63] (fun _ => 0) (fun _ => 0) bufSize).2
        (joined (argsOf (argText [0x61, 0x20, 0x62, 0x20, 0x20, 0x63]))) := by
  obtain ⟨hexec, -, hagree⟩ := @emulated_arguments
    [0x61, 0x20, 0x62, 0x20, 0x20, 0x63] (by decide) (fun _ => 0)
  refine ⟨(hexec _).trans (by decide), fun h => ?_⟩
  have hneat := ((hagree (by decide) (by decide) (by decide) (fun _ => 0) (fun _ => 0)).2.mp h).1
  exact absurd hneat (by decide)

/--
What `getargs` of the library writes outside the caller's buffer: the byte behind it, in
the cases of `joinArgs_overflow`, and nothing else.
-/
theorem emulated_getargs_overflow (name : List Byte) (args : List (List Byte)) (buf n : Nat) :
    (Writes (fun m => (Emulate.ece391Getargs (name :: args) buf n m).2) (buf + n) ↔
      ∃ k < args.length, (joined (args.take (k + 1))).length = n) ∧
    ∀ a, a < buf ∨ buf + n < a →
      ¬ Writes (fun m => (Emulate.ece391Getargs (name :: args) buf n m).2) a := by
  unfold Emulate.ece391Getargs Writes
  rw [List.tail_cons]
  refine ⟨?_, ?_⟩
  · simp only [joinArgs_overflow]
    constructor
    · rintro ⟨m, hm⟩
      by_contra hno
      rw [if_neg hno] at hm
      exact hm rfl
    · intro h
      refine ⟨fun _ => 1, ?_⟩
      rw [if_pos h]
      show (0 : Byte) ≠ 1
      decide
  · rintro a ha ⟨m, hm⟩
    exact hm (joinArgs_frame args m (by omega))

/-! ## The directory -/

/-- The reads of a directory in order, each with its buffer, size and memory. -/
def dirReads : List (List Byte) → List ListCall → List (Int × Mem)
  | _, [] => []
  | dir, c :: cs =>
      let r := readDir dir c.buf c.n.toInt c.mem
      (r.1, r.2.2) :: dirReads r.2.1 cs

theorem copyName_spec {n : Nat} (hn : n ≤ 32) (buf : Nat) (name : List Byte) :
    ∀ (copied : Nat) (m : Mem), copied < n → copyName n buf name copied m =
      if copied + name.length < n then
        (.inr (copied + name.length), memcpy m (buf + copied) (cstr name) name.length)
      else (.inl n, memcpy m (buf + copied) (cstr name) (n - copied)) := by
  induction name with
  | nil =>
      intro copied m hlt
      exact (if_pos hlt).symm
  | cons c name ih =>
      intro copied m hlt
      have hone : ∀ k, memcpy (store m (buf + copied) c) (buf + (copied + 1)) (cstr name) k =
          memcpy m (buf + copied) (cstr (c :: name)) (1 + k) := by
        intro k
        rw [← memcpy_append m (buf + copied) (cstr (c :: name)) 1 k, ← Nat.add_assoc]
        refine memcpy_congr _ _ ?_
        intro j _
        rw [Nat.add_comm]
        rfl
      rw [copyName]
      by_cases hfull : copied + 1 = n
      · rw [if_pos (by omega), if_neg (by rw [List.length_cons]; omega), ← hfull,
          Nat.add_sub_cancel_left]
        exact congrArg (Prod.mk _) (hone 0)
      · rw [if_neg (by omega), if_neg (by omega), ih (copied + 1) _ (by omega), List.length_cons,
          hone, hone, show copied + 1 + name.length = copied + (name.length + 1) by omega,
          Nat.add_comm 1 name.length, show 1 + (n - (copied + 1)) = n - copied by omega]

theorem padName_spec {n : Nat} (hn : n ≤ 32) (buf : Nat) : ∀ (k copied : Nat) (m : Mem),
    copied ≤ n → n - copied ≤ k →
    padName n buf k copied m = ((n : Int), memcpy m (buf + copied) (fun _ => 0) (n - copied)) := by
  intro k
  induction k with
  | zero =>
      intro copied m hle hk
      obtain rfl : copied = n := by omega
      rw [padName, Nat.sub_self]
      rfl
  | succ k ih =>
      intro copied m hle hk
      rw [padName]
      by_cases hlt : copied < n
      · rw [if_pos ⟨by omega, by omega⟩, ih (copied + 1) _ (by omega) (by omega),
          show n - copied = 1 + (n - (copied + 1)) by omega,
          ← memcpy_append m (buf + copied) (fun _ => 0) 1, ← Nat.add_assoc]
        rfl
      · obtain rfl : copied = n := by omega
        rw [if_neg (by omega), Nat.sub_self]
        rfl

/-- One entry, read into a field of at most 32 bytes: the name, cut or padded. -/
theorem readDir_entry {n : Nat} (hpos : 0 < n) (hn : n ≤ 32) (name : List Byte)
    (dir : List (List Byte)) (buf : Nat) (m : Mem) :
    readDir (name :: dir) buf n m = ((n : Int), dir, memcpy m buf (cstr name) n) := by
  rw [readDir, copyName_spec hn buf name 0 m hpos, Nat.zero_add, Nat.add_zero, Nat.sub_zero]
  by_cases hlt : name.length < n
  · rw [if_pos hlt]
    dsimp only
    rw [padName_spec hn buf _ _ _ (by omega) (by omega)]
    have hsplit := memcpy_append m buf (cstr name) name.length (n - name.length)
    rw [Nat.add_sub_cancel' (Nat.le_of_lt hlt)] at hsplit
    rw [← hsplit]
    refine congrArg (fun x => ((n : Int), dir, x)) (memcpy_congr _ _ ?_)
    intro j _
    exact (List.getD_eq_default _ _ (Nat.le_add_right _ _)).symm
  · rw [if_neg hlt]

/-- The same entry on the disk, where the field of a name has 32 bytes. -/
theorem directoryRead_entry_bytes {img : Image} {k : Nat} (hk : k < img.numDentry.toNat) (f : File)
    {c : ListCall} (hn : c.n.toNat ≤ 32) {name : List Byte}
    (hname : storedName img k = name.take 32) :
    directoryRead img c.d (seek f k) c.buf c.n c.mem =
      (c.n.toInt, seek f (k + 1), memcpy c.mem c.buf (cstr name) c.n.toNat) := by
  obtain ⟨hbytes, -⟩ := readDentryByIndex_bytes hk c.d
  rw [directoryRead_entry hk]
  refine congrArg (fun x => (c.n.toInt, seek f (k + 1), x)) (memcpy_congr _ _ ?_)
  intro j hj
  have hzero : 0 ∉ storedName img k := zero_not_mem_upToNul _ _ _
  have hseen := upToNul_of_reads (n := c.n.toNat) hzero fun j hj _ => hbytes j (by
    unfold fnameMaxLen
    omega)
  have hget : ∀ (l : List Byte) (n : Nat), j < n → (l.take n).getD j 0 = cstr l j := by
    intro l n hlt
    unfold cstr
    rw [List.getD_eq_getElem?_getD, List.getD_eq_getElem?_getD, List.getElem?_take_of_lt hlt]
  rw [strncpy_apply, if_pos hj, hseen, hget _ _ hj, hname]
  exact hget name 32 (by omega)

/--
A program that lists a directory sees the same bytes under Linux and on the disk, call by
call to the end and beyond it, as long as it asks for at most the 32 bytes of a name field.
-/
theorem emulated_listing {img : Image} {names : List (List Byte)}
    (hnames : (List.range img.numDentry.toNat).map (storedName img) = names.map (·.take 32))
    (f : File) {cs : List ListCall} (hcs : ∀ c ∈ cs, 0 < c.n.toNat ∧ c.n.toNat ≤ 32) :
    dirReads names cs = (directoryReads img (seek f 0) cs).map fun r => (r.1, r.2.2) := by
  have hlen : names.length = img.numDentry.toNat := by
    have h := congrArg List.length hnames
    rwa [List.length_map, List.length_map, List.length_range, eq_comm] at h
  have key : ∀ p, p ≤ img.numDentry.toNat →
      dirReads (names.drop p) cs
        = (directoryReads img (seek f p) cs).map fun r => (r.1, r.2.2) := by
    induction cs with
    | nil => exact fun p _ => by cases names.drop p <;> rfl
    | cons c cs ih =>
        intro p hp
        have hih := ih fun c hc => hcs c (List.mem_cons_of_mem _ hc)
        obtain ⟨hpos, hle⟩ := hcs c List.mem_cons_self
        have hint : c.n.toInt = (c.n.toNat : Int) := BitVec.toInt_eq_toNat_of_lt (by omega)
        rcases Nat.lt_or_eq_of_le hp with hlt | rfl
        · have hpl : p < names.length := by omega
          have hname : storedName img p = (names[p]).take 32 := by
            have h := congrArg (·[p]?) hnames
            simpa [hlt, hpl] using h
          rw [List.drop_eq_getElem_cons hpl, dirReads, directoryReads,
            directoryRead_entry_bytes hlt f hle hname, hint, readDir_entry hpos hle, List.map_cons,
            hih (p + 1) hlt]
        · rw [List.drop_of_length_le (by omega), dirReads, directoryReads,
            directoryRead_end (Nat.le_refl _) (by omega), List.map_cons]
          have h := hih img.numDentry.toNat (Nat.le_refl _)
          rw [List.drop_of_length_le (by omega)] at h
          rw [readDir, h]
  exact key 0 (Nat.zero_le _)

/-- One file, read and then the end. -/
theorem emulated_listing_one :
    dirReads [[0x61]] [⟨0, 32, fun _ => 1, someLocals.d⟩, ⟨0, 32, fun _ => 1, someLocals.d⟩] =
      (directoryReads (oneFile [0x61] [1]) (seek .zero 0)
        [⟨0, 32, fun _ => 1, someLocals.d⟩, ⟨0, 32, fun _ => 1, someLocals.d⟩]).map
          fun r => (r.1, r.2.2) :=
  emulated_listing (by decide) .zero (by
    intro c hc
    simp only [List.mem_cons, List.not_mem_nil, or_false, or_self] at hc
    subst hc
    exact ⟨by decide, by decide⟩)

end Zbiggie.Proof
