import Zbiggie.Proof.Printf
import Zbiggie.Proof.ReadLine
import Zbiggie.User.Console

/-!
# From the keyboard to the shell

A line goes through the editor of the terminal, Enter, and a call of `term_read` before
the shell sees it. Put together: the shell runs the line the terminal has ready for it, and
it does so line after line until "exit" comes. `KeyboardConsole` is a console whose reads
are the kernel's, each of a line that is ready, however it got there. What was typed with
characters and the left and right arrow is ready as the editor holds it.

The counter is given the same lines, newline included, and takes none of them.
-/

namespace Zbiggie.Proof

open Zbiggie Machine

/-! ## Strings of the programs -/

/-- **`ece391_strcmp` is equality**, for strings that end within reach. -/
theorem ece391Strcmp_eq_zero_iff (s s' : Mem) : ∀ n i, ece391Strcmp s s' n i = some 0 ↔
    upToNul s n i = upToNul s' n i ∧ (upToNul s n i).length < n := by
  intro n
  induction n with
  | zero =>
      intro i
      exact ⟨fun h => absurd h (by simp [ece391Strcmp]), fun h => absurd h.2 (Nat.lt_irrefl 0)⟩
  | succ n ih =>
      intro i
      unfold ece391Strcmp upToNul
      by_cases heq : s i = s' i
      · rw [if_pos heq, ← heq]
        by_cases h0 : s i = 0
        · simp [h0]
        · simp only [h0, if_false]
          rw [ih (i + 1), List.cons.injEq, List.length_cons]
          exact ⟨fun h => ⟨⟨rfl, h.1⟩, by omega⟩, fun h => ⟨h.1.2, by omega⟩⟩
      · rw [if_neg heq]
        have hne : (s i).toNat ≠ (s' i).toNat := fun h => heq (BitVec.eq_of_toNat_eq h)
        refine ⟨?_, ?_⟩
        · intro h
          have := Option.some.inj h
          omega
        -- the strings differ here, whether or not one of them ends
        · rintro ⟨h, -⟩
          by_cases h0 : s i = 0
          · have h0' : s' i ≠ 0 := fun h' => heq (h0.trans h'.symm)
            rw [if_pos h0, if_neg h0'] at h
            cases h
          · rw [if_neg h0] at h
            by_cases h0' : s' i = 0
            · rw [if_pos h0'] at h
              cases h
            · rw [if_neg h0'] at h
              exact absurd (List.cons.inj h).1 heq

section Held

variable {m : Mem} {s : List Byte}

theorem upToNul_of_holds (h : Holds m s) (h0 : 0 ∉ s) {n : Nat} (hn : s.length ≤ n) :
    upToNul m n 0 = s := by
  rw [upToNul_of_reads h0 fun j _ hj => h j hj, List.take_of_length_le hn]

theorem ece391Strcmp_of_holds (h : Holds m s) (h0 : 0 ∉ s) {n : Nat} (hn : s.length < n)
    {s' : List Byte} (h0' : 0 ∉ s') (hn' : s'.length < n) :
    ece391Strcmp m (cstr s') n 0 = some 0 ↔ s = s' := by
  rw [ece391Strcmp_eq_zero_iff, upToNul_of_holds h h0 (Nat.le_of_lt hn), upToNul_cstr h0',
    List.drop_zero, List.take_of_length_le (Nat.le_of_lt hn')]
  exact and_iff_left hn

/-- A string is empty if its memory starts with the terminator. -/
theorem head_zero_iff (h : Holds m s) (h0 : 0 ∉ s) : m 0 = 0 ↔ s = [] := by
  rw [h 0 (Nat.zero_le _)]
  cases s with
  | nil => exact ⟨fun _ => rfl, fun _ => rfl⟩
  | cons b s =>
      have hb : b ≠ 0 := fun hb => h0 (hb ▸ List.mem_cons_self)
      exact ⟨fun hb' => absurd hb' hb, fun h => absurd h (List.cons_ne_nil _ _)⟩

/-- What was read, with a NUL behind its first `n` bytes. -/
theorem holds_store {n : Nat} (hn : s.length = n) (h : ∀ j, j < n → m j = cstr s j) :
    Holds (store m n 0) s := by
  intro j hj
  by_cases hlast : j = n
  · rw [hlast, store_self, ← hn, cstr_length]
  · rw [store_of_ne hlast, h j (by omega)]

end Held

/-! ## A line that is ready -/

/-- The row of the terminal on display has the line `w`, and its reader is woken. -/
structure Ready (t : Term) (k : Kernel) (w : List Byte) : Prop where
  woken : k.term.waitForNl t = false
  starts : StartsWith k t w
  fits : w.length ≤ 127
  ends : IsEnd (k.line t w.length)

namespace Ready

variable {L : Layout} {t : Term} {k : Kernel} {w w' : List Byte}

theorem zero_not_mem (h : Ready t k w) : 0 ∉ w := fun h0 => h.starts.plain 0 h0 (.inr rfl)

/-- **A read with room for a line gets it.** -/
theorem delivers (h : Ready t k w) {n : Int} (hn : 128 ≤ n) : DeliversLine L t n k w := by
  have hfits := h.fits
  exact deliversLine_of h.starts hfits h.ends h.woken (by omega)

theorem not_shorter (h : Ready t k w) (h' : Ready t k w') : ¬ w.length < w'.length := by
  intro hlt
  have hin : k.line t w.length ∈ w' := by
    rw [h'.starts.bytes _ hlt]
    unfold cstr
    rw [List.getD_eq_getElem _ _ hlt]
    exact List.getElem_mem hlt
  exact h'.starts.plain _ hin h.ends

/-- A row has one line. -/
theorem unique (h : Ready t k w) (h' : Ready t k w') : w = w' := by
  have hlen : w.length = w'.length :=
    Nat.le_antisymm (Nat.not_lt.mp (h'.not_shorter h)) (Nat.not_lt.mp (h.not_shorter h'))
  refine List.ext_getElem hlen ?_
  intro j hj hj'
  have hbyte := (h.starts.bytes j hj).symm.trans (h'.starts.bytes j hj')
  unfold cstr at hbyte
  rwa [List.getD_eq_getElem _ _ hj, List.getD_eq_getElem _ _ hj'] at hbyte

end Ready

/-! ## A line that is typed -/

/-- From an empty line on the terminal on display, characters and the left and right arrow. -/
structure TypedLine (t : Term) (k : Kernel) (es : List Edit) : Prop where
  shown : k.page.currentTerminal = t
  pos : k.term.curPos t = 0
  size : k.term.curSize t = 0
  plain : ∀ e ∈ es, e.Plain

/-- The line the reference has then. -/
def typedText (L : Layout) (k : Kernel) (es : List Edit) : List Byte :=
  (editBoth L (k, .empty) es).2.text

/-- What a reader sees of it: a NUL ends a line too. -/
def typedLine (L : Layout) (k : Kernel) (es : List Edit) : List Byte :=
  (typedText L k es).takeWhile (· ≠ 0)

/-- The machine, with Enter pressed. -/
def typedEnter (L : Layout) (k : Kernel) (es : List Edit) : Kernel :=
  termPutc L 0x0A (editBoth L (k, .empty) es).1

section TypedLine

variable {L : Layout} {t : Term} {k : Kernel} {es : List Edit}

/-- What is in the line was typed. -/
theorem mem_editBoth {b : Byte} : ∀ {es : List Edit} {k : Kernel} {z : Line},
    b ∈ (editBoth L (k, z) es).2.text → .char b ∈ es ∨ b ∈ z.text := by
  intro es
  induction es with
  | nil => intro k z h; exact .inr h
  | cons e es ih =>
      intro k z h
      rw [editBoth_cons] at h
      rcases ih h with h | h
      · exact .inl (List.mem_cons_of_mem e h)
      cases e with
      | char c =>
          rcases Zipper.mem_insert h with rfl | h
          · exact .inl List.mem_cons_self
          · exact .inr h
      | left =>
          unfold lineEdit at h
          dsimp only at h
          split at h
          · rw [Zipper.left_text] at h
            exact .inr h
          · exact .inr h
      | right =>
          rw [show lineEdit _ z .right = z.right from rfl, Zipper.right_text] at h
          exact .inr h

/-- **What was typed is ready**, up to a NUL that was typed. -/
theorem TypedLine.ready (h : TypedLine t k es) :
    Ready t (typedEnter L k es) (typedLine L k es) := by
  obtain ⟨hedits, hcur⟩ := edits_run (L := L) es (z := .empty)
    ⟨h.pos, h.size, fun i hi => absurd hi (Nat.not_lt_zero i)⟩ h.shown h.plain
  obtain ⟨hbytes, hnl⟩ := edits_enter hedits hcur
  have hfits : (typedText L k es).length ≤ 127 := (editBoth L (k, .empty) es).2.text_length_le
  have hfront : typedLine L k es <+: typedText L k es := List.takeWhile_prefix _
  have hle : (typedLine L k es).length ≤ (typedText L k es).length := hfront.length_le
  have henter : typedEnter L k es = termEnter (editBoth L (k, .empty) es).1 := rfl
  have hbyte : ∀ j, j < (typedText L k es).length →
      (typedEnter L k es).line t j = (typedText L k es).getD j 0 := fun j hj => hbytes j hj
  refine ⟨?_, ⟨hcur, ?_, ?_⟩, by omega, ?_⟩
  · rw [henter, termEnter_wait, hcur, Function.update_self]
  · intro b hb hend
    have hne0 : b ≠ 0 := by simpa using List.mem_takeWhile_imp hb
    rcases mem_editBoth (hfront.sublist.mem hb) with hin | hin
    · rcases hend with rfl | rfl
      · exact (h.plain _ hin).1 rfl
      · exact hne0 rfl
    · exact absurd hin List.not_mem_nil
  · intro j hj
    rw [hbyte j (by omega)]
    unfold cstr
    rw [List.getD_eq_getElem _ _ hj, List.getD_eq_getElem _ _ (by omega)]
    exact (hfront.getElem hj).symm
  · have hsplit : typedLine L k es ++ (typedText L k es).dropWhile (· ≠ 0) = typedText L k es :=
      List.takeWhile_append_dropWhile
    have hlen := congrArg List.length hsplit
    rw [List.length_append] at hlen
    by_cases hrest : (typedText L k es).dropWhile (· ≠ 0) = []
    · rw [hrest, List.append_nil] at hsplit
      rw [hsplit, henter]
      exact .inl hnl
    -- the byte that ended it is the NUL
    · have hpos := List.length_pos_of_ne_nil hrest
      have hstop : ((typedText L k es).dropWhile (· ≠ 0)).head hrest = 0 := by
        simpa using List.head_dropWhile_not _ hrest
      rw [hbyte _ (by omega)]
      refine .inr ?_
      rw [← hsplit, List.getD_append_right _ _ _ _ (Nat.le_refl _), Nat.sub_self,
        List.getD_eq_getElem _ _ hpos, ← List.head_eq_getElem hrest, hstop]

end TypedLine

/-! ## A console at the keyboard -/

/-- What the caller sees of a `term_read`. -/
def readAnswer : Reader → Option Nat × Mem
  | .returned r buf => (some r, buf)
  | .spinning _ buf => (none, buf)
  | .loading _ _ buf => (none, buf)
  | .clearing _ _ buf => (none, buf)

/-- The `n`-th read is the kernel's in the state `ks n`, which has the line `line n` ready. -/
structure KeyboardConsole (L : Layout) (t : Term) (ks : Nat → Kernel) (line : Nat → List Byte)
    (c : Console) : Prop where
  ready : ∀ n, Ready t (ks n) (line n)
  read : ∀ n buf, c.read n buf
    = readAnswer (termReadRun L t (consoleBufsize - 1 : Nat) buf (ks n)).1

section Keyboard

variable {L : Layout} {t : Term} {ks : Nat → Kernel} {line : Nat → List Byte} {c : Console}

/-- A read returns the line and its newline. -/
theorem KeyboardConsole.answer (h : KeyboardConsole L t ks line c) (n : Nat) (buf : Mem) :
    ∃ buf', c.read n buf = (some ((line n).length + 1), buf') ∧
      ∀ j, j < (line n).length + 1 → buf' j = cstr (line n ++ [0x0A]) j := by
  obtain ⟨buf', k', hrun, hbytes⟩ := (h.ready n).delivers (L := L) (n := (consoleBufsize - 1 : Nat))
    (by decide) buf
  refine ⟨buf', ?_, hbytes⟩
  rw [h.read, hrun]
  rfl

/-! ## The shell -/

/-- One round of the shell that does not end it. -/
def shellRound (c : Console) (line : Nat → List Byte) (n : Nat) : List ShellAct :=
  .wrote shellPrompt ::
    if line n = [] then [] else .ran (line n) :: shellReport (c.execute n (line n))

/-- **One round**: the line is "exit", or it is run if there is one. -/
theorem shellLoop_succ (h : KeyboardConsole L t ks line c) (rounds n : Nat) (buf : Mem) : ∃ buf',
    shellLoop c (rounds + 1) n buf = if line n = exitCommand then
        ([.wrote shellPrompt], some 0)
      else (shellRound c line n ++ (shellLoop c rounds (n + 1) buf').1,
        (shellLoop c rounds (n + 1) buf').2) := by
  obtain ⟨buf1, hread, hbytes⟩ := h.answer n buf
  obtain ⟨w, hw⟩ : ∃ w, w = line n := ⟨_, rfl⟩
  have h0 : 0 ∉ w := hw ▸ (h.ready n).zero_not_mem
  have hlen : w.length ≤ 127 := hw ▸ (h.ready n).fits
  unfold shellRound
  rw [← hw] at hread hbytes ⊢
  have hnl : buf1 w.length = 0x0A := by
    rw [hbytes _ (Nat.lt_succ_self _)]
    unfold cstr
    rw [List.getD_append_right _ _ _ _ (Nat.le_refl _), Nat.sub_self]
    rfl
  -- the newline is taken off, and a NUL put in its place
  have hheld : Holds (store buf1 w.length 0) w := by
    refine holds_store rfl fun j hj => ?_
    rw [hbytes j (by omega)]
    unfold cstr
    rw [List.getD_append _ _ _ _ hj]
  have hcmp : ece391Strcmp (store buf1 w.length 0) (cstr exitCommand) consoleBufsize 0 = some 0 ↔
      w = exitCommand := ece391Strcmp_of_holds hheld h0 (by simp only [consoleBufsize]; omega)
    (by decide) (by decide)
  have hempty := head_zero_iff hheld h0
  have hcommand := upToNul_of_holds hheld h0 (n := consoleBufsize)
    (by simp only [consoleBufsize]; omega)
  refine ⟨store buf1 w.length 0, ?_⟩
  rw [shellLoop, hread]
  dsimp only
  have hcnt : w.length + 1 > 0 ∧ buf1 (w.length + 1 - 1) = 0x0A := ⟨Nat.succ_pos _, hnl⟩
  rw [if_pos hcnt, Nat.add_sub_cancel, hcommand]
  by_cases hexit : w = exitCommand
  · rw [if_pos (hcmp.mpr hexit), if_pos hexit]
  · rw [if_neg (fun hc => hexit (hcmp.mp hc)), if_neg hexit]
    by_cases hnil : w = []
    · rw [if_pos (hempty.mpr hnil), if_pos hnil]
      rfl
    · rw [if_neg (fun hz => hnil (hempty.mp hz)), if_neg hnil]
      rfl

/-- The lines before "exit", of those from the `n`-th on. -/
def beforeExit (line : Nat → List Byte) (n rounds : Nat) : List Nat :=
  (List.range' n rounds).takeWhile fun i => line i ≠ exitCommand

/-- **Any number of rounds.** -/
theorem shellLoop_eq (h : KeyboardConsole L t ks line c) : ∀ (rounds n : Nat) (buf : Mem),
    let before := beforeExit line n rounds
    shellLoop c rounds n buf = (before.flatMap (shellRound c line) ++
        (if before.length < rounds then [.wrote shellPrompt] else []),
      if before.length < rounds then some 0 else none) := by
  intro rounds
  induction rounds with
  | zero => intro n buf; rfl
  | succ rounds ih =>
      intro n buf
      obtain ⟨buf', hstep⟩ := shellLoop_succ h rounds n buf
      rw [hstep]
      unfold beforeExit
      rw [List.range'_succ]
      by_cases hexit : line n = exitCommand
      · rw [if_pos hexit, List.takeWhile_cons_of_neg (by simpa using hexit)]
        rfl
      · have hrest := ih (n + 1) buf'
        unfold beforeExit at hrest
        rw [if_neg hexit, List.takeWhile_cons_of_pos (by simpa using hexit), hrest]
        simp only [List.flatMap_cons, List.length_cons, Nat.add_lt_add_iff_right, List.append_assoc]

/-- The commands among what the shell did. -/
def commandsOf (acts : List ShellAct) : List (List Byte) :=
  acts.filterMap fun a =>
    match a with
    | .wrote _ => none
    | .ran command => some command

theorem commandsOf_append (acts acts' : List ShellAct) :
    commandsOf (acts ++ acts') = commandsOf acts ++ commandsOf acts' := List.filterMap_append

theorem commandsOf_report (rval : Int) : commandsOf (shellReport rval) = [] := by
  unfold shellReport
  split
  · rfl
  · split
    · rfl
    · split <;> rfl

/-- A round runs its line, unless that is empty. -/
theorem commandsOf_round (c : Console) (line : Nat → List Byte) (n : Nat) :
    commandsOf (shellRound c line n) = [line n].filter (· ≠ []) := by
  unfold shellRound
  by_cases hnil : line n = []
  · rw [if_pos hnil, hnil]
    rfl
  · rw [if_neg hnil, List.filter_cons_of_pos (by simpa using hnil)]
    show line n :: commandsOf (shellReport _) = _
    rw [commandsOf_report]
    rfl

theorem commandsOf_rounds (c : Console) (line : Nat → List Byte) (ns : List Nat) :
    commandsOf (ns.flatMap (shellRound c line)) = (ns.map line).filter (· ≠ []) := by
  induction ns with
  | nil => rfl
  | cons n ns ih =>
      rw [List.flatMap_cons, commandsOf_append, commandsOf_round, ih, ← List.filter_append]
      rfl

/--
**The shell runs what is typed.** Over any number of lines, each ready when it is read: up to
the first that is "exit", every line that is not empty is executed, with what the shell has to
say of it behind it and a prompt before it; and "exit" ends the shell with 0. Where a line was
typed with characters and the left and right arrow and ended with Enter, it is what the editor
held, up to the first NUL.
-/
theorem shell_runs_what_is_typed (h : KeyboardConsole L t ks line c) (rounds : Nat) (buf : Mem) :
    let before := beforeExit line 0 rounds
    let r := shellMain c rounds buf
    r.1 = .wrote shellBanner :: (before.flatMap (shellRound c line) ++
        (if before.length < rounds then [.wrote shellPrompt] else [])) ∧
      r.2 = (if before.length < rounds then some 0 else none) ∧
      commandsOf r.1 = (before.map line).filter (· ≠ []) ∧
      ∀ n k es, TypedLine t k es → ks n = typedEnter L k es → line n = typedLine L k es := by
  intro before r
  have hr : r = (.wrote shellBanner :: (before.flatMap (shellRound c line) ++
      (if before.length < rounds then [.wrote shellPrompt] else [])),
      if before.length < rounds then some 0 else none) := by
    show shellMain c rounds buf = _
    unfold shellMain
    rw [shellLoop_eq h rounds 0 buf]
  rw [hr]
  refine ⟨rfl, rfl, ?_, ?_⟩
  · show commandsOf (before.flatMap _ ++ _) = _
    rw [commandsOf_append, commandsOf_rounds]
    split
    · exact List.append_nil _
    · exact List.append_nil _
  · intro n k es htyped hk
    have hready := h.ready n
    rw [hk] at hready
    exact hready.unique htyped.ready

end Keyboard

/-- A fresh machine that waits for a line. -/
def waitingZero : Kernel := Kernel.zero.setWaitForNl 0 true

/-- "ls", typed as "s", left, "l"; then "exit" for ever. -/
def lsThenExit (n : Nat) : List Edit :=
  if n = 0 then [.char 0x73, .left, .char 0x6C]
  else [.char 0x65, .char 0x78, .char 0x69, .char 0x74]

/-- The machine at the `n`-th read. -/
def lsReady (n : Nat) : Kernel := typedEnter someLayout waitingZero (lsThenExit n)

/-- The keyboard of these lines, for commands that all succeed. -/
def lsConsole : Console where
  read n buf := readAnswer (termReadRun someLayout 0 (consoleBufsize - 1 : Nat) buf (lsReady n)).1
  execute _ _ := 0

theorem lsThenExit_typed (n : Nat) : TypedLine 0 waitingZero (lsThenExit n) := by
  refine ⟨rfl, rfl, rfl, ?_⟩
  intro e he
  unfold lsThenExit at he
  split at he
  · simp only [List.mem_cons, List.not_mem_nil, or_false] at he
    rcases he with rfl | rfl | rfl
    · exact ⟨by decide, by decide, by decide⟩
    · trivial
    · exact ⟨by decide, by decide, by decide⟩
  · simp only [List.mem_cons, List.not_mem_nil, or_false] at he
    rcases he with rfl | rfl | rfl | rfl <;> exact ⟨by decide, by decide, by decide⟩

theorem lsConsole_keyboard : KeyboardConsole someLayout 0 lsReady
    (fun n => typedLine someLayout waitingZero (lsThenExit n)) lsConsole :=
  { ready := fun n => (lsThenExit_typed n).ready
    read := by
      intro n buf
      unfold lsConsole
      dsimp only }

/-- Two lines: "ls" is run, and the shell is gone after the second prompt. -/
theorem shell_runs_what_is_typed_ls :
    commandsOf (shellMain lsConsole 2 fun _ => 0).1 = [[0x6C, 0x73]] ∧
      (shellMain lsConsole 2 fun _ => 0).2 = some 0 := by
  obtain ⟨-, hexit, hran, -⟩ := shell_runs_what_is_typed lsConsole_keyboard 2 fun _ => 0
  have hls : typedLine someLayout waitingZero (lsThenExit 0) = [0x6C, 0x73] := by decide
  have hline : typedLine someLayout waitingZero (lsThenExit 1) = exitCommand := by decide
  have hbefore :
      beforeExit (fun n => typedLine someLayout waitingZero (lsThenExit n)) 0 2 = [0] := by
    unfold beforeExit
    rw [show List.range' 0 2 = [0, 1] from rfl]
    simp only [List.takeWhile_cons, hls, hline]
    rfl
  rw [hbefore] at hexit hran
  refine ⟨?_, hexit⟩
  rw [hran, List.map_singleton, hls]
  rfl

/-! ## The counter -/

/-- The numbers up to `max`, one on a line. -/
def numbers (max : Nat) : List Byte :=
  (List.range max).flatMap fun i => numeralOf 10 (i + 1) ++ [0x0A]

/-- What the counter prints for the string it was given. -/
def counterPrints (s : List Byte) : List Byte :=
  if s = [] then []
  else if s = [0x30] then numbers 100
  else if s = [0x31] then numbers 10000
  else if s = [0x32] then numbers 100000
  else counterWrong

theorem countLoop_eq {max : Nat} (hmax : max < 2 ^ 32) : ∀ (n : Nat) (buf : Mem), n ≤ max →
    countLoop max n buf
      = (List.range' (max - n) n).flatMap fun i => numeralOf 10 (i + 1) ++ [0x0A] := by
  intro n
  induction n with
  | zero => intro buf _; rfl
  | succ n ih =>
      intro buf hn
      rw [countLoop]
      rw [puts_itoa (by decide), ih _ (by omega), BitVec.toNat_ofNat, Nat.mod_eq_of_lt (by omega),
        List.range'_succ, List.flatMap_cons, show max - (n + 1) + 1 = max - n by omega]

theorem countLoop_numbers {max : Nat} (hmax : max < 2 ^ 32) (buf : Mem) :
    countLoop max max buf = numbers max := by
  rw [countLoop_eq hmax max buf (Nat.le_refl max), Nat.sub_self, ← List.range_eq_range']
  rfl

/-- A buffer in which a NUL is put holds what is before it, up to the first NUL. -/
theorem holds_upToNul (buf : Mem) (n : Nat) : Holds (store buf n 0) (upToNul buf n 0) := by
  have hle := upToNul_length_le buf n 0
  intro j hj
  by_cases hlt : j < (upToNul buf n 0).length
  · rw [store_of_ne (by omega)]
    unfold cstr
    rw [List.getD_eq_getElem _ _ hlt, upToNul_getElem, Nat.zero_add]
  · obtain rfl : j = (upToNul buf n 0).length := by omega
    rw [cstr_length]
    by_cases hn : (upToNul buf n 0).length = n
    · rw [hn, store_self]
    · have hend := upToNul_end (s := buf) (n := n) (i := 0) (by omega)
      rw [Nat.zero_add] at hend
      rw [store_of_ne hn, hend]

/-- **Any answer.** The string is what was read, up to its first NUL. -/
theorem counterMain_eq {c : Console} {buf buf' : Mem} {cnt : Nat}
    (hread : c.read 0 buf = (some cnt, buf')) (hcnt : cnt < consoleBufsize) :
    counterMain c buf = (0, counterPrompt ++ counterPrints (upToNul buf' cnt 0)) := by
  obtain ⟨s, hs⟩ : ∃ s, s = upToNul buf' cnt 0 := ⟨_, rfl⟩
  have hheld : Holds (store buf' cnt 0) s := hs ▸ holds_upToNul buf' cnt
  have h0 : 0 ∉ s := hs ▸ zero_not_mem_upToNul buf' cnt 0
  have hlen : s.length ≤ cnt := hs ▸ upToNul_length_le buf' cnt 0
  have hfirst := hheld 0 (Nat.zero_le _)
  have hstrlen : strlen (store buf' cnt 0) = s.length := by
    refine strlen_of_holds hheld h0 ?_
    simp only [consoleBufsize] at hcnt
    simp only [addressSpace]
    omega
  unfold counterMain
  rw [hread, ← hs]
  dsimp only
  rw [hstrlen]
  -- nothing, one character, or more: only one character is a choice
  rcases s with _ | ⟨b, _ | ⟨b', s⟩⟩
  · have hzero : store buf' cnt 0 0 = 0 := hfirst
    rw [if_neg (by simp), hzero]
    rfl
  · have hb : store buf' cnt 0 0 = b := hfirst
    rw [hb]
    unfold counterPrints
    rw [if_neg (List.cons_ne_nil b [])]
    by_cases hwrong : b < 0x30 ∨ b > 0x32
    · have hne : ∀ d : Byte, ¬ (d < 0x30 ∨ d > 0x32) → [b] ≠ [d] := by
        intro d hd heq
        rw [(List.cons.inj heq).1] at hwrong
        exact hd hwrong
      rw [if_pos (.inr ⟨rfl, hwrong⟩), if_neg (hne 0x30 (by decide)), if_neg (hne 0x31 (by decide)),
        if_neg (hne 0x32 (by decide))]
    -- the three choices, each with its own bound
    · have hcases : b = 0x30 ∨ b = 0x31 ∨ b = 0x32 := by bv_omega
      rw [if_neg (by simpa using hwrong)]
      rcases hcases with rfl | rfl | rfl
      · rw [if_pos rfl, show counterMax 0x30 = 100 from rfl, countLoop_numbers (by decide)]
      · rw [if_neg (by decide), if_pos rfl, show counterMax 0x31 = 10000 from rfl,
          countLoop_numbers (by decide)]
      · rw [if_neg (by decide), if_neg (by decide), if_pos rfl,
          show counterMax 0x32 = 100000 from rfl, countLoop_numbers (by decide)]
  · rw [if_pos (.inl (by simp))]
    unfold counterPrints
    simp

/--
**The counter.** It prints the numbers from 1 to 100, 10000 or 100000 for the strings "0", "1"
and "2", nothing for the empty one, and refuses all others, whatever the buffer held before. A
line of the keyboard comes with its newline, and is refused whatever it is.
-/
theorem counter_output (c : Console) (buf : Mem) :
    (∀ cnt buf', c.read 0 buf = (some cnt, buf') → cnt < consoleBufsize →
      counterMain c buf = (0, counterPrompt ++ counterPrints (upToNul buf' cnt 0))) ∧
    ∀ L t ks line, KeyboardConsole L t ks line c →
      counterMain c buf = (0, counterPrompt ++ counterWrong) := by
  refine ⟨fun cnt buf' hread hcnt => counterMain_eq hread hcnt, ?_⟩
  intro L t ks line h
  obtain ⟨buf', hread, hbytes⟩ := h.answer 0 buf
  obtain ⟨w, hw⟩ : ∃ w, w = line 0 := ⟨_, rfl⟩
  have h0 : 0 ∉ w ++ [0x0A] := by
    rw [hw, List.mem_append, not_or]
    exact ⟨(h.ready 0).zero_not_mem, by decide⟩
  have hlen : w.length ≤ 127 := hw ▸ (h.ready 0).fits
  rw [← hw] at hread hbytes
  have hstring : upToNul buf' (w.length + 1) 0 = w ++ [0x0A] := by
    rw [upToNul_of_reads h0 fun j hj _ => hbytes j hj, List.take_of_length_le (by simp)]
  have hcounted : counterPrints (w ++ [0x0A]) = counterWrong := by
    unfold counterPrints
    rcases w with _ | ⟨b, w⟩
    · rfl
    · simp
  rw [counterMain_eq hread (by simp only [consoleBufsize]; omega), hstring, hcounted]

/-- A read that gives "0" and no newline, and the keyboard. -/
theorem counter_output_zero :
    counterMain ⟨fun _ _ => (some 1, fun _ => 0x30), fun _ _ => 0⟩ (fun _ => 0)
        = (0, counterPrompt ++ numbers 100) ∧
      counterMain lsConsole (fun _ => 0) = (0, counterPrompt ++ counterWrong) :=
  ⟨(counter_output _ _).1 1 (fun _ => 0x30) rfl (by decide),
    (counter_output _ _).2 _ _ _ _ lsConsole_keyboard⟩

end Zbiggie.Proof
