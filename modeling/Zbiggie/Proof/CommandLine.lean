import Mathlib.Data.List.TakeWhile
import Zbiggie.Kernel.Syscall
import Zbiggie.Machine.CString
import Zbiggie.Machine.Footprint

/-!
# The command line, taken apart

`parse_input` is four loops over one input index: blanks, a word, blanks, the rest of
the line. Each of them runs over a longest piece of bytes of one kind, so what it
leaves is a `takeWhile` and what it hands on a `dropWhile`. The two that copy also stop
when the *input* index reaches the size of the buffers, which cuts their pieces short.

A bound on the input index is a bound on the output index only if the output index is
the smaller one by the time it counts: the terminator goes behind the last byte
copied. That is where a first word without a blank before it has no room left.
-/

namespace Zbiggie.Proof

open Zbiggie Machine

/-! ## The pieces -/

def isBlank (c : Byte) : Bool := decide (c = 0x20)

/-- A byte before the end of the command. -/
def inLine (c : Byte) : Bool := decide (c ≠ 0 ∧ c ≠ 0x0A)

/-- A byte of the file name. -/
def inWord (c : Byte) : Bool := decide (c ≠ 0 ∧ c ≠ 0x0A ∧ c ≠ 0x20)

/-- The first word of a command. -/
def firstWord (cmd : List Byte) : List Byte := (cmd.dropWhile isBlank).takeWhile inWord

/-- What follows it, from the next word to the end of the line. -/
def argPart (cmd : List Byte) : List Byte :=
  (((cmd.dropWhile isBlank).dropWhile inWord).dropWhile isBlank).takeWhile inLine

/-- How much of the first word is copied: the input index stops at `size`. -/
def wordCopied (size : Nat) (cmd : List Byte) : List Byte :=
  (firstWord cmd).take (size - (cmd.takeWhile isBlank).length)

/-- What is left of the command behind that. -/
def afterWord (size : Nat) (cmd : List Byte) : List Byte :=
  (cmd.dropWhile isBlank).drop (wordCopied size cmd).length

/-- The input index at which the copying of the arguments starts. -/
def argIndex (size : Nat) (cmd : List Byte) : Nat :=
  (cmd.takeWhile isBlank).length + (wordCopied size cmd).length
    + ((afterWord size cmd).takeWhile isBlank).length

/-- How much of the arguments is copied. -/
def argsCopied (size : Nat) (cmd : List Byte) : List Byte :=
  (((afterWord size cmd).dropWhile isBlank).takeWhile inLine).take (size - argIndex size cmd)

theorem inWord_iff (c : Byte) :
    inWord c = true ↔ c ≠ 0 ∧ c ≠ 0x0A ∧ ¬ (true = true ∧ c = 0x20) := by
  simp [inWord]

theorem inLine_iff (c : Byte) :
    inLine c = true ↔ c ≠ 0 ∧ c ≠ 0x0A ∧ ¬ (false = true ∧ c = 0x20) := by
  simp [inLine]

theorem zero_not_mem_firstWord (cmd : List Byte) : 0 ∉ firstWord cmd := by
  intro h
  have hin := List.mem_takeWhile_imp h
  exact absurd rfl ((inWord_iff 0).mp hin).1

theorem zero_not_mem_argPart (cmd : List Byte) : 0 ∉ argPart cmd := by
  intro h
  have hin := List.mem_takeWhile_imp h
  exact absurd rfl ((inLine_iff 0).mp hin).1

theorem zero_not_mem_wordCopied (size : Nat) (cmd : List Byte) : 0 ∉ wordCopied size cmd :=
  fun h => zero_not_mem_firstWord cmd (List.mem_of_mem_take h)

theorem argPart_length_le (cmd : List Byte) : (argPart cmd).length ≤ cmd.length := by
  unfold argPart
  exact ((List.takeWhile_sublist _).trans ((List.dropWhile_sublist _).trans
    ((List.dropWhile_sublist _).trans (List.dropWhile_sublist _)))).length_le

/-! ## The loops -/

theorem skipSpaces_eq : ∀ (cs : List Byte) (i : Nat),
    skipSpaces cs i = (cs.dropWhile isBlank, i + (cs.takeWhile isBlank).length) := by
  intro cs
  induction cs with
  | nil => intro i; rfl
  | cons c cs ih =>
      intro i
      rw [skipSpaces]
      by_cases hc : c = 0x20
      · have hb : isBlank c = true := decide_eq_true hc
        rw [if_pos hc, ih, List.dropWhile_cons_of_pos hb, List.takeWhile_cons_of_pos hb,
          List.length_cons, Nat.add_assoc, Nat.add_comm 1]
      · have hb : ¬ isBlank c = true := fun h => hc (of_decide_eq_true h)
        rw [if_neg hc, List.dropWhile_cons_of_neg hb, List.takeWhile_cons_of_neg hb]
        rfl

/-- What a copying loop leaves when it has copied `w` of its input. -/
def pieceCopied (cs : List Byte) (i o : Nat) (out : Mem) (w : List Byte) :
    List Byte × Nat × Nat × Mem :=
  (cs.drop w.length, i + w.length, o + w.length, memcpy out o (cstr w) w.length)

theorem pieceCopied_nil (cs : List Byte) (i o : Nat) (out : Mem) :
    pieceCopied cs i o out [] = (cs, i, o, out) := rfl

/-- One byte copied, and the rest after it. -/
theorem pieceCopied_cons (c : Byte) (cs : List Byte) (i o : Nat) (out : Mem) (w : List Byte) :
    pieceCopied cs (i + 1) (o + 1) (store out o c) w = pieceCopied (c :: cs) i o out (c :: w) := by
  have happ := memcpy_append out o (cstr (c :: w)) 1 w.length
  have hrest : (fun j => cstr (c :: w) (1 + j)) = cstr w := by
    funext j
    rw [Nat.add_comm 1]
    rfl
  rw [hrest, Nat.add_comm 1] at happ
  unfold pieceCopied
  rw [List.length_cons, ← happ, List.drop_succ_cons, Nat.add_assoc, Nat.add_assoc, Nat.add_comm 1]
  rfl

/--
**The copying loops.** They copy the longest piece of bytes they accept, or as much
of it as there are input indices below the limit. The first loop accepts no blank.
-/
theorem copyArg_eq {atSpace : Bool} {p : Byte → Bool}
    (hp : ∀ c, p c = true ↔ c ≠ 0 ∧ c ≠ 0x0A ∧ ¬ (atSpace = true ∧ c = 0x20)) (size : Nat) :
    ∀ (cs : List Byte) (i o : Nat) (out : Mem),
      copyArg size atSpace cs i o out
        = pieceCopied cs i o out ((cs.takeWhile p).take (size - i)) := by
  -- on the command, with the indices general: both counters go up by one each round
  intro cs
  induction cs with
  | nil =>
      intro i o out
      rw [List.takeWhile_nil, List.take_nil, pieceCopied_nil]
      rfl
  | cons c cs ih =>
      intro i o out
      rw [copyArg]
      by_cases hi : i < size
      · by_cases hc : p c = true
        · obtain ⟨h0, hnl, hblank⟩ := (hp c).mp hc
          rw [if_pos ⟨hi, h0, hnl⟩, if_neg hblank, ih, pieceCopied_cons,
            List.takeWhile_cons_of_pos hc, show size - i = size - (i + 1) + 1 by omega,
            List.take_succ_cons]
        · -- a byte that is not accepted ends the loop, by its condition or by the `break`
          rw [List.takeWhile_cons_of_neg hc, List.take_nil, pieceCopied_nil]
          split
          · rename_i hin
            split
            · rfl
            · rename_i hblank
              exact absurd ((hp c).mpr ⟨hin.2.1, hin.2.2, hblank⟩) hc
          · rfl
      · rw [if_neg fun h => hi h.1, show size - i = 0 by omega, List.take_zero, pieceCopied_nil]

/-- **`parse_input`, on every command.** A copy and a terminator into each buffer. -/
theorem parseInput_eq (cmd : List Byte) (exec args : Mem) (size : Nat) :
    parseInput cmd exec args size =
      (store (memcpy exec 0 (cstr (wordCopied size cmd)) (wordCopied size cmd).length)
          (wordCopied size cmd).length 0,
        store (memcpy (store args 0 0) 0 (cstr (argsCopied size cmd)) (argsCopied size cmd).length)
          (argsCopied size cmd).length 0) := by
  -- the four loops, one behind the other
  have h1 := skipSpaces_eq cmd 0
  have h2 := copyArg_eq inWord_iff size (cmd.dropWhile isBlank)
    (cmd.takeWhile isBlank).length 0 exec
  have h3 := skipSpaces_eq (afterWord size cmd)
    ((cmd.takeWhile isBlank).length + (wordCopied size cmd).length)
  have h4 := copyArg_eq inLine_iff size ((afterWord size cmd).dropWhile isBlank) (argIndex size cmd)
    0 (store args 0 0)
  unfold parseInput
  dsimp only
  rw [h1, Nat.zero_add]
  dsimp only
  rw [h2, show ((cmd.dropWhile isBlank).takeWhile inWord).take
    (size - (cmd.takeWhile isBlank).length) = wordCopied size cmd from rfl]
  dsimp only [pieceCopied]
  rw [show (cmd.dropWhile isBlank).drop (wordCopied size cmd).length = afterWord size cmd from rfl,
    h3]
  dsimp only
  rw [show (cmd.takeWhile isBlank).length + (wordCopied size cmd).length
    + ((afterWord size cmd).takeWhile isBlank).length = argIndex size cmd from rfl, h4]
  dsimp only [pieceCopied]
  rw [Nat.zero_add, Nat.zero_add]
  rfl

/-! ## Commands that fit -/

/-- `m` holds the string `s`, terminator included. -/
def Holds (m : Mem) (s : List Byte) : Prop := ∀ j, j ≤ s.length → m j = cstr s j

/-- Memory holds one string. -/
theorem Holds.unique {m : Mem} {s s' : List Byte} (h : Holds m s) (h' : Holds m s') (h0 : 0 ∉ s)
    (h0' : 0 ∉ s') : s = s' := by
  have hs := upToNul_of_reads h0 (n := s.length + s'.length) fun j _ hj => h j hj
  have hs' := upToNul_of_reads h0' (n := s.length + s'.length) fun j _ hj => h' j hj
  rw [List.take_of_length_le (Nat.le_add_right _ _)] at hs
  rw [List.take_of_length_le (Nat.le_add_left _ _)] at hs'
  exact hs.symm.trans hs'

/-- A string that was copied and terminated is there. -/
theorem holds_of_copied (out : Mem) (s : List Byte) :
    Holds (store (memcpy out 0 (cstr s) s.length) s.length 0) s := by
  intro j hj
  by_cases hlast : j = s.length
  · subst hlast
    unfold cstr
    rw [store_self, List.getD_eq_default _ _ (Nat.le_refl _)]
  · rw [store_of_ne hlast, memcpy_apply, if_pos (by omega)]
    rfl

theorem parseInput_exec (cmd : List Byte) (exec args : Mem) (size : Nat) :
    Holds (parseInput cmd exec args size).1 (wordCopied size cmd) := by
  rw [parseInput_eq]
  exact holds_of_copied _ _

theorem parseInput_args (cmd : List Byte) (exec args : Mem) (size : Nat) :
    Holds (parseInput cmd exec args size).2 (argsCopied size cmd) := by
  rw [parseInput_eq]
  exact holds_of_copied _ _

theorem takeWhile_length_add_dropWhile (p : Byte → Bool) (cs : List Byte) :
    (cs.takeWhile p).length + (cs.dropWhile p).length = cs.length := by
  rw [← List.length_append, List.takeWhile_append_dropWhile]

/-- Nothing of the first word is cut off when it ends below the limit. -/
theorem wordCopied_eq {size : Nat} {cmd : List Byte}
    (h : (cmd.takeWhile isBlank).length + (firstWord cmd).length ≤ size) :
    wordCopied size cmd = firstWord cmd :=
  List.take_of_length_le (by omega)

theorem afterWord_eq {size : Nat} {cmd : List Byte}
    (h : (cmd.takeWhile isBlank).length + (firstWord cmd).length ≤ size) :
    afterWord size cmd = (cmd.dropWhile isBlank).dropWhile inWord := by
  have hsplit : firstWord cmd ++ (cmd.dropWhile isBlank).dropWhile inWord = cmd.dropWhile isBlank :=
    List.takeWhile_append_dropWhile
  unfold afterWord
  rw [wordCopied_eq h, ← hsplit, List.drop_left, hsplit]

/-- Nothing of the arguments is cut off when they end below the limit. -/
theorem argsCopied_eq {size : Nat} {cmd : List Byte}
    (h : (cmd.takeWhile isBlank).length + (firstWord cmd).length ≤ size)
    (ha : (cmd.takeWhile isBlank).length + (firstWord cmd).length
      + (((cmd.dropWhile isBlank).dropWhile inWord).takeWhile isBlank).length
      + (argPart cmd).length ≤ size) : argsCopied size cmd = argPart cmd := by
  unfold argsCopied argIndex
  rw [afterWord_eq h, wordCopied_eq h]
  exact List.take_of_length_le (by unfold argPart at ha; omega)

/-- A command shorter than the buffers is taken apart whole. -/
theorem copied_of_length_le {size : Nat} {cmd : List Byte} (hlen : cmd.length ≤ size) :
    wordCopied size cmd = firstWord cmd ∧ argsCopied size cmd = argPart cmd := by
  have hlead := takeWhile_length_add_dropWhile isBlank cmd
  have hword := takeWhile_length_add_dropWhile inWord (cmd.dropWhile isBlank)
  have hgap := takeWhile_length_add_dropWhile isBlank ((cmd.dropWhile isBlank).dropWhile inWord)
  have hargs := takeWhile_length_add_dropWhile inLine
    (((cmd.dropWhile isBlank).dropWhile inWord).dropWhile isBlank)
  have hfit : (cmd.takeWhile isBlank).length + (firstWord cmd).length ≤ size := by
    unfold firstWord; omega
  exact ⟨wordCopied_eq hfit, argsCopied_eq hfit (by unfold firstWord argPart; omega)⟩

/-! ## Commands of a known shape -/

/-- A piece of bytes of one kind, ended by a byte of another kind or by nothing. -/
theorem takeWhile_dropWhile_piece {p : Byte → Bool} {l m : List Byte}
    (hl : ∀ c ∈ l, p c = true) (hm : ∀ c ∈ m.head?, ¬ p c = true) :
    (l ++ m).takeWhile p = l ∧ (l ++ m).dropWhile p = m := by
  rw [List.takeWhile_append_of_pos hl, List.dropWhile_append_of_pos hl]
  cases m with
  | nil => exact ⟨List.append_nil l, rfl⟩
  | cons c cs =>
      have hc : ¬ p c = true := hm c rfl
      rw [List.takeWhile_cons_of_neg hc, List.dropWhile_cons_of_neg hc]
      exact ⟨List.append_nil l, rfl⟩

/-- Blanks, a word, blanks, a text, and then nothing or a newline and anything. -/
structure Shaped (w r tail : List Byte) (j : Nat) : Prop where
  nonempty : w ≠ []
  word : ∀ c ∈ w, c ≠ 0 ∧ c ≠ 0x0A ∧ c ≠ 0x20
  text : ∀ c ∈ r, c ≠ 0 ∧ c ≠ 0x0A
  start : r.head? ≠ some 0x20
  gap : 1 ≤ j
  ends : tail.head? = none ∨ tail.head? = some 0x0A

/-- A command of that shape. -/
def shaped (i : Nat) (w : List Byte) (j : Nat) (r tail : List Byte) : List Byte :=
  List.replicate i 0x20 ++ (w ++ (List.replicate j 0x20 ++ (r ++ tail)))

section Shape

variable {w r tail : List Byte} {i j : Nat}

theorem blank_of_mem_replicate {n : Nat} :
    ∀ c ∈ List.replicate n (0x20 : Byte), isBlank c = true := by
  intro c hc
  exact decide_eq_true (List.eq_of_mem_replicate hc)

theorem shaped_lead (h : Shaped w r tail j) :
    (shaped i w j r tail).takeWhile isBlank = List.replicate i 0x20 ∧
      (shaped i w j r tail).dropWhile isBlank = w ++ (List.replicate j 0x20 ++ (r ++ tail)) := by
  refine takeWhile_dropWhile_piece blank_of_mem_replicate ?_
  intro c hc hb
  obtain ⟨c', w', hw⟩ := List.exists_cons_of_ne_nil h.nonempty
  rw [hw] at hc
  cases hc
  exact (h.word c (by rw [hw]; exact List.mem_cons_self)).2.2 (of_decide_eq_true hb)

theorem shaped_word (h : Shaped w r tail j) :
    (w ++ (List.replicate j 0x20 ++ (r ++ tail))).takeWhile inWord = w ∧
      (w ++ (List.replicate j 0x20 ++ (r ++ tail))).dropWhile inWord
        = List.replicate j 0x20 ++ (r ++ tail) := by
  refine takeWhile_dropWhile_piece (fun c hc => decide_eq_true (h.word c hc)) ?_
  intro c hc hin
  obtain ⟨j', rfl⟩ : ∃ j', j = j' + 1 := ⟨j - 1, by have := h.gap; omega⟩
  cases hc
  exact absurd rfl (of_decide_eq_true hin).2.2

theorem shaped_gap (h : Shaped w r tail j) :
    (List.replicate j 0x20 ++ (r ++ tail)).takeWhile isBlank = List.replicate j 0x20 ∧
      (List.replicate j 0x20 ++ (r ++ tail)).dropWhile isBlank = r ++ tail := by
  refine takeWhile_dropWhile_piece blank_of_mem_replicate ?_
  intro c hc hb
  cases hr : r with
  | nil =>
      rw [hr, List.nil_append] at hc
      rcases h.ends with he | he <;> rw [he] at hc <;> cases hc
      cases hb
  | cons d ds =>
      rw [hr] at hc
      cases hc
      refine h.start ?_
      rw [hr, ← show c = 0x20 from of_decide_eq_true hb]
      rfl

theorem shaped_text (h : Shaped w r tail j) : (r ++ tail).takeWhile inLine = r := by
  refine (takeWhile_dropWhile_piece (fun c hc => decide_eq_true (h.text c hc)) ?_).1
  intro c hc hin
  rcases h.ends with he | he <;> rw [he] at hc <;> cases hc
  cases hin

/-- A command of that shape, with its text below the limit, is taken apart into word and text. -/
theorem copied_of_shaped (h : Shaped w r tail j) {size : Nat}
    (hlen : i + w.length + j + r.length < size) :
    wordCopied size (shaped i w j r tail) = w ∧ argsCopied size (shaped i w j r tail) = r := by
  obtain ⟨hlead, hrest⟩ := shaped_lead (i := i) h
  have hfirst : firstWord (shaped i w j r tail) = w := by
    unfold firstWord
    rw [hrest, (shaped_word h).1]
  have hargs : argPart (shaped i w j r tail) = r := by
    unfold argPart
    rw [hrest, (shaped_word h).2, (shaped_gap h).2, shaped_text h]
  have hfit : ((shaped i w j r tail).takeWhile isBlank).length
      + (firstWord (shaped i w j r tail)).length ≤ size := by
    rw [hlead, hfirst, List.length_replicate]
    omega
  refine ⟨(wordCopied_eq hfit).trans hfirst, (argsCopied_eq hfit ?_).trans hargs⟩
  rw [hlead, hrest, hfirst, (shaped_word h).2, (shaped_gap h).1, hargs, List.length_replicate,
    List.length_replicate]
  omega

end Shape

/--
**`parse_input` takes a command apart.** For every string shorter than the buffers, the
first gets its first word and the second everything behind the blanks that follow it,
up to the end of the line. So a word and a text that were put together with blanks
come back as they were, whatever follows a newline behind them.
-/
theorem parse_input_takes_apart (size : Nat) (exec args : Mem) :
    (∀ cmd, cmd.length < size →
      Holds (parseInput cmd exec args size).1 (firstWord cmd) ∧
        Holds (parseInput cmd exec args size).2 (argPart cmd)) ∧
      ∀ w r tail i j, Shaped w r tail j → i + w.length + j + r.length < size →
        Holds (parseInput (shaped i w j r tail) exec args size).1 w ∧
          Holds (parseInput (shaped i w j r tail) exec args size).2 r := by
  constructor
  · intro cmd hlen
    obtain ⟨hw, ha⟩ := copied_of_length_le (Nat.le_of_lt hlen)
    have hexec := parseInput_exec cmd exec args size
    have hargs := parseInput_args cmd exec args size
    rw [hw] at hexec
    rw [ha] at hargs
    exact ⟨hexec, hargs⟩
  · intro w r tail i j hshape hlen
    obtain ⟨hw, ha⟩ := copied_of_shaped hshape hlen
    have hexec := parseInput_exec (shaped i w j r tail) exec args size
    have hargs := parseInput_args (shaped i w j r tail) exec args size
    rw [hw] at hexec
    rw [ha] at hargs
    exact ⟨hexec, hargs⟩

/-- "ls", two blanks, "a b", and a second line, in buffers that the first line fits. -/
theorem parse_input_takes_apart_ls :
    (Holds (parseInput (shaped 1 [0x6C, 0x73] 2 [0x61, 0x20, 0x62] [0x0A, 0x78])
          (fun _ => 1) (fun _ => 1) 9).1 [0x6C, 0x73] ∧
      Holds (parseInput (shaped 1 [0x6C, 0x73] 2 [0x61, 0x20, 0x62] [0x0A, 0x78])
          (fun _ => 1) (fun _ => 1) 9).2 [0x61, 0x20, 0x62]) ∧
    Holds (parseInput [0x0A, 0x61] (fun _ => 1) (fun _ => 1) 3).1 [] :=
  ⟨(parse_input_takes_apart 9 _ _).2 _ _ _ _ _ ⟨by decide, by decide, by decide, by decide,
      by decide, .inr rfl⟩ (by decide),
    ((parse_input_takes_apart 3 _ _).1 [0x0A, 0x61] (by decide)).1⟩

/-! ## Where the stores go -/

theorem writes_exec (cmd : List Byte) (args : Mem) (size j : Nat) :
    Writes (fun m => (parseInput cmd m args size).1) j ↔ j ≤ (wordCopied size cmd).length := by
  simp only [parseInput_eq]
  exact writes_copy_then_store _ _ _ _

theorem writes_args (cmd : List Byte) (exec : Mem) (size j : Nat) :
    Writes (fun m => (parseInput cmd exec m size).2) j ↔ j ≤ (argsCopied size cmd).length := by
  simp only [parseInput_eq]
  rw [← writes_copy_then_store (cstr (argsCopied size cmd)) (argsCopied size cmd).length 0 j]
  constructor
  · rintro ⟨m, hm⟩
    -- the store to the first element is covered by the copy and its terminator
    by_cases h0 : j = 0
    · subst h0
      exact (writes_copy_then_store _ _ _ _).mpr (Nat.zero_le _)
    · refine ⟨store m 0 0, ?_⟩
      rw [store_of_ne h0]
      exact hm
  · intro h
    have hj := (writes_copy_then_store _ _ _ _).mp h
    rcases Nat.eq_or_lt_of_le hj with heq | hlt
    · exact .of_const (b := 0) fun m => by rw [heq, store_self]
    · exact .of_const (b := cstr (argsCopied size cmd) j) fun m => by
        rw [store_of_ne (by omega), memcpy_apply, if_pos (by omega)]
        rfl

/-- The first word leaves room for its terminator unless it fills the buffer from index 0. -/
theorem wordCopied_length_lt_iff {size : Nat} (hsize : 0 < size) (cmd : List Byte) :
    (wordCopied size cmd).length < size ↔
      cmd.head? = some 0x20 ∨ (firstWord cmd).length < size := by
  unfold wordCopied
  rw [List.length_take]
  cases cmd with
  | nil =>
      have hnil : (firstWord []).length = 0 := rfl
      simp only [List.takeWhile_nil, List.length_nil]
      exact ⟨fun _ => .inr (by omega), fun _ => by omega⟩
  | cons c cs =>
      by_cases hc : c = 0x20
      -- a blank in front costs the word an index below the limit
      · have hb : isBlank c = true := decide_eq_true hc
        rw [List.takeWhile_cons_of_pos hb, List.length_cons]
        refine iff_of_true (by omega) (.inl ?_)
        rw [hc]
        rfl
      · have hb : ¬ isBlank c = true := fun h => hc (of_decide_eq_true h)
        rw [List.takeWhile_cons_of_neg hb, List.length_nil]
        constructor
        · intro h
          exact .inr (by omega)
        · rintro (h | h)
          · exact absurd (Option.some.inj h) hc
          · omega

/-- The arguments always leave room for theirs: some byte was consumed before them. -/
theorem argsCopied_length_lt {size : Nat} (hsize : 0 < size) (cmd : List Byte) :
    (argsCopied size cmd).length < size := by
  have hle : (argsCopied size cmd).length ≤ size - argIndex size cmd := by
    unfold argsCopied
    rw [List.length_take]
    exact Nat.min_le_left _ _
  rcases Nat.eq_zero_or_pos (argIndex size cmd) with h0 | hpos
  · -- nothing was consumed, so the line is over at its first byte
    have hlead : (cmd.takeWhile isBlank).length = 0 := by unfold argIndex at h0; omega
    have hword : (wordCopied size cmd).length = 0 := by unfold argIndex at h0; omega
    have hdrop : cmd.dropWhile isBlank = cmd := by
      have := List.takeWhile_append_dropWhile (p := isBlank) (l := cmd)
      rwa [List.eq_nil_of_length_eq_zero hlead, List.nil_append] at this
    have hfirst : (firstWord cmd).length = 0 := by
      unfold wordCopied at hword
      rw [List.length_take, hlead] at hword
      omega
    have hafter : afterWord size cmd = cmd := by
      unfold afterWord
      rw [hword, hdrop, List.drop_zero]
    suffices hargs : argsCopied size cmd = [] by
      rw [hargs]
      exact hsize
    unfold argsCopied
    rw [hafter, hdrop]
    cases cmd with
    | nil => rw [List.takeWhile_nil, List.take_nil]
    | cons c cs =>
        have hnot : ¬ inWord c = true := by
          intro hin
          unfold firstWord at hfirst
          rw [hdrop, List.takeWhile_cons_of_pos hin] at hfirst
          cases hfirst
        have hblank : ¬ isBlank c = true := by
          intro hb
          rw [List.takeWhile_cons_of_pos hb] at hlead
          cases hlead
        have hline : ¬ inLine c = true := by
          intro hl
          have hl' : c ≠ 0 ∧ c ≠ 0x0A := of_decide_eq_true hl
          exact hnot (decide_eq_true ⟨hl'.1, hl'.2, fun h => hblank (decide_eq_true h)⟩)
        rw [List.takeWhile_cons_of_neg hline, List.take_nil]
  · omega

/--
**Where `parse_input` stays inside its buffers.** For every command, of any length, and
buffers of any size: it does exactly when there is room for a terminator and the first
word, if no blank comes before it, is shorter than the buffer.
-/
theorem parse_input_in_bounds_iff (cmd : List Byte) (size : Nat) (exec args : Mem) :
    (∀ j, Writes (fun m => (parseInput cmd m args size).1) j ∨
        Writes (fun m => (parseInput cmd exec m size).2) j → j < size) ↔
      0 < size ∧ (cmd.head? = some 0x20 ∨ (firstWord cmd).length < size) := by
  simp only [writes_exec, writes_args]
  constructor
  · intro h
    have hword := h _ (.inl (Nat.le_refl _))
    have hsize : 0 < size := by omega
    exact ⟨hsize, (wordCopied_length_lt_iff hsize cmd).mp hword⟩
  · rintro ⟨hsize, hword⟩ j hj
    have hw := (wordCopied_length_lt_iff hsize cmd).mpr hword
    have ha := argsCopied_length_lt hsize cmd
    rcases hj with hj | hj <;> omega

/-- 128 bytes without a blank: the terminator of `exec` goes behind its last byte. -/
theorem parse_input_long_word : ∃ cmd : List Byte, 0 ∉ cmd ∧
    Writes (fun m => (parseInput cmd m (fun _ => 0) bufSize).1) bufSize ∧
    ¬ ∀ j, Writes (fun m => (parseInput cmd m (fun _ => 0) bufSize).1) j ∨
      Writes (fun m => (parseInput cmd (fun _ => 0) m bufSize).2) j → j < bufSize := by
  have hne : ∀ c ∈ List.replicate 128 (0x61 : Byte), c = 0x61 := fun c => List.eq_of_mem_replicate
  have hdrop : (List.replicate 128 (0x61 : Byte)).dropWhile isBlank = List.replicate 128 0x61 := rfl
  have hfirst : firstWord (List.replicate 128 0x61) = List.replicate 128 0x61 := by
    unfold firstWord
    rw [hdrop]
    refine List.takeWhile_eq_self_iff.mpr ?_
    intro c hc
    rw [hne c hc]
    decide
  have hlead : (List.replicate 128 (0x61 : Byte)).takeWhile isBlank = [] := rfl
  have hlen : (wordCopied bufSize (List.replicate 128 0x61)).length = 128 := by
    rw [wordCopied_eq (by rw [hlead, hfirst, List.length_replicate]; decide), hfirst,
      List.length_replicate]
  have hat : Writes (fun m => (parseInput (List.replicate 128 0x61) m (fun _ => 0) bufSize).1)
      bufSize := by
    rw [writes_exec, hlen]
    decide
  exact ⟨List.replicate 128 0x61, fun h => absurd (hne 0 h) (by decide), hat,
    fun h => Nat.lt_irrefl _ (h _ (.inl hat))⟩

end Zbiggie.Proof
