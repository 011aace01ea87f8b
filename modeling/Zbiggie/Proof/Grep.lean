import Mathlib.Data.List.Infix
import Zbiggie.Machine.TextLines
import Zbiggie.Proof.FdTable
import Zbiggie.Proof.FileReads
import Zbiggie.User.Grep

/-!
# What `grep` prints

The program never has the whole file: it has an array of 1024 bytes, and lines that run
over its end. What it prints must not depend on where the reads happened to cut the file.
The invariant is that what is still to be printed is determined by the bytes kept at the
front of the array and the part of the file that has not been read, put together.

It holds for a text, which has no NUL in it. A line that does not fit the array is cut,
and the pieces are searched like lines.
-/

namespace Zbiggie.Proof

open Zbiggie Machine

/-! ## What is to be printed -/

/-- A line is printed when the string is in it. No string is, that is empty or begins with
a character above 127. -/
def grepLine (s fname line : List Byte) : List Byte :=
  if s ≠ [] ∧ (cstr s 0).toNat < 128 ∧ s <:+: line then fname ++ [0x3A] ++ line ++ [0x0A] else []

/-- All that is printed for a text. -/
def grepText (s fname text : List Byte) : List Byte :=
  ((linesOf text).flatMap (cut grepBufsize)).flatMap (grepLine s fname)

section Text

variable {s fname p : List Byte}

@[simp] theorem grepLine_nil : grepLine s fname [] = [] := by
  unfold grepLine
  refine if_neg ?_
  rintro ⟨hne, -, hinfix⟩
  exact hne (List.infix_nil.mp hinfix)

/-- A line no longer than the array is searched whole. -/
theorem flatMap_cut (hlen : p.length ≤ grepBufsize) :
    (cut grepBufsize p).flatMap (grepLine s fname) = grepLine s fname p := by
  rcases Nat.lt_or_eq_of_le hlen with hlt | heq
  · rw [cut_of_length_lt hlt, List.flatMap_singleton]
  · have h := cut_append (by decide) heq []
    rw [List.append_nil, cut_of_length_lt (l := []) (by decide)] at h
    rw [h]
    simp

theorem newline_eq_false (hp : 0x0A ∉ p) : ∀ x ∈ p, newline x = false := by
  intro x hx
  unfold newline
  rw [decide_eq_false_iff_not]
  exact fun h => hp (h ▸ hx)

theorem grepText_line (hp : 0x0A ∉ p) (hlen : p.length ≤ grepBufsize) (rest : List Byte) :
    grepText s fname (p ++ 0x0A :: rest) = grepLine s fname p ++ grepText s fname rest := by
  have hsplit : (0x0A :: rest).splitOnP newline = [] :: rest.splitOnP newline := by
    rw [List.splitOnP_cons_eq_if_modifyHead, if_pos (by decide)]
  unfold grepText linesOf
  rw [splitOnP_append (newline_eq_false hp), hsplit, List.modifyHead_cons, List.append_nil,
    List.flatMap_cons, List.flatMap_append, flatMap_cut hlen]

theorem grepText_end (hp : 0x0A ∉ p) (hlen : p.length ≤ grepBufsize) :
    grepText s fname p = grepLine s fname p := by
  have hsplit := splitOnP_append (newline_eq_false hp) []
  rw [List.append_nil, List.splitOnP_nil, List.modifyHead_cons, List.append_nil] at hsplit
  unfold grepText linesOf
  rw [hsplit, List.flatMap_singleton, flatMap_cut hlen]

/-- A full array without a newline is a piece of a line, whatever follows. -/
theorem grepText_piece (hp : 0x0A ∉ p) (hlen : p.length = grepBufsize) (rest : List Byte) :
    grepText s fname (p ++ rest) = grepLine s fname p ++ grepText s fname rest := by
  obtain ⟨l, ls, hls⟩ := List.exists_cons_of_ne_nil (List.splitOnP_ne_nil newline rest)
  unfold grepText linesOf
  rw [splitOnP_append (newline_eq_false hp), hls, List.modifyHead_cons, List.flatMap_cons,
    List.flatMap_cons, cut_append (by decide) hlen, List.cons_append, List.flatMap_cons]

end Text

/-! ## The array -/

section Array

variable {m m' : Mem} {a n : Nat}

theorem bytesAt_congr (h : ∀ j, a ≤ j → j < a + n → m j = m' j) :
    bytesAt m a n = bytesAt m' a n := by
  unfold bytesAt
  refine List.map_congr_left ?_
  intro j hj
  rw [List.mem_range'_1] at hj
  exact h j hj.1 hj.2

@[simp] theorem length_bytesAt (m : Mem) (a n : Nat) : (bytesAt m a n).length = n := by
  simp [bytesAt]

theorem bytesAt_append (m : Mem) (a n k : Nat) :
    bytesAt m a (n + k) = bytesAt m a n ++ bytesAt m (a + n) k := by
  unfold bytesAt
  rw [← List.map_append, List.range'_append_1]

theorem bytesAt_succ (m : Mem) (a n : Nat) : bytesAt m a (n + 1) = m a :: bytesAt m (a + 1) n := by
  unfold bytesAt
  rw [List.range'_succ, List.map_cons]

theorem not_mem_bytesAt {b : Byte} :
    b ∉ bytesAt m a n ↔ ∀ j, a ≤ j → j < a + n → m j ≠ b := by
  unfold bytesAt
  simp only [List.mem_map, List.mem_range'_1, not_exists, not_and, and_imp, ne_eq]

/-- Bytes with a NUL behind them are a string. -/
theorem reads_bytesAt (hend : m (a + n) = 0) {j : Nat} (hj : j ≤ n) :
    m (a + j) = cstr (bytesAt m a n) j := by
  unfold cstr
  rcases Nat.lt_or_eq_of_le hj with hlt | rfl
  · rw [List.getD_eq_getElem _ _ (by simpa using hlt)]
    simp [bytesAt]
  · rw [List.getD_eq_default _ _ (by simp), hend]

/-- The end of a line is the first newline, or where the bytes end. -/
theorem findLineEnd_spec (data : Mem) : ∀ n a, ∃ j, j ≤ n ∧ findLineEnd data n a = a + j ∧
    0x0A ∉ bytesAt data a j ∧ (j < n → data (a + j) = 0x0A) := by
  intro n
  induction n with
  | zero =>
      intro a
      exact ⟨0, Nat.le_refl 0, rfl, by simp [bytesAt], fun h => absurd h (Nat.lt_irrefl 0)⟩
  | succ n ih =>
      intro a
      rw [findLineEnd]
      by_cases hnl : data a = 0x0A
      · rw [if_neg (not_not.mpr hnl)]
        exact ⟨0, Nat.zero_le _, rfl, by simp [bytesAt], fun _ => hnl⟩
      · obtain ⟨j, hj, hend, hno, hfound⟩ := ih (a + 1)
        rw [if_pos hnl]
        refine ⟨j + 1, by omega, by rw [hend]; omega, ?_, ?_⟩
        · rw [bytesAt_succ]
          intro hmem
          rcases List.mem_cons.mp hmem with h | h
          · exact hnl h.symm
          · exact hno h
        · intro hlt
          rw [← hfound (by omega)]
          congr 1
          omega

/-- The copy down the array, source and destination overlapping as they may. -/
theorem ece391Strcpy_eq {src : Nat} (hsrc : 0 < src) : ∀ {fuel i n : Nat} {data : Mem},
    i ≤ n → n - i < fuel → (∀ j, i ≤ j → j < n → data (src + j) ≠ 0) → data (src + n) = 0 →
    ece391Strcpy src fuel i data =
      some fun a => if i ≤ a ∧ a ≤ n then data (src + a) else data a := by
  intro fuel
  induction fuel with
  | zero => intro i n data _ hf; omega
  | succ fuel ih =>
      intro i n data hi hf hne hend
      rw [ece391Strcpy]
      rcases Nat.lt_or_eq_of_le hi with hlt | rfl
      · rw [if_neg (hne i (Nat.le_refl i) hlt)]
        -- what was stored lies before everything that is still to be read
        have hkept : ∀ j, i < j → store data i (data (src + i)) j = data j :=
          fun j hj => store_of_ne (by omega)
        rw [ih hlt (by omega) (fun j h1 h2 => by rw [hkept _ (by omega)]; exact hne j (by omega) h2)
          (by rw [hkept _ (by omega)]; exact hend)]
        congr 1
        funext a
        by_cases ha : a = i
        · subst ha
          rw [if_neg (by omega), if_pos (by omega), store_self]
        · by_cases hin : i + 1 ≤ a ∧ a ≤ n
          · rw [if_pos hin, if_pos (by omega), hkept _ (by omega)]
          · rw [if_neg hin, if_neg (by omega), store_of_ne ha]
      · rw [if_pos hend]
        congr 1
        funext a
        by_cases ha : a = i
        · subst ha
          rw [if_pos (by omega), store_self]
        · rw [if_neg (by omega), store_of_ne ha]

end Array

/-! ## Searching a line -/

section Search

variable {s : List Byte} {data : Mem}

/-- The two `strncmp`s of the system find the same strings equal. -/
theorem ece391Strncmp_eq_zero_iff (s1 s2 : Mem) : ∀ n i,
    ece391Strncmp s1 s2 n i = 0 ↔ upToNul s1 n i = upToNul s2 n i := by
  intro n
  induction n with
  | zero => intro i; exact iff_of_true rfl rfl
  | succ n ih =>
      intro i
      rw [← strncmpFrom_eq_zero_iff, strncmpFrom, ece391Strncmp]
      by_cases heq : s1 i = s2 i
      · by_cases h0 : s1 i = 0
        · rw [if_pos heq, if_pos (.inl h0), if_pos (.inr h0), heq, Int.sub_self]
        · rw [if_pos heq, if_neg (not_or.mpr ⟨not_not.mpr heq, h0⟩), strncmpFrom_eq_zero_iff, ← ih]
          by_cases hn : n = 0
          · subst hn
            rw [if_pos (.inr rfl)]
            exact iff_of_true rfl rfl
          · rw [if_neg (not_or.mpr ⟨h0, hn⟩)]
      · rw [if_neg heq, if_pos (.inl heq)]
        refine iff_of_false (fun h => heq ?_) (fun h => heq ?_)
        · exact BitVec.eq_of_toNat_eq (by omega)
        · exact BitVec.eq_of_toInt_eq (by omega)

/-- The string is found at a place when the line goes on with it. -/
theorem matchesAt_iff (hs : 0 ∉ s) {check : Nat} {x : Byte} {t : List Byte} (ht : 0 ∉ x :: t)
    (hreads : ∀ j, j ≤ (x :: t).length → data (check + j) = cstr (x :: t) j) :
    matchesAt s data check ↔ s ≠ [] ∧ (cstr s 0).toNat < 128 ∧ s <+: x :: t := by
  have hx : data check = x := hreads 0 (Nat.zero_le _)
  have hcmp : ece391Strncmp (fun i => data (check + i)) (cstr s) s.length 0 = 0 ↔ s <+: x :: t := by
    rw [ece391Strncmp_eq_zero_iff, upToNul_of_reads ht fun j _ hj => hreads j hj, upToNul_cstr hs,
      List.drop_zero, List.take_length, List.prefix_iff_eq_take]
    exact eq_comm
  unfold matchesAt
  rw [hcmp, hx]
  have hbits := BitVec.toInt_eq_toNat_cond (cstr s 0)
  have hlt := (cstr s 0).isLt
  constructor
  · rintro ⟨hchar, hpre⟩
    refine ⟨?_, ?_, hpre⟩
    · rintro rfl
      -- an empty string begins with its NUL, and there is none in the line
      refine ht (List.mem_cons.mpr (.inl ?_))
      refine (BitVec.eq_of_toNat_eq ?_).symm
      have hzero : (cstr ([] : List Byte) 0).toInt = 0 := rfl
      have : (0 : Byte).toNat = 0 := rfl
      omega
    · have := x.isLt
      split at hbits <;> omega
  · rintro ⟨hne, hascii, hpre⟩
    refine ⟨?_, hpre⟩
    obtain ⟨c, s, rfl⟩ := List.exists_cons_of_ne_nil hne
    obtain rfl : c = x := (List.cons_prefix_cons.mp hpre).1
    have hc : cstr (c :: s) 0 = c := rfl
    rw [hc] at hascii hbits ⊢
    rw [hbits, if_pos (by omega)]

/-- The loop over a line finds the string wherever it is in it. -/
theorem searchLine_eq (hs : 0 ∉ s) (fname : List Byte) (lineStart : Nat) :
    ∀ (t : List Byte) (check : Nat), 0 ∉ t →
      (∀ j, j ≤ t.length → data (check + j) = cstr t j) →
      searchLine s fname data lineStart t.length check =
        if s ≠ [] ∧ (cstr s 0).toNat < 128 ∧ s <:+: t then
          fname ++ [0x3A] ++ upToNul (fun i => data (lineStart + i)) (grepBufsize + 1) 0 ++ [0x0A]
        else [] := by
  intro t
  induction t with
  | nil =>
      intro check _ _
      refine (if_neg ?_).symm
      rintro ⟨hne, -, hinfix⟩
      exact hne (List.infix_nil.mp hinfix)
  | cons x t ih =>
      intro check ht hreads
      have hrest : ∀ j, j ≤ t.length → data (check + 1 + j) = cstr t j := by
        intro j hj
        have h := hreads (j + 1) (by rw [List.length_cons]; omega)
        rw [show check + 1 + j = check + (j + 1) by omega, h]
        rfl
      rw [List.length_cons, searchLine,
        ih (check + 1) (fun h => ht (List.mem_cons_of_mem x h)) hrest]
      have hmatch := matchesAt_iff hs ht hreads
      by_cases hhere : matchesAt s data check
      · obtain ⟨hne, hascii, hpre⟩ := hmatch.mp hhere
        rw [if_pos hhere, if_pos ⟨hne, hascii, hpre.isInfix⟩]
      · rw [if_neg hhere]
        refine if_congr ?_ rfl rfl
        rw [List.infix_cons_iff]
        constructor
        · rintro ⟨hne, hascii, hinfix⟩
          exact ⟨hne, hascii, .inr hinfix⟩
        · rintro ⟨hne, hascii, hpre | hinfix⟩
          · exact absurd (hmatch.mpr ⟨hne, hascii, hpre⟩) hhere
          · exact ⟨hne, hascii, hinfix⟩

/-- **One line.** Once its end is a NUL, the line is printed when it should be. -/
theorem searchLine_line (hs : 0 ∉ s) (fname : List Byte) {lineStart n : Nat}
    (htext : 0 ∉ bytesAt data lineStart n) (hend : data (lineStart + n) = 0)
    (hn : n ≤ grepBufsize) :
    searchLine s fname data lineStart n lineStart
      = grepLine s fname (bytesAt data lineStart n) := by
  have hreads : ∀ j, j ≤ (bytesAt data lineStart n).length →
      data (lineStart + j) = cstr (bytesAt data lineStart n) j := by
    intro j hj
    exact reads_bytesAt hend (by simpa using hj)
  have h := searchLine_eq hs fname lineStart (bytesAt data lineStart n) lineStart htext hreads
  rw [length_bytesAt, upToNul_of_reads htext fun j _ hj => hreads j hj,
    List.take_of_length_le (by rw [length_bytesAt]; omega)] at h
  exact h

end Search

/-! ## The loops -/

/-- What the array keeps from one read to the next: the start of a line, with room behind it. -/
structure Kept (data : Mem) (last : Nat) : Prop where
  room : last < grepBufsize
  text : 0 ∉ bytesAt data 0 last
  line : 0x0A ∉ bytesAt data 0 last
  guard : data grepBufsize ≠ 0x0A

section Loops

variable {s fname rest : List Byte} {cnt : Int} {last : Nat}

theorem store_guard {data : Mem} (h : data grepBufsize ≠ 0x0A) (a : Nat) :
    store data a 0 grepBufsize ≠ 0x0A := by
  by_cases ha : grepBufsize = a
  · rw [ha, store_self]
    decide
  · rw [store_of_ne ha]
    exact h

/-- Without a newline in them, the bytes are searched only when no more of their line can come. -/
theorem grepText_unfinished {data : Mem} {lineStart : Nat} (hcnt : cnt = 0 → rest = [])
    (hrest : last < grepBufsize → rest = []) (hlast : last ≤ grepBufsize)
    (hguard : data grepBufsize ≠ 0x0A)
    (hline : 0x0A ∉ bytesAt data lineStart (last - lineStart))
    (hall : ¬ (data last ≠ 0x0A ∧ cnt ≠ 0 ∧ lineStart ≠ 0)) :
    grepText s fname (bytesAt data lineStart (last - lineStart) ++ rest) =
      grepLine s fname (bytesAt data lineStart (last - lineStart)) ++ grepText s fname rest := by
  have hnil : grepText s fname [] = [] := by
    rw [grepText_end (by decide) (by decide), grepLine_nil]
  have hfin : rest = [] → grepText s fname (bytesAt data lineStart (last - lineStart) ++ rest) =
      grepLine s fname (bytesAt data lineStart (last - lineStart)) ++ grepText s fname rest := by
    rintro rfl
    rw [List.append_nil, grepText_end hline (by rw [length_bytesAt]; omega), hnil, List.append_nil]
  by_cases hfull : last < grepBufsize
  · exact hfin (hrest hfull)
  · obtain rfl : last = grepBufsize := by omega
    by_cases h0 : cnt = 0
    · exact hfin (hcnt h0)
    · obtain rfl : lineStart = 0 := by
        by_contra hne
        exact hall ⟨hguard, h0, hne⟩
      exact grepText_piece hline (by rw [length_bytesAt, Nat.sub_zero]) rest

/-- **One array of text.** What is printed and what is kept stand for what was there. -/
theorem scanLines_spec (hs : 0 ∉ s) (hcnt : cnt = 0 → rest = []) (hlast : last ≤ grepBufsize)
    (hrest : last < grepBufsize → rest = []) : ∀ {fuel lineStart : Nat} {data : Mem},
      lineStart ≤ last → last - lineStart < fuel → 0 ∉ bytesAt data lineStart (last - lineStart) →
      data grepBufsize ≠ 0x0A →
      ∃ out last' data', scanLines s fname cnt last fuel lineStart data = some (out, last', data') ∧
        Kept data' last' ∧ (cnt = 0 → last' = 0) ∧
        grepText s fname (bytesAt data lineStart (last - lineStart) ++ rest) =
          out ++ grepText s fname (bytesAt data' 0 last' ++ rest) := by
  intro fuel
  induction fuel with
  | zero => intro lineStart data _ hf; omega
  | succ fuel ih =>
      intro lineStart data hstart hf htext hguard
      have hbuf : grepBufsize = 1024 := rfl
      obtain ⟨j, hj, hend, hno, hfound⟩ := findLineEnd_spec data (last - lineStart) lineStart
      rw [scanLines, hend]
      have hne := not_mem_bytesAt.mp htext
      by_cases hpart : data (lineStart + j) ≠ 0x0A ∧ cnt ≠ 0 ∧ lineStart ≠ 0
      · -- the last line goes on in what is still to be read: it is moved to the front
        obtain rfl : j = last - lineStart := by
          by_contra hlt
          exact hpart.1 (hfound (by omega))
        have hlen : lineStart + (last - lineStart) = last := by omega
        rw [if_pos hpart, hlen, ece391Strcpy_eq (by omega) (Nat.zero_le _)
          (show last - lineStart - 0 < grepBufsize + 1 by omega)
          (fun i _ hi => by rw [store_of_ne (by omega)]; exact hne _ (by omega) (by omega))
          (by rw [hlen, store_self]), Option.map_some]
        have hmoved : bytesAt (fun a => if 0 ≤ a ∧ a ≤ last - lineStart then
            store data last 0 (lineStart + a) else store data last 0 a) 0 (last - lineStart) =
              bytesAt data lineStart (last - lineStart) := by
          unfold bytesAt
          rw [List.range'_eq_map_range, List.range'_eq_map_range, List.map_map, List.map_map]
          refine List.map_congr_left ?_
          intro i hi
          have hi := List.mem_range.mp hi
          simp only [Function.comp_apply, Nat.zero_add]
          rw [if_pos (by omega), store_of_ne (by omega)]
        refine ⟨_, _, _, rfl,
          ⟨by omega, by rw [hmoved]; exact htext, by rw [hmoved]; exact hno, ?_⟩,
          fun h => absurd h hpart.2.1, by rw [hmoved]; rfl⟩
        rw [if_neg (by omega)]
        exact store_guard hguard _
      · rw [if_neg hpart]
        dsimp only
        -- the NUL that ends the line lies behind it
        have hsame : ∀ a n, lineStart + j < a ∨ a + n ≤ lineStart + j →
            bytesAt (store data (lineStart + j) 0) a n = bytesAt data a n := by
          intro a n h
          exact bytesAt_congr fun i _ _ => store_of_ne (by omega)
        have hbefore := hsame lineStart j (.inr (Nat.le_refl _))
        have hprinted : searchLine s fname (store data (lineStart + j) 0) lineStart j lineStart =
            grepLine s fname (bytesAt data lineStart j) := by
          rw [← hbefore]
          refine searchLine_line hs fname ?_ (store_self ..) (by omega)
          rw [hbefore]
          exact not_mem_bytesAt.mpr fun i h1 h2 => hne i h1 (by omega)
        rw [Nat.add_sub_cancel_left, hprinted]
        have hguard' := store_guard hguard (lineStart + j)
        have hnothing : Kept (store data (lineStart + j) 0) 0 :=
          ⟨by decide, by simp [bytesAt], by simp [bytesAt], hguard'⟩
        by_cases hge : lineStart + j + 1 ≥ last
        · rw [if_pos hge]
          refine ⟨_, _, _, rfl, hnothing, fun _ => rfl, ?_⟩
          show _ = _ ++ grepText s fname rest
          rcases Nat.lt_or_eq_of_le hj with hlt | rfl
          · rw [show last - lineStart = j + 1 by omega, bytesAt_append, bytesAt_succ, hfound hlt,
              List.append_assoc]
            exact grepText_line hno (by rw [length_bytesAt]; omega) rest
          · rw [show lineStart + (last - lineStart) = last by omega] at hpart
            exact grepText_unfinished hcnt hrest hlast hguard hno hpart
        · have hlt : j < last - lineStart := by omega
          have hafter := hsame (lineStart + j + 1) (last - (lineStart + j + 1)) (.inl (by omega))
          have htail : 0 ∉ bytesAt (store data (lineStart + j) 0) (lineStart + j + 1)
              (last - (lineStart + j + 1)) := by
            rw [hafter]
            exact not_mem_bytesAt.mpr fun i h1 h2 => hne i (by omega) (by omega)
          obtain ⟨out, last', data', hscan, hkept, hzero, htext'⟩ :=
            ih (by omega) (by omega) htail hguard'
          rw [if_neg hge, hscan, Option.map_some]
          refine ⟨_, _, _, rfl, hkept, hzero, ?_⟩
          rw [hafter] at htext'
          rw [show last - lineStart = j + (last - (lineStart + j + 1) + 1) by omega, bytesAt_append,
            bytesAt_succ, hfound hlt, List.append_assoc, List.cons_append,
            grepText_line hno (by rw [length_bytesAt]; omega), htext', List.append_assoc]

variable {img : Image} {d : Nat → Dentry} {dev : Nat → DeviceRead} {inode flags : Word}

/-- **The whole file.** However the reads cut it, the matching lines come out. -/
theorem grepLoop_regular (hs : 0 ∉ s) (hn : inode.toNat < img.numInode.toNat)
    (hlen : (fileLength img inode).toNat ≤ maxLength) : ∀ {fuel n pos last : Nat} {data : Mem},
      pos ≤ (fileLength img inode).toNat → (fileLength img inode).toNat - pos < fuel →
      0 ∉ fileSlice img inode.toNat pos ((fileLength img inode).toNat - pos) → Kept data last →
      ∃ f, grepLoop img d dev s fname fuel n (regularAt inode flags pos) last data =
        some (0, grepText s fname (bytesAt data 0 last ++
          fileSlice img inode.toNat pos ((fileLength img inode).toNat - pos)), f) := by
  generalize hL : (fileLength img inode).toNat = L at hlen
  intro fuel
  induction fuel with
  | zero => intro n pos last data _ hf; omega
  | succ fuel ih =>
      intro n pos last data hpos hf htext hkept
      have hbuf : grepBufsize = 1024 := rfl
      have hroom := hkept.room
      have hsize : (BitVec.ofNat 32 (grepBufsize - last)).toNat = grepBufsize - last := by
        rw [BitVec.toNat_ofNat]
        omega
      have hread := kread_regularAt flags hn (by rw [hL]; exact hlen)
        (show pos ≤ (fileLength img inode).toNat by rw [hL]; exact hpos)
        ⟨last, BitVec.ofNat 32 (grepBufsize - last), data, d n, dev n⟩ (by dsimp only; omega)
      dsimp only at hread
      rw [hL, hsize] at hread
      generalize hc : portion L pos (grepBufsize - last) = c at hread
      have hcmin : c = Min.min (grepBufsize - last) (L - pos) := hc.symm
      -- the text so far, and what the call added to it
      have hslice : fileSlice img inode.toNat pos (L - pos) =
          fileSlice img inode.toNat pos c
            ++ fileSlice img inode.toNat (pos + c) (L - (pos + c)) := by
        rw [fileSlice_append]
        congr 1
        omega
      have hdata : bytesAt (memcpy data last (img.fileFrom inode.toNat pos) c) 0 (last + c) =
          bytesAt data 0 last ++ fileSlice img inode.toNat pos c := by
        rw [bytesAt_append, Nat.zero_add, bytesAt_memcpy]
        congr 1
        exact bytesAt_congr fun i _ hi => by rw [memcpy_apply, if_neg (by omega)]
      have hnil : L ≤ pos + c → fileSlice img inode.toNat (pos + c) (L - (pos + c)) = [] := by
        intro h
        rw [Nat.sub_eq_zero_of_le h]
        rfl
      rw [hslice, List.mem_append, not_or] at htext
      have htext' : 0 ∉ bytesAt (memcpy data last (img.fileFrom inode.toNat pos) c) 0
          (last + c - 0) := by
        rw [Nat.sub_zero, hdata, List.mem_append, not_or]
        exact ⟨hkept.text, htext.1⟩
      have hguard : memcpy data last (img.fileFrom inode.toNat pos) c grepBufsize ≠ 0x0A := by
        rw [memcpy_apply, if_neg (by omega)]
        exact hkept.guard
      have hdone : (c : Int) = 0 → fileSlice img inode.toNat (pos + c) (L - (pos + c)) = [] :=
        fun h => hnil (by omega)
      obtain ⟨out, last', data', hscan, hkept', hzero, hout⟩ :=
        @scanLines_spec s fname _ _ _ hs hdone (show last + c ≤ grepBufsize by omega)
          (fun h => hnil (by omega)) _ _ _ (Nat.zero_le _)
          (show last + c - 0 < last + c + 1 by omega) htext' hguard
      rw [Nat.sub_zero, hdata, List.append_assoc, ← hslice] at hout
      rw [grepLoop, hread]
      dsimp only
      rw [if_neg (by omega), Int.toNat_natCast, hscan, hout]
      dsimp only
      by_cases hc0 : c = 0
      · rw [if_pos (by omega), hzero (by omega), hnil (by omega)]
        refine ⟨_, congrArg (fun o => some (0, o, _)) ?_⟩
        show out = out ++ grepText s fname []
        rw [grepText_end (by decide) (by decide), grepLine_nil, List.append_nil]
      · obtain ⟨f, hloop⟩ := @ih (n + 1) (pos + c) _ _ (by omega) (by omega) htext.2 hkept'
        rw [if_neg (by omega), hloop]
        exact ⟨f, rfl⟩

/-- A device that answers nothing has no lines. -/
theorem grepLoop_rtc (hs : 0 ∉ s) {f : File} (hops : f.optable = .rtc) {fuel n : Nat} {data : Mem}
    (hkept : Kept data 0) : ∃ f', grepLoop img d dev s fname (fuel + 1) n f 0 data =
      some (0, [], f') := by
  have hread : kread img (d n) (dev n) f 0 (BitVec.ofNat 32 (grepBufsize - 0)) data =
      some (0, f, data) := by
    unfold kread
    rw [hops]
  obtain ⟨out, last', data', hscan, -, hzero, hout⟩ :=
    @scanLines_spec s fname [] 0 0 hs (fun _ => rfl) (Nat.zero_le _) (fun _ => rfl) 1 0 data
      (Nat.zero_le _) (by decide) hkept.text hkept.guard
  rw [hzero rfl] at hout
  have hnone : out = [] := List.self_eq_append_left.mp hout
  rw [grepLoop, hread]
  dsimp only
  rw [if_neg (by decide), show (0 : Int).toNat = 0 from rfl, hscan, hnone]
  exact ⟨f, rfl⟩

end Loops

/--
**What `grep` prints.** For every string, every name and every disk: of a text file it
prints each line that contains the string, once, in order, behind the name of the file; a
line of more than 1024 characters is cut into pieces of 1024, which count as lines. The
clock has no lines, and a name that is not on the disk is reported. The one thing it takes
on trust is the byte of the stack that lies behind the bytes it reads into.
-/
theorem grep_prints_matching_lines {img : Image} (ht : TypesOk img) (d : Nat → Dentry)
    (dev : Nat → DeviceRead) {s : List Byte} (hs : 0 ∉ s) (fname : List Byte) (fuel : Nat)
    (f : File) {data : Mem} (hdata : data grepBufsize ≠ 0x0A) :
    (lookup img fname = none →
      doOneFile img d dev s fname fuel f data = some (-1, grepOpenFailed, f)) ∧
      ∀ e, lookup img fname = some e →
        (img.ftype e = ftypeSpecial → 0 < fuel →
          ∃ f', doOneFile img d dev s fname fuel f data = some (0, [], f')) ∧
        (img.ftype e = ftypeRegular → (img.inodeNum e).toNat < img.numInode.toNat →
          (fileLength img (img.inodeNum e)).toNat ≤ maxLength →
          (fileLength img (img.inodeNum e)).toNat < fuel →
          0 ∉ fileSlice img (img.inodeNum e).toNat 0 (fileLength img (img.inodeNum e)).toNat →
          ∃ f', doOneFile img d dev s fname fuel f data = some (0, grepText s fname
            (fileSlice img (img.inodeNum e).toNat 0 (fileLength img (img.inodeNum e)).toNat),
              f')) := by
  have hkept : Kept data 0 := ⟨by decide, by simp [bytesAt], by simp [bytesAt], hdata⟩
  unfold doOneFile
  constructor
  · intro hl
    rw [kopen_missing hl]
    rfl
  · intro e hl
    constructor
    · intro hspecial hf
      obtain ⟨fuel, rfl⟩ : ∃ n, fuel = n + 1 := ⟨fuel - 1, by omega⟩
      obtain ⟨g, hopen, -, hentry⟩ := kopen_found ht hl (d 0) f
      have hops : g.optable = .rtc := by
        have := congrArg Entry.ops hentry
        rw [show (entryOf img e).ops = opsOf (img.ftype e) from rfl, hspecial] at this
        exact this
      rw [hopen]
      exact grepLoop_rtc hs hops hkept
    · intro hreg hn hlen hf htext
      rw [kopen_regular hl hreg]
      exact grepLoop_regular hs hn hlen (Nat.zero_le _) hf htext hkept

/-- A file of three lines: the two with "ab" in them are printed. -/
theorem grep_prints_two_lines : ∃ f', doOneFile (oneFile [0x74]
      [0x61, 0x62, 0x0A, 0x62, 0x61, 0x0A, 0x78, 0x61, 0x62]) (fun _ => someLocals.d)
      (fun _ => ⟨0, fun _ => 0⟩) [0x61, 0x62] [0x74] 10 ⟨.null, 0, 0, 0⟩ (fun _ => 0) =
    some (0, [0x74, 0x3A, 0x61, 0x62, 0x0A, 0x74, 0x3A, 0x78, 0x61, 0x62, 0x0A], f') := by
  have ht : TypesOk (oneFile [0x74] [0x61, 0x62, 0x0A, 0x62, 0x61, 0x0A, 0x78, 0x61, 0x62]) := by
    intro i hi
    obtain rfl : i = 0 := by
      have : (oneFile [0x74]
        [0x61, 0x62, 0x0A, 0x62, 0x61, 0x0A, 0x78, 0x61, 0x62]).numDentry.toNat = 1 := by decide
      omega
    right; right
    decide
  obtain ⟨f', h⟩ := ((@grep_prints_matching_lines _ ht (fun _ => someLocals.d)
    (fun _ => ⟨0, fun _ => 0⟩) [0x61, 0x62] (by decide) [0x74] 10 ⟨.null, 0, 0, 0⟩ (fun _ => 0)
    (by decide)).2 0 (by decide)).2 (by decide) (by decide) (by decide) (by decide) (by decide)
  exact ⟨f', h.trans (congrArg (fun out => some (0, out, f')) (by decide))⟩

end Zbiggie.Proof
