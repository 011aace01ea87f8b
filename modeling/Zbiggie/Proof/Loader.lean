import Zbiggie.Proof.FileData
import Zbiggie.Proof.ProcView

/-!
# What the loader reads, and when `execute` fails cleanly

The loader runs in two halves. Up to the magic-number test it only reads: the
outcome is a function of the image, the command and the garbage its locals start
with, and `HeaderOf` says what that outcome is in terms of the image alone. Then
`setup_new_process` allocates a PCB and switches to it, and only after that is the
entry address known.

The entry address doubles as the failure code. A program whose entry word is `-1`
or `1` is therefore "not loaded" after its process has been created and entered,
and that is the one way `execute` can fail and leave the process table changed.
-/

namespace Zbiggie.Proof

open Zbiggie Machine

/-! ## Reading file data -/

/-- A read whose range is no larger than an `int` copies its count of bytes, and no others. -/
theorem readData_copy (img : Image) (inode offset length : Word) (buf : Nat) (m : Mem)
    (hlen : offset.toNat + length.toNat < 2147483648) :
    (readData img inode offset buf length m).2
      = memcpy m buf (img.fileFrom inode.toNat offset.toNat)
          (readCount img inode offset length).toNat := by
  unfold readData readCount
  split
  · rfl
  · split
    · rfl
    · rename_i hlt
      have hle : offset.toNat ≤ (readEnd img inode offset length).toNat := Nat.le_of_not_lt hlt
      have hsum : offset.toNat + length.toNat < 4294967296 := by omega
      have hend := readEnd_toNat img inode hsum
      have hsub : (readEnd img inode offset length - offset).toNat
          = (readEnd img inode offset length).toNat - offset.toNat :=
        BitVec.toNat_sub_of_le hle
      rw [BitVec.toInt_eq_toNat_of_lt (by omega), hsub]
      exact readRange_eq img inode.toNat buf m hle

theorem regularRead_copy (img : Image) (f : File) (buf : Nat) (n : Word) (m : Mem)
    (hlen : f.pos.toNat + n.toNat < 2147483648) :
    (regularRead img f buf n m).2.2 = memcpy m buf (img.fileFrom f.inode.toNat f.pos.toNat)
      (readCount img f.inode f.pos n).toNat := by
  unfold regularRead
  split
  rename_i c m' heq
  have h := readData_copy img f.inode f.pos n buf m hlen
  rw [heq] at h
  split <;> exact h

theorem regularRead_count_toNat (img : Image) (f : File) (buf : Nat) (n : Word) (m : Mem) :
    (regularRead img f buf n m).1.toNat = (readCount img f.inode f.pos n).toNat := by
  unfold regularRead
  have hc := readData_count img f.inode f.pos n buf m
  split
  rename_i c m' heq
  rw [heq] at hc
  dsimp only at hc
  subst hc
  split
  · dsimp only; omega
  · rfl

/-! ## The header -/

/-- The file name a command starts with, as `parse_input` leaves it in `exec`. -/
def execName (loc : ExecLocals) (cmd : List Byte) : Mem :=
  (parseInput cmd loc.exec loc.args bufSize).1

/-- The arguments, as `parse_input` leaves them in `args`. -/
def execArgs (loc : ExecLocals) (cmd : List Byte) : Mem :=
  (parseInput cmd loc.exec loc.args bufSize).2

/-- How many header bytes come from the file of inode `n`. -/
def headerCount (img : Image) (n : Word) : Nat :=
  if n.toNat < img.numInode.toNat then
    Nat.min exeHeaderSz (fileLength img n).toNat
  else 0

theorem headerCount_le (img : Image) (n : Word) : headerCount img n ≤ 28 := by
  unfold headerCount
  split
  · exact Nat.min_le_left _ _
  · omega

/--
The header buffer after the read: the file's first bytes, and behind a shorter
file whatever the buffer held before.
-/
def headerBuf (img : Image) (loc : ExecLocals) (n : Word) : Mem := fun j =>
  if j < headerCount img n then
    img.byte (blockSize * (1 + img.numInode.toNat) +
      blockSize * (img.word (blockSize * (1 + n.toNat) + 4)).toNat + j)
  else loc.buf j

/-- `cmd` names a regular file with the magic number, and `n` is its inode. -/
def HeaderOf (img : Image) (loc : ExecLocals) (cmd : List Byte) (n : Word) : Prop :=
  ∃ i, dentrySearch img (execName loc cmd) img.numDentry.toNat 0 = some i ∧
    img.ftype i = ftypeRegular ∧ img.inodeNum i = n ∧ loadWord (headerBuf img loc n) 0 = magicNum

/-- A search answers with an index inside the directory. -/
theorem dentrySearch_lt {img : Image} {name : Mem} : ∀ {fuel i j : Nat},
    dentrySearch img name fuel i = some j → i ≤ j ∧ j < i + fuel
  | 0, _, _, h => by simp [dentrySearch] at h
  | fuel + 1, i, j, h => by
      rw [dentrySearch] at h
      split at h
      · cases h; omega
      · have := dentrySearch_lt h; omega

/-- A lookup that finds entry `i` of a regular file: status, type and inode. -/
theorem readDentryByName_found {img : Image} {name : Mem} {d : Dentry} {i : Nat}
    (h : dentrySearch img name img.numDentry.toNat 0 = some i) :
    (readDentryByName img name d).1 = 0 ∧ (readDentryByName img name d).2.ftype = img.ftype i ∧
      (img.ftype i = ftypeRegular → (readDentryByName img name d).2.inodeNum = img.inodeNum i) := by
  have hlt := dentrySearch_lt h
  unfold readDentryByName readDentryByIndex
  rw [h]
  dsimp only
  rw [if_neg (by omega)]
  split
  · exact ⟨rfl, rfl, fun _ => rfl⟩
  · rename_i hne
    exact ⟨rfl, rfl, fun hr => absurd hr hne⟩

theorem readDentryByName_missing {img : Image} {name : Mem} {d : Dentry}
    (h : dentrySearch img name img.numDentry.toNat 0 = none) :
    readDentryByName img name d = (-1, d) := by
  unfold readDentryByName; rw [h]

theorem readEnd_header (img : Image) (n : Word) :
    (readEnd img n 0 (BitVec.ofNat 32 exeHeaderSz)).toNat
      = Nat.min exeHeaderSz (fileLength img n).toNat := by
  have h28 : ((0 : Word) + BitVec.ofNat 32 exeHeaderSz).toNat = 28 := by decide
  unfold readEnd
  simp only [Nat.min_def]
  split
  · rename_i hgt
    have hlt : (fileLength img n).toNat < 28 := by rw [← h28]; exact hgt
    rw [if_neg (by simp only [exeHeaderSz]; omega)]
  · rename_i hle
    have hge : ¬ (fileLength img n).toNat < 28 := by rw [← h28]; exact hle
    rw [h28, if_pos (by simp only [exeHeaderSz]; omega)]
    rfl

/-- Reading the header of a file at its start. -/
theorem readData_header (img : Image) (loc : ExecLocals) (n : Word) :
    (readData img n 0 0 (BitVec.ofNat 32 exeHeaderSz) loc.buf).2 = headerBuf img loc n := by
  funext j
  unfold readData headerBuf headerCount
  by_cases hn : n.toNat ≥ img.numInode.toNat
  · have hn' : ¬ n.toNat < img.numInode.toNat := by omega
    rw [if_pos hn]
    simp [hn']
  · have hn' : n.toNat < img.numInode.toNat := by omega
    have hend := readEnd_header img n
    have hle : (readEnd img n 0 (BitVec.ofNat 32 exeHeaderSz)).toNat ≤ 28 := by
      rw [hend]; exact Nat.min_le_left _ _
    have hpos : ¬ readEnd img n 0 (BitVec.ofNat 32 exeHeaderSz) < 0 := by simp
    -- the header lies in the first block, so the block loop does nothing
    have hdiv : (readEnd img n 0 (BitVec.ofNat 32 exeHeaderSz)).toNat / blockSize = 0 := by
      simp only [blockSize]; omega
    have hmod : (readEnd img n 0 (BitVec.ofNat 32 exeHeaderSz)).toNat % blockSize
        = (readEnd img n 0 (BitVec.ofNat 32 exeHeaderSz)).toNat := by
      simp only [blockSize]; omega
    rw [if_neg hn, if_pos hn', if_neg hpos]
    unfold readRange
    rw [hdiv]
    simp only [readBlocks]
    rw [hmod, hend, memcpy_apply]
    simp

theorem readCount_header (img : Image) (n : Word) :
    (readCount img n 0 (BitVec.ofNat 32 exeHeaderSz) < 0 ∧ headerCount img n = 0) ∨
      readCount img n 0 (BitVec.ofNat 32 exeHeaderSz) = headerCount img n := by
  unfold readCount headerCount
  by_cases hn : n.toNat ≥ img.numInode.toNat
  · left
    rw [if_pos hn, if_neg (by omega)]
    exact ⟨by decide, rfl⟩
  · right
    have hend := readEnd_header img n
    have hle : Nat.min exeHeaderSz (fileLength img n).toNat ≤ 28 := Nat.min_le_left _ _
    have hsub : readEnd img n 0 (BitVec.ofNat 32 exeHeaderSz) - 0
        = readEnd img n 0 (BitVec.ofNat 32 exeHeaderSz) := BitVec.sub_zero _
    rw [if_neg hn, if_neg (by simp), if_pos (by omega), hsub,
      BitVec.toInt_eq_toNat_of_lt (by rw [hend]; omega), hend]

/-- The header read: the buffer it leaves, and the position it advances to. -/
theorem regularRead_header (img : Image) (loc : ExecLocals) (f : File) (hp : f.pos = 0) :
    (regularRead img f 0 (BitVec.ofNat 32 exeHeaderSz) loc.buf).2
      = ({ f with pos := BitVec.ofNat 32 (headerCount img f.inode) },
          headerBuf img loc f.inode) := by
  have hbuf := readData_header img loc f.inode
  have hcnt := readData_count img f.inode 0 (BitVec.ofNat 32 exeHeaderSz) 0 loc.buf
  unfold regularRead
  rw [hp]
  generalize readData img f.inode 0 0 (BitVec.ofNat 32 exeHeaderSz) loc.buf = r at hbuf hcnt
  obtain ⟨c, m⟩ := r
  dsimp only at hbuf hcnt ⊢
  subst hbuf
  rcases readCount_header img f.inode with ⟨h1, h2⟩ | h
  · rw [if_pos (by omega), h2]
    cases f
    cases hp
    rfl
  · rw [if_neg (by omega), hcnt, h]
    simp

/-- Opening a regular file that is there. -/
theorem kopen_regular {img : Image} {d : Dentry} {f : File} {name : Mem} {i : Nat}
    (h : dentrySearch img name img.numDentry.toNat 0 = some i)
    (hr : img.ftype i = ftypeRegular) :
    kopen img d f name = some (0, ⟨.regular, img.inodeNum i, 0, f.flags⟩) := by
  obtain ⟨h1, h2, h3⟩ := readDentryByName_found (d := d) h
  unfold kopen
  generalize readDentryByName img name d = r at h1 h2 h3
  obtain ⟨status, d'⟩ := r
  dsimp only at h1 h2 h3 ⊢
  rw [if_neg (by simp [h1]), if_pos (by rw [h2, hr]), h3 hr]
  rfl

theorem kopen_missing {img : Image} {d : Dentry} {f : File} {name : Mem}
    (h : dentrySearch img name img.numDentry.toNat 0 = none) :
    kopen img d f name = some (-1, f) := by
  unfold kopen
  rw [readDentryByName_missing h]
  rfl

/-- The open file the loader holds after the header of inode `n`. -/
def headerFile (img : Image) (loc : ExecLocals) (n : Word) : File :=
  ⟨.regular, n, BitVec.ofNat 32 (headerCount img n), loc.f.flags⟩

/--
**The loader's checks, in terms of the image.** They end in `FAIL` unless the
first word names a regular file whose header buffer starts with the magic number.
-/
theorem loadHeader_cases (img : Image) (loc : ExecLocals) (cmd : List Byte) :
    (loadHeader img loc cmd = some none ∧ ∀ n, ¬ HeaderOf img loc cmd n) ∨
      ∃ n, HeaderOf img loc cmd n ∧ loadHeader img loc cmd =
        some (some (headerFile img loc n, headerBuf img loc n, execArgs loc cmd)) := by
  unfold loadHeader
  dsimp only
  rw [show (parseInput cmd loc.exec loc.args bufSize).1 = execName loc cmd from rfl,
    show (parseInput cmd loc.exec loc.args bufSize).2 = execArgs loc cmd from rfl]
  cases hs : dentrySearch img (execName loc cmd) img.numDentry.toNat 0 with
  | none =>
      left
      refine ⟨?_, fun n => fun ⟨i, hi, _⟩ => by rw [hs] at hi; cases hi⟩
      rw [readDentryByName_missing hs, kopen_missing hs]
      dsimp only
      split <;> rfl
  | some i =>
      have hfound := readDentryByName_found (d := loc.d) hs
      by_cases hr : img.ftype i = ftypeRegular
      · rw [if_neg (by rw [hfound.2.1, hr]; simp), kopen_regular hs hr]
        dsimp only [kread]
        rw [if_neg (by simp)]
        have hread := regularRead_header img loc ⟨.regular, img.inodeNum i, 0, loc.f.flags⟩ rfl
        generalize regularRead img ⟨.regular, img.inodeNum i, 0, loc.f.flags⟩ 0
          (BitVec.ofNat 32 exeHeaderSz) loc.buf = r at hread
        obtain ⟨c, f, m⟩ := r
        dsimp only at hread ⊢
        cases hread
        by_cases hm : loadWord (headerBuf img loc (img.inodeNum i)) 0 = magicNum
        · right
          exact ⟨img.inodeNum i, ⟨i, hs, hr, rfl, hm⟩, by rw [if_neg (by simp [hm])]; rfl⟩
        · left
          refine ⟨if_pos hm, ?_⟩
          rintro n ⟨j, hj, _, hjn, hjm⟩
          rw [hs] at hj; cases hj
          rw [← hjn] at hjm
          exact hm hjm
      · left
        refine ⟨if_pos (by rw [hfound.2.1]; exact hr), ?_⟩
        rintro n ⟨j, hj, hjr, _⟩
        rw [hs] at hj; cases hj
        exact hr hjr

/-- The inode a command loads from is determined by it. -/
theorem HeaderOf.unique {img : Image} {loc : ExecLocals} {cmd : List Byte} {m n : Word}
    (hm : HeaderOf img loc cmd m) (hn : HeaderOf img loc cmd n) : m = n := by
  obtain ⟨i, hi, _, him, _⟩ := hm
  obtain ⟨j, hj, _, hjn, _⟩ := hn
  rw [hi] at hj; cases hj
  rw [← him, ← hjn]

/-! ## The body -/

/-- The body of inode `n`, read behind the header, stays inside the program page. -/
def BodyFits (img : Image) (n : Word) : Prop :=
  loadAddr + exeHeaderSz + (readCount img n (BitVec.ofNat 32 (headerCount img n))
    (BitVec.ofNat 32 exeLoadSz)).toNat ≤ offset132M

/-- Loading changes the program page of the current process and its command string. -/
structure LoadedInto (k k' : Kernel) : Prop where
  procs : procs k' = procs k
  page : k'.page = k.page
  screen : k'.screen = k.screen
  term : k'.term = k.term
  keys : k'.keys = k.keys
  ram : ∀ a, a < (k.task.currentProcess + 1) * offset4M ∨
    (k.task.currentProcess + 2) * offset4M ≤ a → k'.ram a = k.ram a

theorem bodyFile_range (img : Image) (loc : ExecLocals) (n : Word) :
    (headerFile img loc n).pos.toNat + (BitVec.ofNat 32 exeLoadSz).toNat < 2147483648 := by
  have hcount := headerCount_le img n
  have hsz : (BitVec.ofNat 32 exeLoadSz).toNat = 3899392 := by decide
  have hpos : (headerFile img loc n).pos.toNat = headerCount img n := by
    show (BitVec.ofNat 32 (headerCount img n)).toNat = _
    rw [BitVec.toNat_ofNat]; omega
  omega

/--
**What a load into a fresh process does.** The process table stays as
`setup_new_process` left it, and the value returned is the word at offset 24 of
the header buffer.
-/
theorem loadBody_spec (img : Image) (loc : ExecLocals) (n : Word) (buf args : Mem) (k : Kernel) :
    ∃ k', LoadedInto k k' ∧
      ((BodyFits img n ∧
          loadBody img loc (headerFile img loc n) buf args k
            = some (.returned (loadWord buf 24), k')) ∨
        (¬ BodyFits img n ∧
          loadBody img loc (headerFile img loc n) buf args k = some (.faulted, k'))) := by
  obtain ⟨mem, hmem⟩ : ∃ mem, mem = userPhys k.task.currentProcess loadAddr := ⟨_, rfl⟩
  obtain ⟨ram, hram⟩ : ∃ ram, ram = memcpy k.ram mem buf exeHeaderSz := ⟨_, rfl⟩
  have hmem' : mem = (k.task.currentProcess + 1) * offset4M + 294912 := hmem
  have hcnt := regularRead_count_toNat img (headerFile img loc n) (mem + exeHeaderSz)
    (BitVec.ofNat 32 exeLoadSz) ram
  have hframe : ∀ a, a < mem + exeHeaderSz ∨ mem + exeHeaderSz + (readCount img n
      (BitVec.ofNat 32 (headerCount img n)) (BitVec.ofNat 32 exeLoadSz)).toNat ≤ a →
      (regularRead img (headerFile img loc n) (mem + exeHeaderSz) (BitVec.ofNat 32 exeLoadSz)
        ram).2.2 a = ram a :=
    fun a ha => by
      rw [regularRead_copy img _ _ _ _ (bodyFile_range img loc n), memcpy_apply]
      exact if_neg fun hin => by dsimp only [headerFile] at hin; omega
  have hheader : ∀ a, a < mem ∨ mem + 28 ≤ a → ram a = k.ram a := by
    intro a ha
    rw [hram, memcpy_apply, if_neg (by simp only [exeHeaderSz]; omega)]
  unfold loadBody
  dsimp only [kread, headerFile]
  rw [← hmem, ← hram]
  dsimp only [headerFile] at hcnt hframe
  generalize regularRead img ⟨.regular, n, BitVec.ofNat 32 (headerCount img n), loc.f.flags⟩
    (mem + exeHeaderSz) (BitVec.ofNat 32 exeLoadSz) ram = r at hcnt hframe
  obtain ⟨c, f, m⟩ := r
  dsimp only at hcnt hframe ⊢
  rw [hcnt]
  by_cases hfit : BodyFits img n
  · rw [if_neg (by unfold BodyFits at hfit; omega)]
    -- the body goes behind the header, so the entry word is the header's
    have hentry : loadWord m (mem + 24) = loadWord buf 24 := by
      refine loadWord_congr ?_
      intro i hi
      rw [hframe (mem + 24 + i) (.inl (by simp only [exeHeaderSz]; omega)), hram, memcpy_apply,
        if_pos (by simp only [exeHeaderSz]; omega)]
      congr 1; omega
    refine ⟨_, ?_, .inl ⟨hfit, by rw [hentry]⟩⟩
    refine ⟨?_, rfl, rfl, rfl, rfl, ?_⟩
    · simp only [procs, Kernel.setPcb]
      congr 1 <;> funext p <;> by_cases hp : p = k.task.currentProcess <;> simp [hp]
    · intro a ha
      show m a = k.ram a
      simp only [BodyFits, loadAddr, exeHeaderSz, offset132M, offset4M] at hfit
      simp only [offset4M] at ha hmem'
      simp only [exeHeaderSz] at hframe
      rw [hframe a (by omega), hheader a (by omega)]
  · rw [if_pos (by unfold BodyFits at hfit; omega)]
    refine ⟨{ k with ram := ram }, ⟨rfl, rfl, rfl, rfl, rfl, ?_⟩, .inr ⟨hfit, rfl⟩⟩
    intro a ha
    simp only [offset4M] at ha hmem'
    exact hheader a (by omega)

end Zbiggie.Proof
