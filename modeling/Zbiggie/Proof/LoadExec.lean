import Zbiggie.Proof.CommandLine
import Zbiggie.Proof.Directory
import Zbiggie.Proof.FileReads

/-!
# What the loader loads

The file goes into memory in two reads. The first, of 28 bytes, is made before there
is a process to load into, and its bytes are copied over afterwards; the second goes
straight to the program page and takes up the position the first left. Together they
are one copy of the whole file, since each is a copy of a slice and the slices meet.

Around it: the command is taken apart into a file name and the arguments, which are
two pieces of it, and the name is looked up as it stands.
-/

namespace Zbiggie.Proof

open Zbiggie Machine

/-! ## The command line -/

/-- The lookup sees of a name what lies before its terminator. -/
theorem dentrySearch_congr {img : Image} {name name' : Mem} (fuel i : Nat)
    (h : upToNul name (fnameMaxLen - 1) 0 = upToNul name' (fnameMaxLen - 1) 0) :
    dentrySearch img name fuel i = dentrySearch img name' fuel i := by
  have hfound : ∀ j, Found img name j ↔ Found img name' j := by
    intro j
    unfold Found
    rw [h]
  refine Option.ext ?_
  intro j
  rw [dentrySearch_some_iff, dentrySearch_some_iff, hfound]
  simp only [hfound]

/-- The name in `exec` is looked up as what was copied of the first word. -/
theorem dentrySearch_execName (img : Image) (loc : ExecLocals) (cmd : List Byte) :
    dentrySearch img (execName loc cmd) img.numDentry.toNat 0
      = dentrySearch img (cstr (wordCopied bufSize cmd)) img.numDentry.toNat 0 := by
  refine dentrySearch_congr _ _ ?_
  have hname : Holds (execName loc cmd) (wordCopied bufSize cmd) :=
    parseInput_exec cmd loc.exec loc.args bufSize
  rw [upToNul_of_reads (zero_not_mem_wordCopied bufSize cmd) fun j _ hj => hname j hj,
    upToNul_of_reads (zero_not_mem_wordCopied bufSize cmd) fun _ _ _ => rfl]

/-- What the PCB gets of the arguments of a command that fits its buffers: all of them. -/
theorem strncpy_execArgs {cmd : List Byte} (hlen : cmd.length ≤ bufSize) (loc : ExecLocals)
    (dest : Mem) {j : Nat} (hj : j < bufSize) :
    strncpy dest (execArgs loc cmd) bufSize j = cstr (argPart cmd) j := by
  have hle := argPart_length_le cmd
  have hargs : Holds (execArgs loc cmd) (argPart cmd) :=
    (copied_of_length_le hlen).2 ▸ parseInput_args cmd loc.exec loc.args bufSize
  rw [strncpy_apply, if_pos hj,
    upToNul_of_reads (zero_not_mem_argPart cmd) fun j _ hj => hargs j hj,
    List.take_of_length_le (by omega)]
  rfl

/-! ## The two reads -/

section Load

variable {img : Image} {loc : ExecLocals} {n : Word}

/-- The bytes of the header that come from the file are the file's. -/
theorem headerBuf_of_lt (loc : ExecLocals) {j : Nat} (hj : j < headerCount img n) :
    headerBuf img loc n j = img.fileByte n.toNat j := by
  have hle := headerCount_le img n
  have hdiv : j / blockSize = 0 := by
    simp only [blockSize]; omega
  have hmod : j % blockSize = j := by
    simp only [blockSize]; omega
  unfold headerBuf Image.fileByte Image.datablockNum
  rw [if_pos hj, hdiv, hmod]

/-- A file with a whole header gives all 28 bytes of it. -/
theorem headerCount_eq (hn : n.toNat < img.numInode.toNat) (hlen : 28 ≤ (fileLength img n).toNat) :
    headerCount img n = 28 := by
  unfold headerCount
  rw [if_pos hn]
  exact Nat.min_eq_left hlen

theorem headerBuf_eq (hn : n.toNat < img.numInode.toNat) (hlen : 28 ≤ (fileLength img n).toNat)
    {j : Nat} (hj : j < 28) : headerBuf img loc n j = img.fileByte n.toNat j :=
  headerBuf_of_lt loc (by rw [headerCount_eq hn hlen]; exact hj)

/-- The little-endian word at byte `i` of a file. -/
def fileWord (img : Image) (inode i : Nat) : Word := loadWord (img.fileByte inode) i

/-- The second read of the loader. -/
def bodyCall (loc : ExecLocals) (mem : Nat) (ram : Mem) : ReadCall :=
  ⟨mem + exeHeaderSz, BitVec.ofNat 32 exeLoadSz, ram, loc.dentry, ⟨0, ram⟩⟩

/--
**The load.** In a process that has been set up, the two reads leave the whole file
at the load address and nothing else anywhere, and the arguments in the PCB.
-/
theorem loadBody_eq (hn : n.toNat < img.numInode.toNat) (hlo : 28 ≤ (fileLength img n).toNat)
    (hhi : (fileLength img n).toNat ≤ offset132M - loadAddr) (args : Mem) (k : Kernel) :
    ∃ k', loadBody img loc (headerFile img loc n) (headerBuf img loc n) args k
        = some (.returned (fileWord img n.toNat 24), k') ∧
      k'.ram = memcpy k.ram (userPhys k.task.currentProcess loadAddr) (img.fileFrom n.toNat 0)
        (fileLength img n).toNat ∧
      k'.task.currentProcess = k.task.currentProcess ∧
      (k'.task.pcb k.task.currentProcess).cmdstring
        = strncpy (k.task.pcb k.task.currentProcess).cmdstring args bufSize := by
  have hroom : offset132M - loadAddr = 3899392 := rfl
  have hmax : maxLength = 4190208 := rfl
  have hcount := headerCount_eq hn hlo
  obtain ⟨mem, hmem⟩ : ∃ mem, mem = userPhys k.task.currentProcess loadAddr := ⟨_, rfl⟩
  -- the header copy, and where the second read goes on
  have hheader : memcpy k.ram mem (headerBuf img loc n) exeHeaderSz
      = memcpy k.ram mem (img.fileFrom n.toNat 0) 28 := by
    refine memcpy_congr _ _ ?_
    intro j hj
    rw [headerBuf_eq hn hlo hj]
    unfold Image.fileFrom
    rw [Nat.zero_add]
  have hfile : headerFile img loc n = regularAt n loc.f.flags 28 := by
    unfold headerFile regularAt
    rw [hcount]
  have hportion : portion (fileLength img n).toNat 28 (BitVec.ofNat 32 exeLoadSz).toNat
      = (fileLength img n).toNat - 28 := by
    have hsz : (BitVec.ofNat 32 exeLoadSz).toNat = 3899392 := rfl
    unfold portion
    omega
  have hread := kread_regularAt loc.f.flags hn (by omega) hlo
    (bodyCall loc mem (memcpy k.ram mem (img.fileFrom n.toNat 0) 28))
    (by show (3899392 : Nat) < _; omega)
  dsimp only [bodyCall] at hread
  rw [hportion] at hread
  -- the two copies meet
  have hram : memcpy (memcpy k.ram mem (img.fileFrom n.toNat 0) 28) (mem + exeHeaderSz)
      (img.fileFrom n.toNat 28) ((fileLength img n).toNat - 28)
      = memcpy k.ram mem (img.fileFrom n.toNat 0) (fileLength img n).toNat := by
    have happ := memcpy_fileFrom img n.toNat 0 mem 28 ((fileLength img n).toNat - 28) k.ram
    rw [Nat.zero_add, show 28 + ((fileLength img n).toNat - 28) = (fileLength img n).toNat by omega]
      at happ
    exact happ
  have hentry : loadWord (memcpy k.ram mem (img.fileFrom n.toNat 0) (fileLength img n).toNat)
      (mem + 24) = fileWord img n.toNat 24 := by
    refine loadWord_congr ?_
    intro i hi
    rw [memcpy_apply, if_pos (by omega), show mem + 24 + i - mem = 24 + i by omega]
    unfold Image.fileFrom
    rw [Nat.zero_add]
  unfold loadBody
  dsimp only
  rw [← hmem, hheader, hfile, hread]
  dsimp only
  rw [if_neg (by simp only [loadAddr, offset132M, offset4M, exeHeaderSz] at hhi ⊢; omega), hram,
    hentry]
  exact ⟨_, rfl, rfl, rfl, by simp⟩

end Load

/-! ## The loader -/

theorem userPhys_add (pid i : Nat) : userPhys pid (loadAddr + i) = userPhys pid loadAddr + i := by
  simp only [userPhys, loadAddr, offset128M, offset4M]
  omega

/-- The lookup that succeeds has found an entry. -/
theorem dentrySearch_of_found {img : Image} {name : Mem} {d e : Dentry}
    (hfind : readDentryByName img name d = (0, e)) (hreg : e.ftype = ftypeRegular) :
    ∃ i, dentrySearch img name img.numDentry.toNat 0 = some i ∧ img.ftype i = ftypeRegular ∧
      img.inodeNum i = e.inodeNum := by
  cases hs : dentrySearch img name img.numDentry.toNat 0 with
  | none =>
      rw [readDentryByName_missing hs] at hfind
      cases hfind
  | some i =>
      obtain ⟨_, hft, hino⟩ := readDentryByName_found (d := d) hs
      rw [hfind] at hft hino
      have hreg' : img.ftype i = ftypeRegular := hft.symm.trans hreg
      exact ⟨i, rfl, hreg', (hino hreg').symm⟩

/-- A process `pid` in which the file of inode `n` was loaded for `cmd`, from a kernel `k`. -/
structure HoldsProgram (img : Image) (n : Word) (cmd : List Byte) (k : Kernel) (pid : Nat)
    (k' : Kernel) : Prop where
  current : k'.task.currentProcess = pid
  /-- The file lies at the load address. -/
  program : ∀ i, i < (fileLength img n).toNat →
    k'.ram (userPhys pid (loadAddr + i)) = img.fileByte n.toNat i
  /-- No other byte of user memory was written. -/
  frame : ∀ a, (∀ i, i < (fileLength img n).toNat → a ≠ userPhys pid (loadAddr + i)) →
    k'.ram a = k.ram a
  /-- The arguments are there for `getargs`. -/
  arguments : ∀ j, j < bufSize → (k'.task.pcb pid).cmdstring j = cstr (argPart cmd) j

/--
**The loader loads the file.** For every image, every command of fewer than 128 bytes
whose first word is found as a regular file that has the magic number, has a header
and fits the program page, and every state with a free PCB: the first free PCB gets
the program and the arguments, no other user byte is written, and the answer is the
entry word of the file.
-/
theorem load_exec_to_mem_loads (L : Layout) {img : Image} (loc : ExecLocals) {cmd : List Byte}
    {k : Kernel} {d e : Dentry} (hcmd : cmd.length < 128)
    (hfind : readDentryByName img (cstr (firstWord cmd)) d = (0, e)) (hreg : e.ftype = ftypeRegular)
    (hn : e.inodeNum.toNat < img.numInode.toNat)
    (hlo : 28 ≤ (fileLength img e.inodeNum).toNat)
    (hhi : (fileLength img e.inodeNum).toNat ≤ offset132M - loadAddr)
    (hmagic : fileWord img e.inodeNum.toNat 0 = magicNum) (hfree : ¬ Full (procs k).present) :
    ∃ pid k', FirstFree (procs k).present pid ∧
      loadExecToMem L img loc cmd k = some (.returned (fileWord img e.inodeNum.toNat 24), k') ∧
      HoldsProgram img e.inodeNum cmd k pid k' := by
  have hbuf : cmd.length ≤ bufSize := Nat.le_of_lt hcmd
  obtain ⟨i, hsearch, hft, hino⟩ := dentrySearch_of_found hfind hreg
  have hheader : HeaderOf img loc cmd e.inodeNum := by
    refine ⟨i, ?_, hft, hino, ?_⟩
    · rw [dentrySearch_execName, (copied_of_length_le hbuf).1]
      exact hsearch
    rw [← hmagic]
    exact loadWord_congr fun j hj => headerBuf_eq hn hlo (by omega)
  -- a process is set up in the first free PCB
  obtain ⟨pid, hpid⟩ : ∃ pid, findFreePcb (saveHist cmd k) = some pid := by
    cases hf : findFreePcb (saveHist cmd k) with
    | none => exact absurd (findFreePcb_none hf) hfree
    | some pid => exact ⟨pid, rfl⟩
  obtain ⟨k', hload, hram, hcur, hargs⟩ := loadBody_eq hn hlo hhi (execArgs loc cmd)
    (newProcess L pid (saveHist cmd k))
  have hcur' : (newProcess L pid (saveHist cmd k)).task.currentProcess = pid := rfl
  rw [hcur'] at hram hcur hargs
  refine ⟨pid, k', findFreePcb_some hpid, ?_, hcur, ?_, ?_, ?_⟩
  · unfold loadExecToMem kloadExecToMem
    rcases loadHeader_cases img loc cmd with ⟨_, hno⟩ | ⟨n, hn', hl⟩
    · exact absurd hheader (hno _)
    · rw [hl]
      dsimp only
      rw [setupNewProcess_eq, hpid, hn'.unique hheader]
      exact hload
  · intro j hj
    rw [hram, userPhys_add, memcpy_apply, if_pos (by omega), Nat.add_sub_cancel_left]
    unfold Image.fileFrom
    rw [Nat.zero_add]
  · intro a ha
    rw [hram, memcpy_apply, if_neg]
    · rfl
    · intro hin
      refine ha (a - userPhys pid loadAddr) (by omega) ?_
      rw [userPhys_add]
      omega
  · intro j hj
    rw [hargs]
    exact strncpy_execArgs hbuf loc _ hj

/-- A program of two instructions behind its header: `movl $1, %eax` and `int $0x80`. -/
def haltProgram : List Byte := headerOnly 0x40 ++ [0xB8, 0x01, 0x00, 0x00, 0x00, 0xCD, 0x80]

/-- The command "a b", on a disk whose file "a" is that program. -/
theorem load_exec_to_mem_program : ∃ pid k',
    loadExecToMem someLayout (oneFile [0x61] haltProgram) someLocals [0x61, 0x20, 0x62] .zero
        = some (.returned 0x40, k') ∧
      HoldsProgram (oneFile [0x61] haltProgram) 0 [0x61, 0x20, 0x62] .zero pid k' ∧
      argPart [0x61, 0x20, 0x62] = [0x62] := by
  obtain ⟨e, he⟩ : ∃ e, e = (readDentryByName (oneFile [0x61] haltProgram)
    (cstr (firstWord [0x61, 0x20, 0x62])) someLocals.d).2 := ⟨_, rfl⟩
  have hstatus : (readDentryByName (oneFile [0x61] haltProgram)
      (cstr (firstWord [0x61, 0x20, 0x62])) someLocals.d).1 = 0 := by decide
  have hfind : readDentryByName (oneFile [0x61] haltProgram)
      (cstr (firstWord [0x61, 0x20, 0x62])) someLocals.d = (0, e) := Prod.ext hstatus he.symm
  have hreg : e.ftype = ftypeRegular := by
    rw [he]; decide
  have hnum : e.inodeNum = 0 := by
    rw [he]; decide
  have hlen : (fileLength (oneFile [0x61] haltProgram) 0).toNat = 35 := by decide
  have hroom : ¬ Full (procs Kernel.zero).present := fun hf => nomatch hf 1 (by decide) (by decide)
  obtain ⟨pid, k', _, hload, hprog⟩ := load_exec_to_mem_loads someLayout someLocals
    (by decide) hfind hreg (by rw [hnum]; decide) (by rw [hnum, hlen]; decide)
    (by rw [hnum, hlen]; decide) (by rw [hnum]; decide) hroom
  have hentry : fileWord (oneFile [0x61] haltProgram) (0 : Word).toNat 24 = 0x40 := by decide
  rw [hnum] at hload hprog
  rw [hentry] at hload
  exact ⟨pid, k', hload, hprog, by decide⟩

end Zbiggie.Proof
