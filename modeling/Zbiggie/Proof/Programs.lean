import Zbiggie.Proof.Arguments
import Zbiggie.Proof.Directory
import Zbiggie.User.Programs

/-!
# What `cat` and `ls` print

The whole way of a command line: `execute` starts the program and keeps its arguments,
`getargs` hands them over, `open` looks the name up, `read` delivers the file piece by
piece and `write` passes each piece on. Every link of the chain has been looked at by
itself; here they are put together, with the rest of the machine doing what it likes in
between as long as it leaves the process its files, its arguments and its page.
-/

namespace Zbiggie.Proof

open Zbiggie Machine

/-- Two machines that are the same to the process that is running. -/
structure SameProcess (k k' : Kernel) : Prop where
  current : k'.task.currentProcess = k.task.currentProcess
  files : k'.currentPcb.f = k.currentPcb.f
  args : k'.currentPcb.cmdstring = k.currentPcb.cmdstring
  page : ∀ v, offset128M ≤ v → v < offset132M →
    k'.ram (userPhys k.task.currentProcess v) = k.ram (userPhys k.task.currentProcess v)

/-- Whatever happens between two calls of the process, it cannot tell. -/
def SparesCaller (w : World) : Prop := ∀ n k, SameProcess k (w.meanwhile n k)

/-- The process's own memory stays what it was. -/
theorem SameProcess.userMem {k k' : Kernel} (h : SameProcess k k') {p : Word} {n i : Nat}
    (hp : UserRange p n) (hi : i < n) : userMem k' p i = userMem k p i := by
  unfold Zbiggie.userMem
  rw [h.current]
  exact h.page _ (by have := hp.1; omega) (by have := hp.2; omega)

theorem userPhys_userRange {p : Word} {n : Nat} (hp : UserRange p n) (pid i : Nat) :
    userPhys pid (p.toNat + i) = userPhys pid p.toNat + i := by
  have := hp.1
  unfold userPhys
  omega

theorem userMem_userStore_self (k : Kernel) (p : Word) (n : Nat) (b : Byte) :
    userMem (userStore k (p.toNat + n) b) p n = b := by
  unfold userMem userStore
  simp only [store_self]

theorem userMem_userStore_of_ne {p : Word} {c n j : Nat} (hp : UserRange p c) (hj : j ≠ n)
    (k : Kernel) (b : Byte) : userMem (userStore k (p.toNat + n) b) p j = userMem k p j := by
  have hne : userPhys k.task.currentProcess (p.toNat + j) ≠
      userPhys k.task.currentProcess (p.toNat + n) := by
    rw [userPhys_userRange hp, userPhys_userRange hp]
    omega
  unfold userMem userStore
  simp only [store_of_ne hne]

/-! ## A read and a write, through the descriptor -/

theorem getFile_of_inUse {k : Kernel} {i : Fin 8} (h : (k.currentPcb.f i).inUse = true) :
    getFile k (BitVec.ofInt 32 ((i : Nat) : Int)).toInt = some i := by
  have hi := i.isLt
  have hint : (BitVec.ofInt 32 ((i : Nat) : Int)).toInt = (i : Nat) := by
    rw [BitVec.toInt_ofInt]
    exact int32_of_range (by omega) (by omega)
  unfold getFile
  rw [hint, dif_pos ⟨by omega, by omega⟩]
  simp only [Int.toNat_natCast, Fin.eta, h, if_true]

/-- A read through a descriptor that is open. -/
theorem ece391Read_open {w : World} {n : Nat} {i : Fin 8} {buf nbytes : Word} {k : Kernel}
    (hw : SparesCaller w) (hbuf : UserRange buf nbytes.toNat)
    (huse : (k.currentPcb.f i).inUse = true) :
    ece391Read w n ((i : Nat) : Int) buf nbytes k =
      (kread w.img (w.d n) (w.dev n) (k.currentPcb.f i)
        (userPhys k.task.currentProcess buf.toNat) nbytes (w.meanwhile n k).ram).map
        fun (v, f, m) => (v, { setFile (w.meanwhile n k) i f with ram := m }) := by
  have hsame := hw n k
  unfold ece391Read
  dsimp only
  unfold read
  rw [if_neg hbuf.accepted_word, getFile_of_inUse (by rw [hsame.files]; exact huse)]
  simp only [Call.run, hsame.files, hsame.current]

/-- A write to the standard output. -/
theorem ece391Write_stdout {w : World} {n c : Nat} {buf : Word} {k : Kernel} (hw : SparesCaller w)
    (hbuf : UserRange buf c) (hk : TableInv k.currentPcb.f) :
    ece391Write w n 1 buf (BitVec.ofInt 32 (c : Int)) k =
      some ((c : Int), (List.range c).map (userMem k buf), w.meanwhile n k) := by
  have hsame := hw n k
  have hc : c < 2147483648 := by
    have h1 := hbuf.2
    have h2 : offset132M = 138412032 := rfl
    omega
  have hword : (BitVec.ofInt 32 (c : Int)).toNat = c := by
    rw [BitVec.ofInt_natCast, BitVec.toNat_ofNat]
    omega
  have hint : (BitVec.ofInt 32 (c : Int)).toInt = c := by
    rw [BitVec.toInt_eq_toNat_of_lt (by omega), hword]
  have huse : ((w.meanwhile n k).currentPcb.f 1).inUse = true := by
    rw [hsame.files]
    exact fdMap_ne_none.mp (by rw [hk.stdout]; simp)
  have hops : ((w.meanwhile n k).currentPcb.f 1).optable = .stdout := by
    rw [hsame.files]
    have hmap := hk.stdout
    unfold fdMap at hmap
    rw [hsame.files] at huse
    rw [if_pos huse] at hmap
    exact congrArg Entry.ops (Option.some.inj hmap)
  have hget : getFile (w.meanwhile n k) (BitVec.ofInt 32 1).toInt = some 1 :=
    getFile_of_inUse (i := 1) huse
  unfold ece391Write
  dsimp only
  unfold write
  rw [if_neg (UserRange.accepted_word (by rw [hword]; exact hbuf)), hget]
  simp only [Call.run, kwrite, hops, Option.map_some, if_true, hint, hword]
  congr 3
  refine List.map_congr_left ?_
  intro j hj
  exact hsame.userMem hbuf (List.mem_range.mp hj)

/-! ## The loop of `cat` -/

section Cat

variable {w : World} {buf inode flags : Word} {i : Fin 8}

/-- **The loop of `cat`** passes on what is left of the file, and ends. -/
theorem catLoop_regular (hw : SparesCaller w) (hbuf : UserRange buf 1024) (h2 : 2 ≤ i.val)
    (huse : (regularAt inode flags 0).inUse = true) (hn : inode.toNat < w.img.numInode.toNat)
    (hlen : (fileLength w.img inode).toNat ≤ maxLength) :
    ∀ {fuel n pos : Nat} {k : Kernel}, TableInv k.currentPcb.f →
      k.currentPcb.f i = regularAt inode flags pos → pos ≤ (fileLength w.img inode).toNat →
      (fileLength w.img inode).toNat - pos < fuel →
      ∃ k', catLoop w ((i : Nat) : Int) buf fuel n k = some (0,
        fileSlice w.img inode.toNat pos ((fileLength w.img inode).toNat - pos), k') := by
  intro fuel
  induction fuel with
  | zero => intro n pos k _ _ _ hf; omega
  | succ fuel ih =>
      intro n pos k hk hslot hpos hf
      have hsame := hw n k
      have hread := kread_regularAt flags hn hlen hpos
        ⟨userPhys k.task.currentProcess buf.toNat, 1024, (w.meanwhile n k).ram, w.d n, w.dev n⟩
        (show (1024 : Word).toNat < 2147483648 by decide)
      dsimp only at hread
      rw [show (1024 : Word).toNat = 1024 from rfl] at hread
      generalize hc : portion (fileLength w.img inode).toNat pos 1024 = c at hread
      have hcmin : c = Min.min 1024 ((fileLength w.img inode).toNat - pos) := hc.symm
      rw [catLoop, ece391Read_open hw hbuf (by rw [hslot]; exact huse), hslot, hread]
      simp only [Option.map_some]
      -- a read of nothing is the end of the file; any other goes to the screen at once
      by_cases hzero : c = 0
      · rw [if_pos (by omega)]
        rw [show (fileLength w.img inode).toNat - pos = 0 by omega]
        exact ⟨_, rfl⟩
      · rw [if_neg (by omega), if_neg (by omega)]
        have hk2 : TableInv
            (setFile (w.meanwhile n k) i (regularAt inode flags (pos + c))).currentPcb.f := by
          rw [setFile_currentPcb, hsame.files]
          exact hk.update h2 (fun _ => by simp [regularAt])
        generalize hk' : ({ setFile (w.meanwhile n k) i (regularAt inode flags (pos + c)) with
          ram := memcpy (w.meanwhile n k).ram (userPhys k.task.currentProcess buf.toNat)
            (w.img.fileFrom inode.toNat pos) c } : Kernel) = k'
        have htable : TableInv k'.currentPcb.f := by
          rw [← hk']
          exact hk2
        have hcbuf : UserRange buf c := ⟨hbuf.1, by have := hbuf.2; omega⟩
        rw [ece391Write_stdout hw hcbuf htable]
        simp only
        rw [if_neg (by omega)]
        have hslot' :
            (w.meanwhile (n + 1) k').currentPcb.f i = regularAt inode flags (pos + c) := by
          rw [(hw (n + 1) k').files, ← hk']
          show (setFile (w.meanwhile n k) i _).currentPcb.f i = _
          rw [setFile_currentPcb]
          exact Function.update_self ..
        obtain ⟨k'', hrest⟩ := ih (n := n + 2) (k := w.meanwhile (n + 1) k')
          (by rw [(hw (n + 1) k').files]; exact htable) hslot' (by omega) (by omega)
        refine ⟨k'', ?_⟩
        rw [hrest, Option.map_some]
        congr 3
        -- what is written is what was read: the buffer is spared in between
        have hout : (List.range c).map (userMem k' buf) = fileSlice w.img inode.toNat pos c := by
          rw [← bytesAt_memcpy w.img inode.toNat pos (userPhys k.task.currentProcess buf.toNat) c
            (w.meanwhile n k).ram, bytesAt, List.range'_eq_map_range, List.map_map]
          refine List.map_congr_left ?_
          intro j _
          rw [← hk']
          show memcpy _ _ _ _ (userPhys (w.meanwhile n k).task.currentProcess (buf.toNat + j)) = _
          rw [hsame.current, userPhys_userRange hbuf]
          rfl
        rw [hout, fileSlice_append]
        congr 1
        omega

/-- A device that answers nothing ends the loop at once. -/
theorem catLoop_rtc (hw : SparesCaller w) (hbuf : UserRange buf 1024) {fuel n : Nat} {k : Kernel}
    (huse : (k.currentPcb.f i).inUse = true) (hops : (k.currentPcb.f i).optable = .rtc) :
    ∃ k', catLoop w ((i : Nat) : Int) buf (fuel + 1) n k = some (0, [], k') := by
  rw [catLoop, ece391Read_open hw hbuf huse]
  simp only [kread, hops, Option.map_some, if_true]
  exact ⟨_, rfl⟩

end Cat

/-! ## The loop of `ls` -/

section Ls

variable {w : World} {buf : Word} {i : Fin 8}

/-- A line of the listing: the name in a field of 32 bytes, and a newline. -/
def lsLine (img : Image) (e : Nat) : List Byte :=
  storedName img e ++ List.replicate (fnameMaxLen - (storedName img e).length) 0 ++ [0x0A]

/-- A name cut off at 32 bytes and padded is the name and its padding. -/
theorem map_getD_storedName (img : Image) (e : Nat) :
    (List.range fnameMaxLen).map (fun j => ((storedName img e).take fnameMaxLen).getD j 0) =
      storedName img e ++ List.replicate (fnameMaxLen - (storedName img e).length) 0 := by
  have hlen : (storedName img e).length ≤ fnameMaxLen := upToNul_length_le _ _ _
  rw [List.take_of_length_le hlen]
  refine List.ext_getElem (by simp; omega) ?_
  intro j h1 h2
  rw [List.getElem_map, List.getElem_range]
  by_cases hj : j < (storedName img e).length
  · rw [List.getD_eq_getElem _ _ hj, List.getElem_append_left hj]
  · rw [List.getD_eq_default _ _ (by omega), List.getElem_append_right (by omega),
      List.getElem_replicate]

/-- **The loop of `ls`** prints a line for every entry from its position on, and ends. -/
theorem lsLoop_directory (hw : SparesCaller w) (hbuf : UserRange buf 33) (h2 : 2 ≤ i.val)
    {f : File} (huse : f.inUse = true) (hops : f.optable = .directory) :
    ∀ {fuel n p : Nat} {k : Kernel}, TableInv k.currentPcb.f → k.currentPcb.f i = seek f p →
      p ≤ w.img.numDentry.toNat → w.img.numDentry.toNat - p < fuel →
      ∃ k', lsLoop w ((i : Nat) : Int) buf fuel n k = some (0,
        (List.range' p (w.img.numDentry.toNat - p)).flatMap (lsLine w.img), k') := by
  intro fuel
  induction fuel with
  | zero => intro n p k _ _ _ hf; omega
  | succ fuel ih =>
      intro n p k hk hslot hp hf
      have hsame := hw n k
      have hnum : w.img.numDentry.toNat < 4294967296 := w.img.numDentry.isLt
      have hbuf32 : UserRange buf (32 : Word).toNat :=
        ⟨hbuf.1, by have := hbuf.2; show buf.toNat + 32 ≤ _; omega⟩
      let c : ListCall :=
        ⟨userPhys k.task.currentProcess buf.toNat, 32, (w.meanwhile n k).ram, w.d n⟩
      have hread : kread w.img (w.d n) (w.dev n) (seek f p)
          (userPhys k.task.currentProcess buf.toNat) 32 (w.meanwhile n k).ram =
            some (directoryRead w.img c.d (seek f p) c.buf c.n c.mem) := by
        unfold kread
        rw [show (seek f p).optable = .directory from hops]
      rw [lsLoop, ece391Read_open hw hbuf32 (by rw [hslot]; exact huse), hslot, hread]
      rcases Nat.lt_or_eq_of_le hp with hlt | rfl
      · have hlist := (lists_iff hlt f c).mpr fun h =>
          absurd h.2.1 (show ¬ fnameMaxLen < (32 : Word).toNat by decide)
        generalize directoryRead w.img c.d (seek f p) c.buf c.n c.mem = r at hlist
        obtain ⟨cnt, f', m⟩ := r
        obtain ⟨hcnt, hf', hname, -⟩ := hlist
        obtain rfl : cnt = 32 := hcnt
        obtain rfl : f' = seek f (p + 1) := hf'
        simp only [Option.map_some]
        rw [if_neg (by decide), if_neg (by decide)]
        -- the newline goes behind the name, into the 33rd byte
        rw [show (32 : Int).toNat = 32 from rfl]
        generalize hk' : userStore { setFile (w.meanwhile n k) i (seek f (p + 1)) with ram := m }
          (buf.toNat + 32) 0x0A = k'
        have hfiles : k'.currentPcb.f = Function.update k.currentPcb.f i (seek f (p + 1)) := by
          rw [← hk', ← hsame.files]
          exact congrArg Pcb.f (setFile_currentPcb ..)
        have htable : TableInv k'.currentPcb.f := by
          rw [hfiles]
          refine hk.update h2 fun _ => ?_
          show f.optable ≠ _
          rw [hops]
          simp
        rw [show ((32 : Int) + 1) = ((33 : Nat) : Int) from rfl, ece391Write_stdout hw hbuf htable]
        simp only
        rw [if_neg (by decide)]
        obtain ⟨k'', hrest⟩ := ih (n := n + 2) (p := p + 1) (k := w.meanwhile (n + 1) k')
          (by rw [(hw (n + 1) k').files]; exact htable)
          (by rw [(hw (n + 1) k').files, hfiles]; exact Function.update_self ..) hlt (by omega)
        refine ⟨k'', ?_⟩
        rw [hrest, Option.map_some]
        congr 3
        have hout : (List.range 33).map (userMem k' buf) = lsLine w.img p := by
          rw [List.range_succ, List.map_append, lsLine, ← map_getD_storedName]
          congr 1
          · refine List.map_congr_left ?_
            intro j hj
            have hj : j < 32 := List.mem_range.mp hj
            rw [← hk', userMem_userStore_of_ne hbuf (by omega)]
            unfold userMem
            rw [userPhys_userRange hbuf]
            show m (userPhys (w.meanwhile n k).task.currentProcess buf.toNat + j) = _
            rw [hsame.current]
            exact hname j hj
          · rw [← hk', List.map_singleton, userMem_userStore_self]
        rw [hout, show w.img.numDentry.toNat - p = (w.img.numDentry.toNat - (p + 1)) + 1 by omega,
          List.range'_succ, List.flatMap_cons]
      · rw [directoryRead_end (Nat.le_refl _) hnum, Nat.sub_self]
        exact ⟨_, rfl⟩

end Ls

/-! ## From the command line on -/

/-- A program that was just entered has its standard descriptors and no others. -/
theorem execute_files {L : Layout} {img : Image} {loc : ExecLocals} {esp : Nat} {ptr entry : Word}
    {cmd : List Byte} {k k' : Kernel}
    (h : execute L img loc esp ptr cmd k = some (.entered entry, k')) :
    k'.currentPcb.f = stdFiles := by
  rcases execute_spec L img loc esp ptr cmd k with ⟨-, hfail⟩ | ⟨-, r, k'', hr, hout⟩
  · rw [hfail] at h
    cases h
  · rw [hr] at h
    cases h
    generalize hp : procs k' = v at hout
    cases hout with
    | @entered n pid hh hfree hfit hcode =>
        have hfiles := congrArg (fun v : ProcView => v.files v.current) hp
        have halloc : ((procs k).alloc pid).files ((procs k).alloc pid).current = stdFiles :=
          Function.update_self (f := (procs k).files) ..
        exact hfiles.trans halloc

/-- `getargs` writes to the caller's buffer and nothing else. -/
theorem getargs_task {img : Image} {d : Dentry} {dev : DeviceRead} {r : Regs} {k k' : Kernel}
    {v : Int} (h : (getargs r).run img d dev r k = some (v, k')) : k'.task = k.task := by
  unfold getargs at h
  split at h
  · cases h
    rfl
  · cases h
    rfl

/-- The string a program reads at its buffer. -/
theorem upToNul_userMem {k : Kernel} {buf : Word} {a : List Byte} (ha : 0 ∉ a)
    (hlen : a.length < addressSpace)
    (h : ∀ j, j ≤ a.length → userMem k buf j = cstr a j) :
    upToNul (userMem k buf) addressSpace 0 = a := by
  rw [upToNul_of_reads ha fun j _ hj => h j hj, List.take_of_length_le (Nat.le_of_lt hlen)]

/-- Opening a name that is on the disk, in a process with a descriptor to spare. -/
theorem syscallOpen_entry {img : Image} (ht : TypesOk img) {k : Kernel}
    (hk : k.currentPcb.f = stdFiles)
    (d : Dentry) {ptr : Word} {name : List Byte} (hp : UserRange ptr name.length) {e : Nat}
    (hl : lookup img name = some e) : ∃ (fd : Fin 8) (k' : Kernel),
      syscallOpen img d ptr name k = some (((fd : Nat) : Int), k') ∧ 2 ≤ fd.val ∧
      TableInv k'.currentPcb.f ∧ (k'.currentPcb.f fd).inUse = true ∧
      Entry.ofFile (k'.currentPcb.f fd) = entryOf img e := by
  have htable : TableInv k.currentPcb.f := by
    rw [hk]
    exact tableInv_std
  obtain ⟨v, k', hopen, -, ⟨hfail, -, hok⟩, htable'⟩ := syscallOpen_meets ht htable d hp
  have hroom : ¬ ∀ i, fdMap k.currentPcb.f i ≠ none := by
    intro hall
    refine hall 2 ?_
    rw [hk]
    decide
  have hv : v ≠ -1 := by
    intro hv
    rcases hfail.mp hv with hnone | hfull
    · rw [hl] at hnone
      cases hnone
    · exact hroom hfull
  obtain ⟨fd, e', hl', hleast, rfl, hmap⟩ := hok hv
  obtain rfl : e = e' := by
    rw [hl] at hl'
    exact Option.some.inj hl'
  have hat : fdMap k'.currentPcb.f fd = some (entryOf img e) := by
    rw [hmap, Function.update_self]
  have huse : (k'.currentPcb.f fd).inUse = true := fdMap_ne_none.mp (by rw [hat]; simp)
  refine ⟨fd, k', hopen, htable.two_le hleast.1, htable', huse, ?_⟩
  unfold fdMap at hat
  rw [if_pos huse] at hat
  exact Option.some.inj hat

theorem syscallOpen_absent {img : Image} (ht : TypesOk img) {k : Kernel}
    (hk : k.currentPcb.f = stdFiles) (d : Dentry) {ptr : Word} {name : List Byte}
    (hp : UserRange ptr name.length) (hl : lookup img name = none) :
    ∃ k', syscallOpen img d ptr name k = some (-1, k') := by
  have htable : TableInv k.currentPcb.f := by
    rw [hk]
    exact tableInv_std
  obtain ⟨v, k', hopen, -, ⟨hfail, -, -⟩, -⟩ := syscallOpen_meets ht htable d hp
  rw [hfail.mpr (.inl hl)] at hopen
  exact ⟨k', hopen⟩

/-- **`main` of `cat`, up to its loop.** The arguments arrive, and are what is looked up. -/
theorem catMain_opens {L : Layout} {loc : ExecLocals} {esp : Nat} {ptr entry : Word}
    {cmd : List Byte} {k₀ k : Kernel} {w : World} (hw : SparesCaller w)
    (hexec : execute L w.img loc esp ptr cmd k₀ = some (.entered entry, k))
    (hcmd : cmd.length < 128) {buf : Word} (hbuf : UserRange buf 1024) (fuel : Nat) :
    ∃ k', k'.currentPcb.f = stdFiles ∧ UserRange buf (argPart cmd).length ∧
      catMain w fuel buf k =
        match syscallOpen w.img (w.d 1) buf (argPart cmd) k' with
        | none => none
        | some (fd, k) =>
            if fd = -1 then some (2, catNotFound, k) else catLoop w fd buf fuel 2 k := by
  have hlen := argPart_length_le cmd
  obtain ⟨-, hargs⟩ := execute_arguments (Nat.le_of_lt hcmd) hexec
  have hsame := hw 0 k
  have hstring : ∀ j, j < bufSize →
      (w.meanwhile 0 k).currentPcb.cmdstring j = cstr (argPart cmd) j := by
    intro j hj
    rw [hsame.args]
    exact hargs j hj
  obtain ⟨k₂, hget, hread⟩ := getargs_run (r := ⟨7, buf, 1024, 0⟩) w.img (w.d 0) (w.dev 0)
    (zero_not_mem_argPart cmd) hstring hbuf
  have htask := getargs_task hget
  have hsame' := hw 1 k₂
  have hfiles : (w.meanwhile 1 k₂).currentPcb.f = stdFiles := by
    rw [hsame'.files]
    unfold Kernel.currentPcb
    rw [htask]
    exact hsame.files.trans (execute_files hexec)
  -- the name is read back from the buffer that `getargs` filled
  have hname : upToNul (userMem (w.meanwhile 1 k₂) buf) addressSpace 0 = argPart cmd := by
    refine upToNul_userMem (zero_not_mem_argPart cmd) (show _ < 0x100000000 by omega) ?_
    intro j hj
    rw [hsame'.userMem hbuf (show j < 1024 by omega)]
    unfold userMem
    rw [htask]
    exact hread j (show j < 1024 by omega) (show j < 128 by omega)
  refine ⟨w.meanwhile 1 k₂, hfiles, ⟨hbuf.1, by have := hbuf.2; omega⟩, ?_⟩
  have hopen : ece391Open w 1 buf k₂ =
      syscallOpen w.img (w.d 1) buf (argPart cmd) (w.meanwhile 1 k₂) := by
    unfold ece391Open
    dsimp only
    rw [hname]
  unfold catMain ece391Getargs
  dsimp only
  rw [hget]
  cases hres : syscallOpen w.img (w.d 1) buf (argPart cmd) (w.meanwhile 1 k₂) with
  | none => simp only [ne_eq, not_true, if_false, hopen, hres]
  | some r => simp only [ne_eq, not_true, if_false, hopen, hres]

/--
**What `cat` prints.** For every command line that `execute` starts a program for, with
whatever else goes on in the machine: `cat` prints the file its arguments name, byte for
byte and nothing else, and exits with `0`; of the clock it prints nothing; and when the
name is not on the disk it says so and exits with `2`.
-/
theorem cat_prints_the_file {L : Layout} {loc : ExecLocals} {esp : Nat} {ptr entry : Word}
    {cmd : List Byte} {k₀ k : Kernel} {w : World} (hw : SparesCaller w)
    (hexec : execute L w.img loc esp ptr cmd k₀ = some (.entered entry, k))
    (hcmd : cmd.length < 128) (ht : TypesOk w.img) {buf : Word} (hbuf : UserRange buf 1024)
    (fuel : Nat) :
    (lookup w.img (argPart cmd) = none → ∃ k', catMain w fuel buf k = some (2, catNotFound, k')) ∧
      ∀ e, lookup w.img (argPart cmd) = some e →
        (w.img.ftype e = ftypeSpecial → 0 < fuel →
          ∃ k', catMain w fuel buf k = some (0, [], k')) ∧
        (w.img.ftype e = ftypeRegular → (w.img.inodeNum e).toNat < w.img.numInode.toNat →
          (fileLength w.img (w.img.inodeNum e)).toNat ≤ maxLength →
          (fileLength w.img (w.img.inodeNum e)).toNat < fuel →
          ∃ k', catMain w fuel buf k = some (0, fileSlice w.img (w.img.inodeNum e).toNat 0
            (fileLength w.img (w.img.inodeNum e)).toNat, k')) := by
  obtain ⟨k', hfiles, hname, hmain⟩ := catMain_opens hw hexec hcmd hbuf fuel
  rw [hmain]
  constructor
  · intro hl
    obtain ⟨k'', hopen⟩ := syscallOpen_absent ht hfiles (w.d 1) hname hl
    rw [hopen]
    exact ⟨k'', rfl⟩
  · intro e hl
    obtain ⟨fd, k'', hopen, h2, htable, huse, hentry⟩ :=
      syscallOpen_entry ht hfiles (w.d 1) hname hl
    rw [hopen]
    simp only
    rw [if_neg (by omega)]
    have hops : (k''.currentPcb.f fd).optable = opsOf (w.img.ftype e) :=
      congrArg Entry.ops hentry
    -- the clock answers 0 at once, a file is read to its end
    constructor
    · intro hspecial hf
      obtain ⟨fuel, rfl⟩ : ∃ f, fuel = f + 1 := ⟨fuel - 1, by omega⟩
      refine catLoop_rtc hw hbuf huse ?_
      rw [hops, hspecial]
      rfl
    · intro hreg hn hlen hf
      have hops' : (k''.currentPcb.f fd).optable = .regular := by rw [hops, opsOf, if_pos hreg]
      have hinode : (k''.currentPcb.f fd).inode = w.img.inodeNum e := by
        have := congrArg Entry.inode hentry
        simpa only [Entry.ofFile, entryOf, hops', hreg, if_true] using this
      have hpos : (k''.currentPcb.f fd).pos = 0 := congrArg Entry.pos hentry
      have hslot : k''.currentPcb.f fd =
          regularAt (w.img.inodeNum e) (k''.currentPcb.f fd).flags 0 := by
        unfold regularAt
        rw [← hops', ← hinode, show BitVec.ofNat 32 0 = (k''.currentPcb.f fd).pos from hpos.symm]
      obtain ⟨k₃, hloop⟩ := catLoop_regular hw hbuf h2 (hslot ▸ huse) hn hlen (n := 2) htable hslot
        (Nat.zero_le _) (by omega)
      exact ⟨k₃, by rw [hloop, Nat.sub_zero]⟩

/-- A world in which nothing else happens. -/
def quietWorld (img : Image) : World where
  img := img
  d := fun _ => someLocals.d
  dev := fun _ => ⟨0, fun _ => 0⟩
  meanwhile := fun _ k => k

theorem quietWorld_spares (img : Image) : SparesCaller (quietWorld img) :=
  fun _ _ => ⟨rfl, rfl, rfl, fun _ _ _ => rfl⟩

/-- The program "a", given its own name to print: its header comes out. -/
theorem cat_prints_itself : ∃ k k' : Kernel,
    execute someLayout (oneFile [0x61] (headerOnly 0x40)) someLocals 0 0x08000000
      [0x61, 0x20, 0x61] (newProcess someLayout 1 .zero) = some (.entered 0x40, k) ∧
    catMain (quietWorld (oneFile [0x61] (headerOnly 0x40))) 29 0x08000000 k =
      some (0, headerOnly 0x40, k') := by
  have hn : HeaderOf (oneFile [0x61] (headerOnly 0x40)) someLocals [0x61, 0x20, 0x61] 0 :=
    ⟨0, by decide, by decide, by decide, by decide⟩
  have hfit : BodyFits (oneFile [0x61] (headerOnly 0x40)) 0 := by
    unfold BodyFits
    decide
  have hfree : FirstFree (procs (newProcess someLayout 1 .zero)).present 2 := by
    refine ⟨by decide, by decide, by decide, ?_⟩
    intro m h1 h2
    obtain rfl : m = 1 := by omega
    decide
  have ht : TypesOk (oneFile [0x61] (headerOnly 0x40)) := by
    intro i hi
    obtain rfl : i = 0 := by
      have : (oneFile [0x61] (headerOnly 0x40)).numDentry.toNat = 1 := by decide
      omega
    right; right
    decide
  rcases execute_spec someLayout (oneFile [0x61] (headerOnly 0x40)) someLocals 0 0x08000000
    [0x61, 0x20, 0x61] (newProcess someLayout 1 .zero) with ⟨hptr, -⟩ | ⟨-, r, k, hexec, hout⟩
  · exact absurd hptr (by decide)
  · obtain ⟨-, hr⟩ := hout.of_loads hn hfit hfree
    rw [if_neg (by decide)] at hr
    subst hr
    have hbuf : UserRange 0x08000000 1024 := ⟨by decide, by decide⟩
    obtain ⟨k', hcat⟩ := ((cat_prints_the_file (w := quietWorld (oneFile [0x61] (headerOnly 0x40)))
      (quietWorld_spares _) hexec (by decide) ht hbuf 29).2 0 (by decide)).2 (by decide) (by decide)
      (by decide) (by decide)
    exact ⟨k, k', hexec, hcat.trans (congrArg (fun out => some (0, out, k')) (by decide))⟩

/--
**What `ls` prints.** In a process that has just been started, with whatever else goes on
in the machine: a line for every entry of the directory, in the order they have on the
disk, each the stored name in a field of 32 bytes; then it exits with `0`. Without an
entry "." it says so and exits with `2`.
-/
theorem ls_lists_the_directory {w : World} (hw : SparesCaller w) {k : Kernel}
    (hk : k.currentPcb.f = stdFiles) (ht : TypesOk w.img) {dot buf : Word}
    (hdot : UserRange dot 2) (hchar : userMem k dot 0 = 0x2E) (hnul : userMem k dot 1 = 0)
    (hbuf : UserRange buf 33) (fuel : Nat) :
    (lookup w.img [0x2E] = none → ∃ k', lsMain w fuel dot buf k = some (2, lsOpenFailed, k')) ∧
      ∀ e, lookup w.img [0x2E] = some e → w.img.ftype e = ftypeDirectory →
        w.img.numDentry.toNat < fuel → ∃ k', lsMain w fuel dot buf k =
          some (0, (List.range w.img.numDentry.toNat).flatMap (lsLine w.img), k') := by
  have hsame := hw 0 k
  have hname : upToNul (userMem (w.meanwhile 0 k) dot) addressSpace 0 = [0x2E] := by
    refine upToNul_userMem (by decide) (by decide) ?_
    intro j hj
    have hj : j ≤ 1 := hj
    rw [hsame.userMem hdot (by omega)]
    obtain rfl | rfl : j = 0 ∨ j = 1 := by omega
    · exact hchar
    · exact hnul
  have hfiles : (w.meanwhile 0 k).currentPcb.f = stdFiles := hsame.files.trans hk
  have hrange : UserRange dot [(0x2E : Byte)].length :=
    ⟨hdot.1, by have := hdot.2; show dot.toNat + 1 ≤ _; omega⟩
  unfold lsMain ece391Open
  dsimp only
  rw [hname]
  constructor
  · intro hl
    obtain ⟨k', hopen⟩ := syscallOpen_absent ht hfiles (w.d 0) hrange hl
    rw [hopen]
    exact ⟨k', rfl⟩
  · intro e hl hdir hf
    obtain ⟨fd, k', hopen, h2, htable, huse, hentry⟩ :=
      syscallOpen_entry ht hfiles (w.d 0) hrange hl
    rw [hopen]
    simp only
    rw [if_neg (by omega)]
    have hops : (k'.currentPcb.f fd).optable = .directory := by
      have hops : (k'.currentPcb.f fd).optable = opsOf (w.img.ftype e) :=
        congrArg Entry.ops hentry
      rw [hops, hdir]
      rfl
    -- the listing starts at the first entry
    have hslot : k'.currentPcb.f fd = seek (k'.currentPcb.f fd) 0 := by
      have hpos : (k'.currentPcb.f fd).pos = 0 := congrArg Entry.pos hentry
      unfold seek
      rw [show BitVec.ofNat 32 0 = (k'.currentPcb.f fd).pos from hpos.symm]
    obtain ⟨k'', hloop⟩ := lsLoop_directory hw hbuf h2 huse hops (n := 1) htable hslot
      (Nat.zero_le _) (show _ < fuel by omega)
    exact ⟨k'', by rw [hloop, Nat.sub_zero, List.range_eq_range']⟩

/-- A disk with nothing on it but its directory. -/
def bareDisk : Image where
  bytes := fun a => if a = 0 ∨ a = 96 then 1 else if a = 64 then 0x2E else 0

/-- On it the listing is one line, of the directory itself. -/
theorem ls_lists_bare_disk : ∃ k k' : Kernel, k.currentPcb.f = stdFiles ∧
    lsMain (quietWorld bareDisk) 2 0x08000000 0x08000100 k =
      some (0, 0x2E :: List.replicate 31 0 ++ [0x0A], k') := by
  have h₀ : setupNewProcess someLayout .zero = some (newProcess someLayout 1 .zero) := by
    rw [setupNewProcess_eq]
    rfl
  have ht : TypesOk bareDisk := by
    intro i hi
    obtain rfl : i = 0 := by
      have : bareDisk.numDentry.toNat = 1 := by decide
      omega
    right; left
    decide
  have hfiles := setupNewProcess_table h₀
  generalize hk : userStore (newProcess someLayout 1 .zero) ((0x08000000 : Word).toNat + 0) 0x2E = k
  have hfiles' : k.currentPcb.f = stdFiles := by
    rw [← hk]
    exact hfiles
  have hchar : userMem k 0x08000000 0 = 0x2E := by
    rw [← hk]
    exact userMem_userStore_self ..
  have hnul : userMem k 0x08000000 1 = 0 := by
    rw [← hk, userMem_userStore_of_ne (c := 2) ⟨by decide, by decide⟩ (by decide)]
    decide
  have hbuf : UserRange 0x08000100 33 := ⟨by decide, by decide⟩
  obtain ⟨k', hls⟩ := (ls_lists_the_directory (quietWorld_spares bareDisk) hfiles' ht
    ⟨by decide, by decide⟩ hchar hnul hbuf 2).2 0 (by decide) (by decide) (by decide)
  exact ⟨k, k', hfiles', hls.trans (congrArg (fun out => some (0, out, k')) (by decide))⟩

end Zbiggie.Proof
