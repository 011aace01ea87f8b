import Zbiggie.Machine.Footprint
import Zbiggie.Proof.LoadExec

/-!
# Files too short and files too long for the loader

The loader asks for 28 bytes of header and then for as many bytes as the program page
has behind the load address. It looks at neither answer. A file shorter than the
header leaves part of the header buffer as it was on the stack, and the magic number
and the entry address are read out of that buffer all the same. A file longer than
the page is read on behind it, since the second request counts from the load address
and starts 28 bytes above it.

Both are exact: on every other image the outcome is a function of the image and the
command, and every byte goes where the page is.
-/

namespace Zbiggie.Proof

open Zbiggie Machine

/-! ## The lookup -/

/-- The first word of `cmd` is found as a regular file of inode `n`. -/
def Resolves (img : Image) (cmd : List Byte) (n : Word) : Prop :=
  ∃ i, dentrySearch img (cstr (wordCopied bufSize cmd)) img.numDentry.toNat 0 = some i ∧
    img.ftype i = ftypeRegular ∧ img.inodeNum i = n

theorem Resolves.unique {img : Image} {cmd : List Byte} {m n : Word} (hm : Resolves img cmd m)
    (hn : Resolves img cmd n) : m = n := by
  obtain ⟨i, hi, _, him⟩ := hm
  obtain ⟨j, hj, _, hjn⟩ := hn
  rw [hi] at hj
  cases hj
  rw [← him, ← hjn]

/-- What the locals have to do with it: the word the magic number is looked for in. -/
theorem headerOf_iff {img : Image} {loc : ExecLocals} {cmd : List Byte} {n : Word} :
    HeaderOf img loc cmd n ↔ Resolves img cmd n ∧ loadWord (headerBuf img loc n) 0 = magicNum := by
  unfold HeaderOf Resolves
  simp only [dentrySearch_execName]
  constructor
  · rintro ⟨i, h1, h2, h3, h4⟩
    exact ⟨⟨i, h1, h2, h3⟩, h4⟩
  · rintro ⟨⟨i, h1, h2, h3⟩, h4⟩
    exact ⟨i, h1, h2, h3, h4⟩

/-! ## The outcome -/

/-- The checks of the loader are passed. -/
def Accepts (img : Image) (loc : ExecLocals) (cmd : List Byte) : Prop :=
  ∃ r, loadHeader img loc cmd = some (some r)

theorem accepts_iff {img : Image} {loc : ExecLocals} {cmd : List Byte} :
    Accepts img loc cmd ↔ ∃ n, HeaderOf img loc cmd n := by
  unfold Accepts
  rcases loadHeader_cases img loc cmd with ⟨hl, hno⟩ | ⟨n, hn, hl⟩
  · rw [hl]
    refine iff_of_false ?_ fun ⟨n, hn⟩ => hno n hn
    rintro ⟨r, hr⟩
    cases hr
  · exact iff_of_true ⟨_, hl⟩ ⟨n, hn⟩

theorem saveHist_procs (cmd : List Byte) (k : Kernel) : procs (saveHist cmd k) = procs k := rfl

section Outcome

variable (L : Layout) {img : Image} {loc : ExecLocals} {cmd : List Byte} {k : Kernel} {n : Word}

theorem load_rejected (h : ¬ Accepts img loc cmd) :
    loadExecToMem L img loc cmd k = some (.returned (-1), saveHist cmd k) := by
  rw [accepts_iff] at h
  unfold loadExecToMem kloadExecToMem
  rcases loadHeader_cases img loc cmd with ⟨hl, _⟩ | ⟨n, hn, _⟩
  · rw [hl]
  · exact absurd ⟨n, hn⟩ h

theorem load_full (hn : HeaderOf img loc cmd n) (hfull : Full (procs k).present) :
    loadExecToMem L img loc cmd k = some (.returned 1, saveHist cmd k) := by
  unfold loadExecToMem kloadExecToMem
  rcases loadHeader_cases img loc cmd with ⟨_, hno⟩ | ⟨n', _, hl⟩
  · exact absurd hn (hno n)
  · rw [hl]
    dsimp only
    rw [setupNewProcess_eq]
    cases hf : findFreePcb (saveHist cmd k) with
    | none => rfl
    | some pid =>
        exact absurd hfull (findFreePcb_some hf).not_full

/-- With a process to load into, the value is the entry word of the header buffer. -/
theorem load_free (hn : HeaderOf img loc cmd n) (hfree : ¬ Full (procs k).present) :
    ∃ k', (BodyFits img n ∧ loadExecToMem L img loc cmd k
        = some (.returned (loadWord (headerBuf img loc n) 24), k')) ∨
      (¬ BodyFits img n ∧ loadExecToMem L img loc cmd k = some (.faulted, k')) := by
  unfold loadExecToMem kloadExecToMem
  rcases loadHeader_cases img loc cmd with ⟨_, hno⟩ | ⟨n', hn', hl⟩
  · exact absurd hn (hno n)
  · rw [hl]
    dsimp only
    rw [setupNewProcess_eq, hn'.unique hn]
    cases hf : findFreePcb (saveHist cmd k) with
    | none => exact absurd (findFreePcb_none hf) hfree
    | some pid =>
        obtain ⟨k', _, hload⟩ := loadBody_spec img loc n (headerBuf img loc n) (execArgs loc cmd)
          (newProcess L pid (saveHist cmd k))
        exact ⟨k', hload⟩

end Outcome

/-! ## Short files -/

/-- The bytes of the magic number. -/
def magicBytes : List Byte := [0x7F, 0x45, 0x4C, 0x46]

theorem loadWord_magic_iff (m : Mem) :
    loadWord m 0 = magicNum ↔ ∀ j, j < 4 → m j = cstr magicBytes j := by
  have hmagic : magicNum = loadWord (cstr magicBytes) 0 := by decide
  rw [hmagic]
  constructor
  · intro h j hj
    have := loadWord_inj h hj
    rwa [Nat.zero_add] at this
  · intro h
    exact loadWord_congr fun j hj => by rw [Nat.zero_add]; exact h j hj

theorem headerBuf_of_ge {img : Image} {loc : ExecLocals} {n : Word} {j : Nat}
    (hj : headerCount img n ≤ j) : headerBuf img loc n j = loc.buf j := by
  unfold headerBuf
  rw [if_neg (by omega)]

/-- What comes from the file does not depend on the locals. -/
theorem headerBuf_same {img : Image} (loc loc' : ExecLocals) {n : Word} {j : Nat}
    (hj : j < headerCount img n) : headerBuf img loc n j = headerBuf img loc' n j := by
  rw [headerBuf_of_lt loc hj, headerBuf_of_lt loc' hj]

theorem headerCount_lt_iff (img : Image) (n : Word) {c : Nat} (hc : 0 < c) (hc' : c ≤ 28) :
    headerCount img n < c ↔
      img.numInode.toNat ≤ n.toNat ∨ (fileLength img n).toNat < c := by
  have hmin : Nat.min exeHeaderSz (fileLength img n).toNat
      = Min.min 28 (fileLength img n).toNat := rfl
  unfold headerCount
  split
  · rw [hmin]
    omega
  · omega

/-- A file without a whole header has no body. -/
theorem bodyFits_of_short {img : Image} {n : Word} (hshort : headerCount img n < 28) :
    BodyFits img n := by
  have hcount : (readCount img n (BitVec.ofNat 32 (headerCount img n))
      (BitVec.ofNat 32 exeLoadSz)).toNat = 0 := by
    by_cases hn : n.toNat < img.numInode.toNat
    · have hlen := (headerCount_lt_iff img n (by omega) (Nat.le_refl 28)).mp hshort
      rw [readCount_past hn]
      · rfl
      · have heq : headerCount img n = (fileLength img n).toNat := by
          unfold headerCount
          rw [if_pos hn]
          exact Nat.min_eq_right (by simp only [exeHeaderSz]; omega)
        rw [heq, BitVec.toNat_ofNat]
        omega
    · unfold readCount
      rw [if_pos (by omega)]
      rfl
  unfold BodyFits
  rw [hcount]
  decide

/--
The header the loader goes by is not all the file's: what there is of it agrees with
the magic number, and the rest of the magic number or the entry word is missing. A
missing entry word does not matter while there is no process to enter.
-/
def HeaderLacking (img : Image) (cmd : List Byte) (k : Kernel) : Prop :=
  ∃ n, Resolves img cmd n ∧ headerCount img n < 28 ∧
    (∀ j, j < 4 → j < headerCount img n → img.fileByte n.toNat j = cstr magicBytes j) ∧
    (headerCount img n < 4 ∨ ¬ Full (procs k).present)

/--
What the loader decides and returns is a function of its inputs, and of the file: the
same for any two contents of its locals, with the magic number and the entry address
the file's own.
-/
structure ByInputs (L : Layout) (img : Image) (cmd : List Byte) (k : Kernel) : Prop where
  decision : ∀ loc loc', Accepts img loc cmd ↔ Accepts img loc' cmd
  value : ∀ loc loc', (loadExecToMem L img loc cmd k).map Prod.fst
    = (loadExecToMem L img loc' cmd k).map Prod.fst
  magic : ∀ loc, Accepts img loc cmd → ∃ n, Resolves img cmd n ∧
    n.toNat < img.numInode.toNat ∧ 4 ≤ (fileLength img n).toNat ∧
    fileWord img n.toNat 0 = magicNum
  entry : ∀ loc v k', Accepts img loc cmd → ¬ Full (procs k).present →
    loadExecToMem L img loc cmd k = some (.returned v, k') → ∃ n, Resolves img cmd n ∧
      n.toNat < img.numInode.toNat ∧ 28 ≤ (fileLength img n).toNat ∧ v = fileWord img n.toNat 24

section ByInputs

variable {L : Layout} {img : Image} {loc loc' : ExecLocals} {cmd : List Byte} {k : Kernel}
  {n : Word}

/-- An accepted file agrees with the magic number as far as it goes. -/
theorem HeaderOf.agrees (h : HeaderOf img loc cmd n) :
    ∀ j, j < 4 → j < headerCount img n → img.fileByte n.toNat j = cstr magicBytes j := by
  intro j hj hc
  rw [← headerBuf_of_lt loc hc]
  exact (loadWord_magic_iff _).mp (headerOf_iff.mp h).2 j hj

/-- The magic number of an accepted file is its own, unless the header is lacking. -/
theorem HeaderOf.four_le (h : HeaderOf img loc cmd n) (hlack : ¬ HeaderLacking img cmd k) :
    4 ≤ headerCount img n := by
  by_contra hlt
  exact hlack ⟨n, (headerOf_iff.mp h).1, by omega, h.agrees, .inl (by omega)⟩

/-- And so is its entry word. -/
theorem HeaderOf.whole (h : HeaderOf img loc cmd n) (hlack : ¬ HeaderLacking img cmd k)
    (hfree : ¬ Full (procs k).present) : headerCount img n = 28 := by
  have hle := headerCount_le img n
  by_contra hne
  exact hlack ⟨n, (headerOf_iff.mp h).1, by omega, h.agrees, .inr hfree⟩

theorem HeaderOf.transfer (h : HeaderOf img loc cmd n) (hcount : 4 ≤ headerCount img n)
    (loc' : ExecLocals) : HeaderOf img loc' cmd n := by
  obtain ⟨hres, hmagic⟩ := headerOf_iff.mp h
  refine headerOf_iff.mpr ⟨hres, ?_⟩
  rw [← hmagic]
  exact loadWord_congr fun j hj => headerBuf_same loc' loc (by omega)

theorem decision_of_not_lacking (hlack : ¬ HeaderLacking img cmd k) (h : Accepts img loc cmd) :
    Accepts img loc' cmd := by
  obtain ⟨n, hn⟩ := accepts_iff.mp h
  exact accepts_iff.mpr ⟨n, hn.transfer (hn.four_le hlack) loc'⟩

theorem value_of_not_lacking (hlack : ¬ HeaderLacking img cmd k) :
    (loadExecToMem L img loc cmd k).map Prod.fst
      = (loadExecToMem L img loc' cmd k).map Prod.fst := by
  by_cases hacc : Accepts img loc cmd
  · obtain ⟨n, hn⟩ := accepts_iff.mp hacc
    have hn' : HeaderOf img loc' cmd n := hn.transfer (hn.four_le hlack) loc'
    by_cases hfull : Full (procs k).present
    · rw [load_full L hn hfull, load_full L hn' hfull]
    · have hentry : loadWord (headerBuf img loc n) 24 = loadWord (headerBuf img loc' n) 24 :=
        loadWord_congr fun j hj => headerBuf_same loc loc' (by rw [hn.whole hlack hfull]; omega)
      obtain ⟨k1, h1⟩ := load_free L hn hfull
      obtain ⟨k2, h2⟩ := load_free L hn' hfull
      rcases h1 with ⟨hf1, h1⟩ | ⟨hf1, h1⟩ <;> rcases h2 with ⟨hf2, h2⟩ | ⟨hf2, h2⟩
      · rw [h1, h2, hentry]
        rfl
      · exact absurd hf1 hf2
      · exact absurd hf2 hf1
      · rw [h1, h2]
        rfl
  · have hacc' : ¬ Accepts img loc' cmd := fun h => hacc (decision_of_not_lacking hlack h)
    rw [load_rejected L hacc, load_rejected L hacc']

theorem magic_of_not_lacking (hlack : ¬ HeaderLacking img cmd k) (h : Accepts img loc cmd) :
    ∃ n, Resolves img cmd n ∧ n.toNat < img.numInode.toNat ∧ 4 ≤ (fileLength img n).toNat ∧
      fileWord img n.toNat 0 = magicNum := by
  obtain ⟨n, hn⟩ := accepts_iff.mp h
  have hcount := hn.four_le hlack
  have hown := mt (headerCount_lt_iff img n (by omega) (by omega)).mpr (Nat.not_lt.mpr hcount)
  refine ⟨n, (headerOf_iff.mp hn).1, by omega, by omega, ?_⟩
  rw [← (headerOf_iff.mp hn).2]
  refine loadWord_congr fun j hj => (headerBuf_of_lt loc ?_).symm
  rw [Nat.zero_add]
  omega

theorem entry_of_not_lacking (hlack : ¬ HeaderLacking img cmd k) {v : Word} {k' : Kernel}
    (h : Accepts img loc cmd) (hfree : ¬ Full (procs k).present)
    (hload : loadExecToMem L img loc cmd k = some (.returned v, k')) :
    ∃ n, Resolves img cmd n ∧ n.toNat < img.numInode.toNat ∧ 28 ≤ (fileLength img n).toNat ∧
      v = fileWord img n.toNat 24 := by
  obtain ⟨n, hn⟩ := accepts_iff.mp h
  have hcount := hn.whole hlack hfree
  have hown := mt (headerCount_lt_iff img n (by omega) (by omega)).mpr
    (Nat.not_lt.mpr (Nat.le_of_eq hcount.symm))
  refine ⟨n, (headerOf_iff.mp hn).1, by omega, by omega, ?_⟩
  obtain ⟨k1, h1⟩ := load_free L hn hfree
  rcases h1 with ⟨_, h1⟩ | ⟨_, h1⟩
  · rw [h1] at hload
    cases hload
    exact loadWord_congr fun j hj => headerBuf_of_lt loc (by omega)
  · rw [h1] at hload
    cases hload

/-- Stack garbage that completes the magic number, and garbage that does not. -/
theorem decision_of_lacking (hres : Resolves img cmd n) (hcount : headerCount img n < 4)
    (hagree : ∀ j, j < 4 → j < headerCount img n → img.fileByte n.toNat j = cstr magicBytes j)
    (loc : ExecLocals) : Accepts img { loc with buf := cstr magicBytes } cmd ∧
      ¬ Accepts img { loc with buf := fun _ => 0 } cmd := by
  constructor
  · refine accepts_iff.mpr ⟨n, headerOf_iff.mpr ⟨hres, (loadWord_magic_iff _).mpr ?_⟩⟩
    intro j hj
    by_cases hc : j < headerCount img n
    · rw [headerBuf_of_lt _ hc]
      exact hagree j hj hc
    · rw [headerBuf_of_ge (by omega)]
  · intro h
    obtain ⟨n', hn'⟩ := accepts_iff.mp h
    obtain ⟨hres', hmagic⟩ := headerOf_iff.mp hn'
    rw [hres'.unique hres] at hmagic
    -- the byte behind the file's last one is the stack's
    have hbyte := (loadWord_magic_iff _).mp hmagic (headerCount img n) hcount
    rw [headerBuf_of_ge (Nat.le_refl _)] at hbyte
    have hne : ∀ j, j < 4 → (0 : Byte) ≠ cstr magicBytes j := by decide
    exact hne _ hcount hbyte

/-- Two contents of the stack, two entry addresses. -/
theorem value_of_lacking (L : Layout) (hres : Resolves img cmd n) (hshort : headerCount img n < 28)
    (hcount : 4 ≤ headerCount img n) (hfree : ¬ Full (procs k).present)
    (hagree : ∀ j, j < 4 → j < headerCount img n → img.fileByte n.toNat j = cstr magicBytes j)
    (loc : ExecLocals) : (loadExecToMem L img { loc with buf := fun _ => 0 } cmd k).map Prod.fst
      ≠ (loadExecToMem L img { loc with buf := fun _ => 1 } cmd k).map Prod.fst := by
  have hheader : ∀ loc', HeaderOf img loc' cmd n := by
    intro loc'
    refine headerOf_iff.mpr ⟨hres, (loadWord_magic_iff _).mpr ?_⟩
    intro j hj
    rw [headerBuf_of_lt _ (by omega)]
    exact hagree j hj (by omega)
  have hfit := bodyFits_of_short hshort
  obtain ⟨k1, h1⟩ := load_free L (hheader { loc with buf := fun _ => 0 }) hfree
  obtain ⟨k2, h2⟩ := load_free L (hheader { loc with buf := fun _ => 1 }) hfree
  rcases h1 with ⟨_, h1⟩ | ⟨hf, _⟩
  · rcases h2 with ⟨_, h2⟩ | ⟨hf, _⟩
    · rw [h1, h2]
      intro heq
      -- the last byte of the entry word is the stack's
      have hword := Loaded.returned.inj (Option.some.inj heq)
      have hbyte := loadWord_inj hword (i := 3) (by omega)
      rw [headerBuf_of_ge (by omega), headerBuf_of_ge (by omega)] at hbyte
      exact absurd (show (0 : Byte) = 1 from hbyte) (by decide)
    · exact absurd hfit hf
  · exact absurd hfit hf

/--
**When the loader depends only on its inputs.** For every image, command and state: on
every image but those whose file is too short for the header and, as far as it goes,
agrees with the magic number.
-/
theorem load_by_inputs_iff (L : Layout) (img : Image) (cmd : List Byte) (k : Kernel) :
    ByInputs L img cmd k ↔ ¬ HeaderLacking img cmd k := by
  constructor
  · rintro hby ⟨n, hres, hshort, hagree, hwhy⟩
    by_cases hcount : headerCount img n < 4
    · obtain ⟨hyes, hno⟩ := decision_of_lacking hres hcount hagree someLocals
      exact hno ((hby.decision _ _).mp hyes)
    · have hfree : ¬ Full (procs k).present := hwhy.resolve_left hcount
      exact value_of_lacking L hres hshort (by omega) hfree hagree someLocals (hby.value _ _)
  · intro hlack
    exact
      { decision := fun _ _ => ⟨decision_of_not_lacking hlack, decision_of_not_lacking hlack⟩
        value := fun _ _ => value_of_not_lacking hlack
        magic := fun _ => magic_of_not_lacking hlack
        entry := fun _ _ _ => entry_of_not_lacking hlack }

end ByInputs

/-- An empty file is a program or not, as the stack has it. -/
theorem load_of_empty_file :
    Accepts (oneFile [0x61] []) { someLocals with buf := cstr magicBytes } [0x61] ∧
      ¬ Accepts (oneFile [0x61] []) { someLocals with buf := fun _ => 0 } [0x61] ∧
      ¬ ByInputs someLayout (oneFile [0x61] []) [0x61] .zero := by
  have hres : Resolves (oneFile [0x61] []) [0x61] 0 := ⟨0, by decide, by decide, by decide⟩
  have hcount : headerCount (oneFile [0x61] []) 0 = 0 := by decide
  obtain ⟨hyes, hno⟩ := decision_of_lacking hres (by rw [hcount]; decide)
    (fun j _ hj => absurd hj (by rw [hcount]; omega)) someLocals
  exact ⟨hyes, hno, fun hby => hno ((hby.decision _ _).mp hyes)⟩

/-! ## Long files -/

/-- What the two copies of the loader do to the address space they go to, before any fault. -/
def bodyStores (img : Image) (loc : ExecLocals) (f : File) (buf m : Mem) : Mem :=
  let m := memcpy m loadAddr buf exeHeaderSz
  match kread img loc.dentry ⟨0, m⟩ f (loadAddr + exeHeaderSz) (BitVec.ofNat 32 exeLoadSz) m with
  | none => m
  | some (_, _, m) => m

/-- The same for the whole of `kload_exec_to_mem`: nothing, if it does not get that far. -/
def kloadStores (L : Layout) (img : Image) (loc : ExecLocals) (fname : List Byte) (k : Kernel)
    (m : Mem) : Mem :=
  match loadHeader img loc fname with
  | some (some (f, buf, _)) =>
      match setupNewProcess L k with
      | some _ => bodyStores img loc f buf m
      | none => m
  | _ => m

/-- And for `load_exec_to_mem`. -/
def loadStores (L : Layout) (img : Image) (loc : ExecLocals) (fname : List Byte) (k : Kernel)
    (m : Mem) : Mem :=
  kloadStores L img loc fname (saveHist fname k) m

/-- Everything `f` writes lies between the load address and the end of the program page. -/
def StaysInPage (f : Mem → Mem) : Prop := ∀ v, Writes f v → loadAddr ≤ v ∧ v < offset132M

/-- How many bytes the second read brings. -/
def bodyCount (img : Image) (n : Word) : Nat :=
  (readCount img n (BitVec.ofNat 32 (headerCount img n)) (BitVec.ofNat 32 exeLoadSz)).toNat

theorem headerFile_pos (img : Image) (loc : ExecLocals) (n : Word) :
    (headerFile img loc n).pos.toNat = headerCount img n := by
  have hle := headerCount_le img n
  show (BitVec.ofNat 32 (headerCount img n)).toNat = _
  rw [BitVec.toNat_ofNat]
  omega

/-- The two copies, as copies. -/
theorem bodyStores_eq (img : Image) (loc : ExecLocals) (n : Word) (buf m : Mem) :
    bodyStores img loc (headerFile img loc n) buf m = memcpy (memcpy m loadAddr buf exeHeaderSz)
      (loadAddr + exeHeaderSz) (img.fileFrom n.toNat (headerCount img n)) (bodyCount img n) := by
  have hpos := headerFile_pos img loc n
  have hcopy := regularRead_copy img (headerFile img loc n) (loadAddr + exeHeaderSz)
    (BitVec.ofNat 32 exeLoadSz) (memcpy m loadAddr buf exeHeaderSz) (bodyFile_range img loc n)
  rw [hpos] at hcopy
  exact hcopy

theorem bodyStores_writes (img : Image) (loc : ExecLocals) (n : Word) (buf : Mem) (v : Nat) :
    Writes (bodyStores img loc (headerFile img loc n) buf) v ↔
      loadAddr ≤ v ∧ v < loadAddr + exeHeaderSz + bodyCount img n := by
  have happly : ∀ m, bodyStores img loc (headerFile img loc n) buf m v =
      if loadAddr + exeHeaderSz ≤ v ∧ v < loadAddr + exeHeaderSz + bodyCount img n then
        img.fileFrom n.toNat (headerCount img n) (v - (loadAddr + exeHeaderSz))
      else if loadAddr ≤ v ∧ v < loadAddr + exeHeaderSz then buf (v - loadAddr) else m v := by
    intro m
    rw [bodyStores_eq, memcpy_apply, memcpy_apply]
  constructor
  · rintro ⟨m, hm⟩
    rw [happly] at hm
    split at hm
    · omega
    · split at hm
      · omega
      · exact absurd rfl hm
  · rintro ⟨hlo, hhi⟩
    by_cases hbody : loadAddr + exeHeaderSz ≤ v
    · exact .of_const fun m => by rw [happly, if_pos ⟨hbody, hhi⟩]
    · exact .of_const fun m => by rw [happly, if_neg (by omega), if_pos (by omega)]

/--
A load that returns has made these stores to the page of its process: byte `v` of the
address space is byte `userPhys pid v` of memory.
-/
theorem loadBody_stores {img : Image} {loc : ExecLocals} {n : Word} {buf args : Mem} {k k' : Kernel}
    {r : Word} (h : loadBody img loc (headerFile img loc n) buf args k = some (.returned r, k'))
    {v : Nat} (hv : offset128M ≤ v) :
    k'.ram (userPhys k.task.currentProcess v) = bodyStores img loc (headerFile img loc n) buf
      (fun a => k.ram (userPhys k.task.currentProcess a)) v := by
  obtain ⟨pid, hpid⟩ : ∃ pid, pid = k.task.currentProcess := ⟨_, rfl⟩
  have hpos := headerFile_pos img loc n
  have hcopy := regularRead_copy img (headerFile img loc n) (userPhys pid loadAddr + exeHeaderSz)
    (BitVec.ofNat 32 exeLoadSz) (memcpy k.ram (userPhys pid loadAddr) buf exeHeaderSz)
    (bodyFile_range img loc n)
  rw [hpos] at hcopy
  have hram : k'.ram = memcpy (memcpy k.ram (userPhys pid loadAddr) buf exeHeaderSz)
      (userPhys pid loadAddr + exeHeaderSz) (img.fileFrom n.toNat (headerCount img n))
      (bodyCount img n) := by
    refine Eq.trans ?_ hcopy
    unfold loadBody at h
    rw [← hpid] at h
    dsimp only [kread, headerFile] at h ⊢
    generalize regularRead img ⟨.regular, n, BitVec.ofNat 32 (headerCount img n), loc.f.flags⟩
      (userPhys pid loadAddr + exeHeaderSz) (BitVec.ofNat 32 exeLoadSz)
      (memcpy k.ram (userPhys pid loadAddr) buf exeHeaderSz) = out at h ⊢
    obtain ⟨c, f, m⟩ := out
    dsimp only at h ⊢
    split at h
    · cases h
    · cases h
      rfl
  -- the page is mapped in one piece, so ranges of it are ranges of memory
  have hdist : userPhys pid v + loadAddr = userPhys pid loadAddr + v := by
    simp only [userPhys, loadAddr, offset128M, offset4M] at hv ⊢
    omega
  rw [hram, bodyStores_eq, memcpy_apply, memcpy_apply, memcpy_apply, memcpy_apply, ← hpid]
  by_cases hbody : loadAddr + exeHeaderSz ≤ v ∧ v < loadAddr + exeHeaderSz + bodyCount img n
  · rw [if_pos (by omega), if_pos hbody, show userPhys pid v - (userPhys pid loadAddr + exeHeaderSz)
      = v - (loadAddr + exeHeaderSz) by omega]
  · rw [if_neg (by omega), if_neg hbody]
    by_cases hhead : loadAddr ≤ v ∧ v < loadAddr + exeHeaderSz
    · rw [if_pos (by omega), if_pos hhead,
        show userPhys pid v - userPhys pid loadAddr = v - loadAddr by omega]
    · rw [if_neg (by omega), if_neg hhead]

/-- The first word names a program that does not fit between the load address and 132M. -/
def TooLong (img : Image) (cmd : List Byte) : Prop :=
  ∃ n, Resolves img cmd n ∧ n.toNat < img.numInode.toNat ∧
    offset132M - loadAddr < (fileLength img n).toNat ∧ fileWord img n.toNat 0 = magicNum

/--
The second read goes past the page when the file is longer than the room from the
load address.
-/
theorem bodyFits_iff (img : Image) (n : Word) :
    BodyFits img n ↔
      ¬ (n.toNat < img.numInode.toNat ∧ offset132M - loadAddr < (fileLength img n).toNat) := by
  have hroom : offset132M - loadAddr = 3899392 := rfl
  have hpage : loadAddr + exeHeaderSz + 3899364 = offset132M := rfl
  by_cases hn : n.toNat < img.numInode.toNat
  · by_cases hshort : headerCount img n < 28
    · have hlen := (headerCount_lt_iff img n (by omega) (Nat.le_refl 28)).mp hshort
      exact iff_of_true (bodyFits_of_short hshort) fun h => by omega
    · have hcount : headerCount img n = 28 := by
        have := headerCount_le img n
        omega
      have hlen := mt (headerCount_lt_iff img n (by omega) (Nat.le_refl 28)).mpr hshort
      -- the end of the request is below 2^32, so it is only clamped to the file
      have h28 : (BitVec.ofNat 32 28).toNat = 28 := rfl
      have hsz : (BitVec.ofNat 32 exeLoadSz).toNat = 3899392 := rfl
      have hend : (readEnd img n (BitVec.ofNat 32 28) (BitVec.ofNat 32 exeLoadSz)).toNat = _ :=
        readEnd_toNat img n (by omega)
      have hle : (BitVec.ofNat 32 28).toNat
          ≤ (readEnd img n (BitVec.ofNat 32 28) (BitVec.ofNat 32 exeLoadSz)).toNat := by omega
      have hsub : (readEnd img n (BitVec.ofNat 32 28) (BitVec.ofNat 32 exeLoadSz)
          - BitVec.ofNat 32 28).toNat = (readEnd img n (BitVec.ofNat 32 28)
            (BitVec.ofNat 32 exeLoadSz)).toNat - 28 := BitVec.toNat_sub_of_le hle
      have hbody : (readCount img n (BitVec.ofNat 32 28) (BitVec.ofNat 32 exeLoadSz)).toNat
          = Min.min 3899392 ((fileLength img n).toNat - 28) := by
        unfold readCount
        have hnot : ¬ readEnd img n (BitVec.ofNat 32 28) (BitVec.ofNat 32 exeLoadSz)
            < BitVec.ofNat 32 28 := Nat.not_lt.mpr hle
        rw [if_neg (by omega), if_neg hnot, BitVec.toInt_eq_toNat_of_lt (by omega), hsub]
        omega
      unfold BodyFits
      rw [hcount, hbody]
      omega
  · refine iff_of_true ?_ fun h => hn h.1
    unfold BodyFits readCount
    rw [if_pos (by omega)]
    decide

section Page

variable {L : Layout} {img : Image} {loc : ExecLocals} {cmd : List Byte} {k : Kernel} {n : Word}

theorem stays_of_id : StaysInPage fun m => m := by
  rintro v ⟨m, hm⟩
  exact absurd rfl hm

/-- The copies stay in the page exactly when the body fits it. -/
theorem bodyStores_stays_iff (img : Image) (loc : ExecLocals) (n : Word) (buf : Mem) :
    StaysInPage (bodyStores img loc (headerFile img loc n) buf) ↔ BodyFits img n := by
  unfold StaysInPage
  simp only [bodyStores_writes]
  have hpage : loadAddr + exeHeaderSz + 3899364 = offset132M := rfl
  change _ ↔ loadAddr + exeHeaderSz + bodyCount img n ≤ offset132M
  constructor
  · intro h
    by_contra hgt
    have := (h offset132M ⟨by omega, by omega⟩).2
    omega
  · rintro h v ⟨hlo, hhi⟩
    exact ⟨hlo, by omega⟩

/-- A file that does not fit has a header of its own, whatever the locals hold. -/
theorem headerOf_tooLong_iff (loc : ExecLocals) :
    (∃ n, HeaderOf img loc cmd n ∧ ¬ BodyFits img n) ↔ TooLong img cmd := by
  have hroom : offset132M - loadAddr = 3899392 := rfl
  unfold TooLong
  simp only [headerOf_iff, bodyFits_iff, not_not]
  have hmagic : ∀ n : Word, n.toNat < img.numInode.toNat →
      offset132M - loadAddr < (fileLength img n).toNat →
      loadWord (headerBuf img loc n) 0 = fileWord img n.toNat 0 := by
    intro n hn hlen
    exact loadWord_congr fun j hj => headerBuf_eq hn (by omega) (by omega)
  constructor
  · rintro ⟨n, ⟨hres, hm⟩, hn, hlen⟩
    exact ⟨n, hres, hn, hlen, (hmagic n hn hlen).symm.trans hm⟩
  · rintro ⟨n, hres, hn, hlen, hm⟩
    exact ⟨n, ⟨hres, (hmagic n hn hlen).trans hm⟩, hn, hlen⟩

/-- With a program and a process to load it into, the copies are made. -/
theorem kloadStores_eq (hn : HeaderOf img loc cmd n) (hfree : ¬ Full (procs k).present) :
    kloadStores L img loc cmd k
      = bodyStores img loc (headerFile img loc n) (headerBuf img loc n) := by
  funext m
  unfold kloadStores
  rcases loadHeader_cases img loc cmd with ⟨_, hno⟩ | ⟨n', hn', hl⟩
  · exact absurd hn (hno n)
  · rw [hl, hn'.unique hn]
    dsimp only
    rw [setupNewProcess_eq]
    cases hf : findFreePcb k with
    | none => exact absurd (findFreePcb_none hf) hfree
    | some pid => rfl

/-- Without, there are none. -/
theorem kloadStores_none (h : ¬ (¬ Full (procs k).present ∧ Accepts img loc cmd)) :
    kloadStores L img loc cmd k = fun m => m := by
  funext m
  unfold kloadStores
  rcases loadHeader_cases img loc cmd with ⟨hl, _⟩ | ⟨n, hn, hl⟩
  · rw [hl]
  · rw [hl]
    dsimp only
    rw [setupNewProcess_eq]
    cases hf : findFreePcb k with
    | none => rfl
    | some pid => exact absurd ⟨(findFreePcb_some hf).not_full, accepts_iff.mpr ⟨n, hn⟩⟩ h

/-- `kload_exec_to_mem` leaves the page only with a long program and a process to put it in. -/
theorem kloadStores_stays_iff (L : Layout) (img : Image) (loc : ExecLocals) (cmd : List Byte)
    (k : Kernel) : StaysInPage (kloadStores L img loc cmd k) ↔
    ¬ (¬ Full (procs k).present ∧ TooLong img cmd) := by
  rw [← headerOf_tooLong_iff loc]
  by_cases hload : ¬ Full (procs k).present ∧ Accepts img loc cmd
  · obtain ⟨hfree, hacc⟩ := hload
    obtain ⟨n, hn⟩ := accepts_iff.mp hacc
    rw [kloadStores_eq hn hfree, bodyStores_stays_iff]
    constructor
    · rintro hfit ⟨_, n', hn', hnot⟩
      rw [hn'.unique hn] at hnot
      exact hnot hfit
    · intro h
      by_contra hnot
      exact h ⟨hfree, n, hn, hnot⟩
  · rw [kloadStores_none hload]
    exact iff_of_true stays_of_id fun ⟨hfree, n, hn, _⟩ => hload ⟨hfree, accepts_iff.mpr ⟨n, hn⟩⟩

/--
**When the loader stays inside the program page.** For every image, command, state and
contents of the locals, both loaders write user memory only from the load address up to
132M exactly unless the program is longer than that and there is a process to load it
into.
-/
theorem load_in_page_iff (L : Layout) (img : Image) (loc : ExecLocals) (cmd : List Byte)
    (k : Kernel) :
    (StaysInPage (loadStores L img loc cmd k) ↔ ¬ (¬ Full (procs k).present ∧ TooLong img cmd)) ∧
      (StaysInPage (kloadStores L img loc cmd k) ↔
        ¬ (¬ Full (procs k).present ∧ TooLong img cmd)) := by
  refine ⟨?_, kloadStores_stays_iff L img loc cmd k⟩
  have h := kloadStores_stays_iff L img loc cmd (saveHist cmd k)
  rwa [saveHist_procs] at h

/-- Leaving the page is what the model calls a fault. -/
theorem load_faulted_iff : (∃ k', loadExecToMem L img loc cmd k = some (.faulted, k')) ↔
    ¬ StaysInPage (loadStores L img loc cmd k) := by
  have hstays := kloadStores_stays_iff L img loc cmd (saveHist cmd k)
  rw [saveHist_procs, ← headerOf_tooLong_iff loc] at hstays
  rw [show StaysInPage (loadStores L img loc cmd k)
    = StaysInPage (kloadStores L img loc cmd (saveHist cmd k)) from rfl, hstays, not_not]
  constructor
  · rintro ⟨k', hk'⟩
    by_cases hacc : Accepts img loc cmd
    · obtain ⟨n, hn⟩ := accepts_iff.mp hacc
      by_cases hfull : Full (procs k).present
      · rw [load_full L hn hfull] at hk'
        cases hk'
      · obtain ⟨k1, h1⟩ := load_free L hn hfull
        rcases h1 with ⟨_, h1⟩ | ⟨hnot, _⟩
        · rw [h1] at hk'
          cases hk'
        · exact ⟨hfull, n, hn, hnot⟩
    · rw [load_rejected L hacc] at hk'
      cases hk'
  · rintro ⟨hfull, n, hn, hnot⟩
    obtain ⟨k1, h1⟩ := load_free L hn hfull
    rcases h1 with ⟨hfit, _⟩ | ⟨_, h1⟩
    · exact absurd hfit hnot
    · exact ⟨k1, h1⟩

end Page

/-- A disk with one program of 3899393 bytes, one more than there is room for. -/
def longFile : Image where
  bytes := fun a =>
    if a = 4096 then 0x01
    else if a = 4097 then 0x80
    else if a = 4098 then 0x3B
    else (oneFile [0x61] (headerOnly 0x40)).bytes a

/-- It is a file the disk can hold, and loading it writes the byte at 132M. -/
theorem load_of_long_file :
    (fileLength longFile 0).toNat = 3899393 ∧ 3899393 ≤ maxLength ∧
      Writes (loadStores someLayout longFile someLocals [0x61] .zero) offset132M ∧
      ¬ StaysInPage (loadStores someLayout longFile someLocals [0x61] .zero) ∧
      ¬ StaysInPage (kloadStores someLayout longFile someLocals [0x61] .zero) := by
  have hlen : (fileLength longFile 0).toNat = 3899393 := by decide
  have hres : Resolves longFile [0x61] 0 := ⟨0, by decide, by decide, by decide⟩
  have hheader : HeaderOf longFile someLocals [0x61] 0 := headerOf_iff.mpr ⟨hres, by decide⟩
  have hroom : ¬ Full (procs Kernel.zero).present := fun hf => nomatch hf 1 (by decide) (by decide)
  have hlong : ¬ BodyFits longFile 0 := by
    rw [bodyFits_iff, not_not, hlen]
    exact ⟨by decide, by decide⟩
  have hstores : ∀ k, procs k = procs .zero → Writes (kloadStores someLayout longFile someLocals
      [0x61] k) offset132M := by
    intro k hk
    rw [kloadStores_eq hheader (by rw [hk]; exact hroom), bodyStores_writes]
    exact ⟨by decide, Nat.lt_of_not_le hlong⟩
  have hbound : ∀ f, Writes f offset132M → ¬ StaysInPage f :=
    fun f hf hstay => Nat.lt_irrefl _ (hstay _ hf).2
  have hload := hstores (saveHist [0x61] .zero) (saveHist_procs _ _)
  exact ⟨hlen, by decide, hload, hbound _ hload, hbound _ (hstores .zero rfl)⟩

end Zbiggie.Proof
