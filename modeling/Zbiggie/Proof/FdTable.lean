import Mathlib.Order.Fin.Basic
import Zbiggie.Proof.Execute

/-!
# The file table is a finite map

What a process is offered is a map from eight descriptors to open files. What the
PCB holds is an array of records with a flag: a slot whose flag is clear still has
the contents of the file that was closed, `open` sets the flag before it knows
whether there is a file to open, and four routines each check the range again.

`fdMap` reads the array as a map, forgetting what an unused slot holds. The four
system calls are shown to act on the map as they should, and where they fail, to
leave the array itself as it was, stale contents included.
-/

namespace Zbiggie.Proof

open Zbiggie Machine

/-! ## The map -/

/-- An open file: its operations, its inode if it is a regular one, its position. -/
structure Entry where
  ops : OpTable
  inode : Word
  pos : Word
  deriving DecidableEq

/-- What an open record stands for; only regular files have an inode. -/
def Entry.ofFile (f : File) : Entry where
  ops := f.optable
  inode := if f.optable = .regular then f.inode else 0
  pos := f.pos

/-- A file table, as the map it stands for. -/
def fdMap (f : Fin 8 → File) : Fin 8 → Option Entry := fun i =>
  if (f i).inUse then some (.ofFile (f i)) else none

/-- `fd` is the least descriptor with nothing mapped to it. -/
def LeastFree (m : Fin 8 → Option Entry) (fd : Fin 8) : Prop :=
  m fd = none ∧ ∀ j, j < fd → m j ≠ none

theorem fd_lt {n : Int} (h : 0 ≤ n ∧ n < 8) : n.toNat < 8 := by
  omega

/-- What descriptor `n` is mapped to; descriptors out of range are mapped to nothing. -/
def mapAt (m : Fin 8 → Option Entry) (n : Int) : Option Entry :=
  if h : 0 ≤ n ∧ n < 8 then m ⟨n.toNat, fd_lt h⟩ else none

theorem fdMap_eq_none {f : Fin 8 → File} {i : Fin 8} : fdMap f i = none ↔ (f i).inUse = false := by
  unfold fdMap
  cases h : (f i).inUse <;> simp

theorem fdMap_ne_none {f : Fin 8 → File} {i : Fin 8} : fdMap f i ≠ none ↔ (f i).inUse = true := by
  rw [Ne, fdMap_eq_none]
  simp

/-- Writing a slot is writing the map. -/
theorem fdMap_update (f : Fin 8 → File) (i : Fin 8) (g : File) :
    fdMap (Function.update f i g)
      = Function.update (fdMap f) i (if g.inUse then some (.ofFile g) else none) := by
  funext j
  unfold fdMap
  by_cases hj : j = i
  · subst hj; simp
  · simp [hj]

/-! ## Flags -/

theorem inUse_claim (f : File) : f.claim.inUse = true := by
  unfold File.claim File.inUse fileFlagInUse
  have h : (f.flags ||| 1) &&& 1 = (1 : Word) := by
    apply BitVec.eq_of_getLsbD_eq
    intro i hi
    rw [BitVec.getLsbD_and, BitVec.getLsbD_or]
    cases (1 : Word).getLsbD i <;> simp
  rw [h]
  decide

theorem inUse_clear (f : File) : f.clear.inUse = false := by
  unfold File.clear File.inUse fileFlagInUse
  have h : (f.flags &&& ~~~1) &&& 1 = (0 : Word) := by
    rw [BitVec.and_assoc]
    have : ~~~(1 : Word) &&& 1 = 0 := by decide
    rw [this]
    simp
  rw [h]
  decide

/-- Claiming an unused slot and clearing it again restores it, stale contents and all. -/
theorem clear_claim {f : File} (h : f.inUse = false) : f.claim.clear = f := by
  have h0 : f.flags &&& 1 = (0 : Word) := by
    unfold File.inUse fileFlagInUse at h
    simpa using h
  have hflags : (f.flags ||| 1) &&& ~~~(1 : Word) = f.flags := by
    apply BitVec.eq_of_getLsbD_eq
    intro i hi
    have hb := congrArg (fun w : Word => w.getLsbD i) h0
    simp only [BitVec.getLsbD_and, BitVec.getLsbD_or, BitVec.getLsbD_not, hi, decide_true,
      Bool.true_and] at hb ⊢
    cases h1 : (1 : Word).getLsbD i <;> cases hf : f.flags.getLsbD i <;> simp_all
  unfold File.claim File.clear fileFlagInUse
  rw [hflags]

/-! ## The search for a descriptor -/

/-- The scan stops at the least slot that is not in use. -/
theorem firstFree_spec (f : Fin 8 → File) :
    (∃ i, firstFree f (List.finRange 8) = some i ∧ LeastFree (fdMap f) i) ∨
      (firstFree f (List.finRange 8) = none ∧ ∀ i, fdMap f i ≠ none) := by
  have hmain : ∀ l pre : List (Fin 8), pre ++ l = List.finRange 8 →
      (∀ j ∈ pre, (f j).inUse = true) →
      (∃ i, firstFree f l = some i ∧ LeastFree (fdMap f) i) ∨
        (firstFree f l = none ∧ ∀ i, fdMap f i ≠ none) := by
    intro l
    induction l with
    | nil =>
        intro pre hpre hall
        right
        refine ⟨rfl, fun i => fdMap_ne_none.mpr (hall i ?_)⟩
        rw [List.append_nil] at hpre
        rw [hpre]
        exact List.mem_finRange i
    | cons i l ih =>
        intro pre hpre hall
        rw [firstFree]
        by_cases hu : (f i).inUse = true
        · rw [if_pos hu]
          refine ih (pre ++ [i]) (by rw [List.append_assoc]; exact hpre) ?_
          intro j hj
          rcases List.mem_append.mp hj with hj | hj
          · exact hall j hj
          · rw [List.mem_singleton.mp hj]; exact hu
        · left
          rw [if_neg hu]
          refine ⟨i, rfl, fdMap_eq_none.mpr (by simpa using hu), ?_⟩
          intro j hj
          -- the list is increasing, so what is below `i` came before it
          have hsorted : (pre ++ i :: l).Pairwise (· < ·) := by
            rw [hpre]; exact List.pairwise_lt_finRange 8
          have hmem : j ∈ pre ++ i :: l := by rw [hpre]; exact List.mem_finRange j
          rcases List.mem_append.mp hmem with hj' | hj'
          · exact fdMap_ne_none.mpr (hall j hj')
          · have htail := (List.pairwise_append.mp hsorted).2.1
            rcases List.mem_cons.mp hj' with rfl | hj''
            · exact absurd hj (lt_irrefl _)
            · exact absurd hj (not_lt.mpr (le_of_lt ((List.pairwise_cons.mp htail).1 j hj'')))
  exact hmain _ [] rfl (by simp)

/-! ## Opening -/

/-- The image has no file types but the three. -/
def TypesOk (img : Image) : Prop :=
  ∀ i, i < img.numDentry.toNat →
    img.ftype i = ftypeSpecial ∨ img.ftype i = ftypeDirectory ∨ img.ftype i = ftypeRegular

/-- The directory entry of a name. -/
def lookup (img : Image) (name : List Byte) : Option Nat :=
  dentrySearch img (cstr name) img.numDentry.toNat 0

/-- The operation table of a file type. -/
def opsOf (t : Word) : OpTable :=
  if t = ftypeRegular then .regular else if t = ftypeSpecial then .rtc else .directory

/-- The file a directory entry opens as. -/
def entryOf (img : Image) (i : Nat) : Entry where
  ops := opsOf (img.ftype i)
  inode := if img.ftype i = ftypeRegular then img.inodeNum i else 0
  pos := 0

/-- Opening a file that is there succeeds, and sets the record up as the entry says. -/
theorem kopen_found {img : Image} (ht : TypesOk img) {name : List Byte} {i : Nat}
    (h : lookup img name = some i) (d : Dentry) (f : File) :
    ∃ g, kopen img d f (cstr name) = some (0, g) ∧ g.flags = f.flags ∧
      Entry.ofFile g = entryOf img i := by
  have hlt : i < img.numDentry.toNat := by
    have := dentrySearch_lt h
    omega
  obtain ⟨h1, h2, h3⟩ := readDentryByName_found (d := d) h
  unfold kopen
  generalize readDentryByName img (cstr name) d = r at h1 h2 h3
  obtain ⟨status, d'⟩ := r
  dsimp only at h1 h2 h3 ⊢
  subst h1
  rw [if_neg (by decide), h2]
  rcases ht i hlt with hs | hd | hr
  · refine ⟨⟨.rtc, f.inode, 0, f.flags⟩, by rw [hs]; rfl, rfl, ?_⟩
    simp only [Entry.ofFile, entryOf, opsOf, hs]
    rfl
  · refine ⟨⟨.directory, f.inode, 0, f.flags⟩, by rw [hd]; rfl, rfl, ?_⟩
    simp only [Entry.ofFile, entryOf, opsOf, hd]
    rfl
  · refine ⟨⟨.regular, d'.inodeNum, 0, f.flags⟩, by rw [hr]; rfl, rfl, ?_⟩
    simp only [Entry.ofFile, entryOf, opsOf, hr, h3 hr]
    rfl

/-! ## Slots of the current process -/

theorem setFile_currentPcb (k : Kernel) (i : Fin 8) (g : File) :
    (setFile k i g).currentPcb = { k.currentPcb with f := Function.update k.currentPcb.f i g } := by
  simp [setFile, Kernel.currentPcb, Kernel.setPcb]

theorem setFile_setFile (k : Kernel) (i : Fin 8) (g h : File) :
    setFile (setFile k i g) i h = setFile k i h := by
  rw [setFile_eq (setFile k i g), setFile_currentPcb]
  simp [setFile, Kernel.setPcb]

theorem setFile_self (k : Kernel) (i : Fin 8) : setFile k i (k.currentPcb.f i) = k := by
  rw [setFile_eq, Function.update_eq_self]
  exact setPcb_currentPcb k

/-- `k'` is `k` with a different file table for the current process, and other memory. -/
structure OwnTable (k k' : Kernel) : Prop where
  current : k'.task.currentProcess = k.task.currentProcess
  others : ∀ p, p ≠ k.task.currentProcess → k'.task.pcb p = k.task.pcb p

theorem OwnTable.refl (k : Kernel) : OwnTable k k := ⟨rfl, fun _ _ => rfl⟩

theorem OwnTable.setFile (k : Kernel) (i : Fin 8) (g : File) (m : Mem) :
    OwnTable k { setFile k i g with ram := m } := by
  refine ⟨rfl, ?_⟩
  intro p hp
  show (Zbiggie.setFile k i g).task.pcb p = k.task.pcb p
  simp [Zbiggie.setFile, Kernel.setPcb, hp]

/-! ## The calls -/

/-- The four calls that use the file table, with the inputs the source leaves open. -/
inductive FdCall where
  | openFile (d : Dentry) (ptr : Word) (name : List Byte)
  | close (fd : Word)
  | read (d : Dentry) (dev : DeviceRead) (r : Regs)
  | write (d : Dentry) (dev : DeviceRead) (r : Regs)

/-- The value a call returns and the machine it leaves. -/
def FdCall.run (img : Image) (k : Kernel) : FdCall → Option (Int × Kernel)
  | .openFile d ptr name => syscallOpen img d ptr name k
  | .close fd => some (syscallClose fd.toInt k)
  | .read d dev r => (Zbiggie.read r k).run img d dev r k
  | .write d dev r => (Zbiggie.write r k).run img d dev r k

/-- A range of the program page. -/
def UserRange (p : Word) (n : Nat) : Prop := offset128M ≤ p.toNat ∧ p.toNat + n ≤ offset132M

/-- The pointers of a call are ranges of the program page. -/
def FdCall.Valid : FdCall → Prop
  | .openFile _ ptr name => UserRange ptr name.length
  | .close _ => True
  | .read _ _ r => UserRange r.ecx r.edx.toNat
  | .write _ _ r => UserRange r.ecx r.edx.toNat

theorem UserRange.accepted {p : Word} {n : Nat} (h : UserRange p n) :
    usrPtrOk p (BitVec.ofNat 32 n) ≠ 0 := by
  unfold UserRange at h
  have h1 : offset128M = 134217728 := rfl
  have h2 : offset132M = 138412032 := rfl
  have hp : p.toInt = p.toNat := BitVec.toInt_eq_toNat_of_lt (by omega)
  have hsum : (p + BitVec.ofNat 32 n).toNat = p.toNat + n := by
    rw [BitVec.toNat_add, BitVec.toNat_ofNat]
    omega
  unfold usrPtrOk
  rw [if_pos ⟨by omega, by omega⟩]
  decide

theorem UserRange.accepted_word {p n : Word} (h : UserRange p n.toNat) : usrPtrOk p n ≠ 0 := by
  have := h.accepted
  rwa [BitVec.ofNat_toNat, BitVec.setWidth_eq] at this

/-! ## What each call is for -/

/-- `open`: the least free descriptor, mapped to the entry found. -/
def OpenSpec (img : Image) (name : List Byte) (k : Kernel) (v : Int) (k' : Kernel) : Prop :=
  (v = -1 ↔ lookup img name = none ∨ ∀ i, fdMap k.currentPcb.f i ≠ none) ∧
    (v = -1 → k' = k) ∧
    (v ≠ -1 → ∃ fd i, lookup img name = some i ∧ LeastFree (fdMap k.currentPcb.f) fd ∧
      v = (fd.val : Int) ∧
      fdMap k'.currentPcb.f
        = Function.update (fdMap k.currentPcb.f) fd (some (entryOf img i)))

/-- `close`: exactly one descriptor unmapped, which is not a standard one. -/
def CloseSpec (n : Int) (k : Kernel) (v : Int) (k' : Kernel) : Prop :=
  (v = 0 ↔ 2 ≤ n ∧ n ≤ 7 ∧ mapAt (fdMap k.currentPcb.f) n ≠ none) ∧
    (v = 0 → ∃ fd : Fin 8, (fd.val : Int) = n ∧
      fdMap k'.currentPcb.f = Function.update (fdMap k.currentPcb.f) fd none) ∧
    (v ≠ 0 → v = -1 ∧ k' = k)

/-- `read`: nothing happens on an unmapped descriptor, and a mapped one may move on. -/
def ReadSpec (n : Int) (k : Kernel) (v : Int) (k' : Kernel) : Prop :=
  (mapAt (fdMap k.currentPcb.f) n = none → v = -1 ∧ k' = k) ∧
    (∀ e, mapAt (fdMap k.currentPcb.f) n = some e → ∃ (fd : Fin 8) (pos : Word),
      (fd.val : Int) = n ∧
      fdMap k'.currentPcb.f =
        Function.update (fdMap k.currentPcb.f) fd (some { e with pos := pos }))

/-- `write`: nothing happens on an unmapped descriptor, and no table changes on a mapped one. -/
def WriteSpec (n : Int) (k : Kernel) (v : Int) (k' : Kernel) : Prop :=
  (mapAt (fdMap k.currentPcb.f) n = none → v = -1 ∧ k' = k) ∧ k'.currentPcb.f = k.currentPcb.f

/-- A call does to the map what it is for, and nothing to any other process. -/
def FdCall.Meets (img : Image) (k : Kernel) (c : FdCall) (v : Int) (k' : Kernel) : Prop :=
  OwnTable k k' ∧
    match c with
    | .openFile _ _ name => OpenSpec img name k v k'
    | .close fd => CloseSpec fd.toInt k v k'
    | .read _ _ r => ReadSpec r.ebx.toInt k v k'
    | .write _ _ r => WriteSpec r.ebx.toInt k v k'

/-! ## The invariant -/

/-- The map entries of the two standard descriptors. -/
def stdinEntry : Entry := ⟨.stdin, 0, 0⟩
def stdoutEntry : Entry := ⟨.stdout, 0, 0⟩

/-- The standard descriptors are mapped, and what is open has operations. -/
structure TableInv (f : Fin 8 → File) : Prop where
  stdin : fdMap f 0 = some stdinEntry
  stdout : fdMap f 1 = some stdoutEntry
  ops : ∀ i, (f i).inUse = true → (f i).optable ≠ .null

theorem tableInv_std : TableInv stdFiles where
  stdin := by decide
  stdout := by decide
  ops := by decide

/-- A slot above the standard ones may be given any operations, or up. -/
theorem TableInv.update {f : Fin 8 → File} (hf : TableInv f) {i : Fin 8} (hi : 2 ≤ i.val)
    {g : File} (hg : g.inUse = true → g.optable ≠ .null) : TableInv (Function.update f i g) where
  stdin := by
    rw [fdMap_update,
      Function.update_of_ne (fun h => by rw [← h] at hi; exact absurd hi (by decide))]
    exact hf.stdin
  stdout := by
    rw [fdMap_update,
      Function.update_of_ne (fun h => by rw [← h] at hi; exact absurd hi (by decide))]
    exact hf.stdout
  ops := by
    intro j hj
    by_cases hji : j = i
    · rw [hji, Function.update_self] at hj ⊢
      exact hg hj
    · rw [Function.update_of_ne hji] at hj ⊢
      exact hf.ops j hj

/-- A free slot is above the standard ones. -/
theorem TableInv.two_le {f : Fin 8 → File} (hf : TableInv f) {i : Fin 8} (h : fdMap f i = none) :
    2 ≤ i.val := by
  by_contra hlt
  have : i = 0 ∨ i = 1 := by
    rcases (by omega : i.val = 0 ∨ i.val = 1) with h | h
    · exact .inl (Fin.ext h)
    · exact .inr (Fin.ext h)
  rcases this with rfl | rfl
  · rw [hf.stdin] at h; cases h
  · rw [hf.stdout] at h; cases h

/-! ## The calls, one by one -/

/-- `get_file` is the map. -/
theorem getFile_cases (k : Kernel) (n : Int) :
    (∃ fd : Fin 8, (fd.val : Int) = n ∧ getFile k n = some fd ∧ (k.currentPcb.f fd).inUse = true ∧
        mapAt (fdMap k.currentPcb.f) n = some (.ofFile (k.currentPcb.f fd))) ∨
      (getFile k n = none ∧ mapAt (fdMap k.currentPcb.f) n = none) := by
  unfold getFile mapAt
  by_cases hn : 0 ≤ n ∧ n < 8
  · rw [dif_pos hn, dif_pos hn]
    dsimp only
    by_cases hu : (k.currentPcb.f ⟨n.toNat, by omega⟩).inUse = true
    · refine .inl ⟨⟨n.toNat, by omega⟩, ?_, if_pos hu, hu, if_pos hu⟩
      show ((n.toNat : Nat) : Int) = n
      omega
    · exact .inr ⟨if_neg hu, if_neg hu⟩
  · rw [dif_neg hn, dif_neg hn]
    exact .inr ⟨rfl, rfl⟩

/-- **`open`.** The slot is claimed first; a name that is not found gives it back. -/
theorem syscallOpen_meets {img : Image} (ht : TypesOk img) {k : Kernel}
    (hk : TableInv k.currentPcb.f) (d : Dentry) {ptr : Word} {name : List Byte}
    (hp : UserRange ptr name.length) :
    ∃ v k', syscallOpen img d ptr name k = some (v, k') ∧ OwnTable k k' ∧
      OpenSpec img name k v k' ∧ TableInv k'.currentPcb.f := by
  unfold syscallOpen
  rw [if_neg hp.accepted]
  rcases firstFree_spec k.currentPcb.f with ⟨fd, hfd, hleast⟩ | ⟨hnone, hall⟩
  · have h2 : 2 ≤ fd.val := hk.two_le hleast.1
    have hunused : (k.currentPcb.f fd).inUse = false := fdMap_eq_none.mp hleast.1
    have hslot : (setFile k fd (k.currentPcb.f fd).claim).currentPcb.f fd
        = (k.currentPcb.f fd).claim := by
      rw [setFile_currentPcb]; exact Function.update_self ..
    simp only [getNewFd, hfd, hslot]
    cases hl : lookup img name with
    | none =>
        -- claiming and freeing the slot leaves the bytes that were there
        have hfree : freeFd (fd.val : Int) (setFile k fd (k.currentPcb.f fd).claim) = (0, k) := by
          unfold freeFd
          rw [dif_pos ⟨by omega, by have := fd.isLt; omega⟩]
          simp only [Int.toNat_natCast, Fin.eta, hslot]
          rw [if_pos (inUse_claim _), setFile_setFile, clear_claim hunused, setFile_self]
        rw [kopen_missing (d := d) (f := (k.currentPcb.f fd).claim) hl]
        refine ⟨-1, k, ?_, .refl k, ⟨?_, fun _ => rfl, fun h => absurd rfl h⟩, hk⟩
        · dsimp only
          rw [if_pos (by decide), setFile_setFile, hfree]
        · exact ⟨fun _ => .inl hl, fun _ => rfl⟩
    | some i =>
        obtain ⟨g, hg, hflags, hentry⟩ := kopen_found ht hl d (k.currentPcb.f fd).claim
        have huse : g.inUse = true := by
          unfold File.inUse
          rw [hflags]
          exact inUse_claim _
        have hops : g.optable ≠ .null := by
          have hops' : g.optable = opsOf (img.ftype i) := congrArg Entry.ops hentry
          rw [hops', opsOf]
          split
          · decide
          · split <;> decide
        rw [hg]
        refine ⟨fd.val, setFile k fd g, ?_, ?_, ⟨?_, ?_, ?_⟩, ?_⟩
        · dsimp only
          rw [if_neg (by decide), setFile_setFile]
        · exact OwnTable.setFile k fd g k.ram
        · constructor
          · intro h; omega
          · rintro (h | h)
            · rw [hl] at h; cases h
            · exact absurd hleast.1 (h fd)
        · intro h; omega
        · intro _
          refine ⟨fd, i, hl, hleast, rfl, ?_⟩
          rw [setFile_currentPcb]
          dsimp only
          rw [fdMap_update, if_pos huse, hentry]
        · rw [setFile_currentPcb]
          exact hk.update h2 (fun _ => hops)
  · simp only [getNewFd, hnone]
    exact ⟨-1, k, rfl, .refl k, ⟨⟨fun _ => .inr hall, fun _ => rfl⟩, fun _ => rfl,
      fun h => absurd rfl h⟩, hk⟩

/-- **`close`.** `get_file` and `free_fd` check the range twice, with different lower ends. -/
theorem syscallClose_meets {k : Kernel} (hk : TableInv k.currentPcb.f) (n : Int) :
    ∃ v k', syscallClose n k = (v, k') ∧ OwnTable k k' ∧ CloseSpec n k v k' ∧
      TableInv k'.currentPcb.f := by
  unfold syscallClose
  rcases getFile_cases k n with ⟨fd, rfl, hget, huse, hmap⟩ | ⟨hget, hmap⟩
  · rw [hget]
    dsimp only
    unfold freeFd
    have hlt := fd.isLt
    by_cases h2 : 2 ≤ fd.val
    · rw [dif_pos ⟨by omega, by omega⟩]
      simp only [Int.toNat_natCast, Fin.eta]
      rw [if_pos huse]
      refine ⟨0, _, rfl, OwnTable.setFile k fd _ k.ram, ⟨?_, ?_, fun h => absurd rfl h⟩, ?_⟩
      · exact ⟨fun _ => ⟨by omega, by omega, by rw [hmap]; simp⟩, fun _ => rfl⟩
      · intro _
        refine ⟨fd, rfl, ?_⟩
        rw [setFile_currentPcb]
        dsimp only
        rw [fdMap_update, inUse_clear]
        rfl
      · rw [setFile_currentPcb]
        exact hk.update h2 (fun h => by rw [inUse_clear] at h; cases h)
    · rw [dif_neg (by omega)]
      exact ⟨-1, k, rfl, .refl k, ⟨⟨fun h => by omega, fun h => by omega⟩, fun h => by omega,
        fun _ => ⟨rfl, rfl⟩⟩, hk⟩
  · rw [hget]
    exact ⟨-1, k, rfl, .refl k, ⟨⟨fun h => by omega, fun h => absurd hmap h.2.2⟩,
      fun h => by omega, fun _ => ⟨rfl, rfl⟩⟩, hk⟩

/-- No read operation writes more of a `FILE` than its position; the terminal not even that. -/
theorem kread_pos {f : File} (hf : f.optable ≠ .null) (img : Image) (d : Dentry)
    (dev : DeviceRead) (buf : Nat) (n : Word) (m : Mem) :
    ∃ v pos m', kread img d dev f buf n m = some (v, { f with pos := pos }, m') ∧
      (f.optable = .stdin ∨ f.optable = .stdout → pos = f.pos) := by
  obtain ⟨ops, inode, p, flags⟩ := f
  cases ops with
  | null => exact absurd rfl hf
  | regular =>
      show ∃ v pos m', some (regularRead img _ buf n m) = _ ∧ _
      unfold regularRead
      split
      split
      · exact ⟨_, p, _, rfl, fun _ => rfl⟩
      · refine ⟨_, _, _, rfl, ?_⟩
        rintro (h | h) <;> cases h
  | directory =>
      show ∃ v pos m', some (directoryRead img d _ buf n m) = _ ∧ _
      unfold directoryRead
      split
      split
      · exact ⟨_, p, _, rfl, fun _ => rfl⟩
      · refine ⟨_, _, _, rfl, ?_⟩
        rintro (h | h) <;> cases h
  | rtc => exact ⟨_, p, _, rfl, fun _ => rfl⟩
  | stdin => exact ⟨_, p, _, rfl, fun _ => rfl⟩
  | stdout => exact ⟨_, p, _, rfl, fun _ => rfl⟩

theorem kwrite_returns {f : File} (hf : f.optable ≠ .null) (buf : Nat) (n : Word) (m : Mem) :
    ∃ v, kwrite f buf n m = some v := by
  unfold kwrite
  cases hops : f.optable with
  | null => exact absurd hops hf
  | regular | directory | rtc | stdin | stdout => exact ⟨_, rfl⟩

/-- A standard descriptor has its own operations, and no position. -/
theorem TableInv.pos_update {f : Fin 8 → File} (hf : TableInv f) {i : Fin 8} {pos : Word}
    (huse : (f i).inUse = true)
    (hpos : (f i).optable = .stdin ∨ (f i).optable = .stdout → pos = (f i).pos) :
    TableInv (Function.update f i { f i with pos := pos }) := by
  by_cases h2 : 2 ≤ i.val
  · exact hf.update h2 (fun _ => hf.ops i huse)
  · have hstd : (f i).optable = .stdin ∨ (f i).optable = .stdout := by
      have hlow : i = 0 ∨ i = 1 := by
        rcases (by omega : i.val = 0 ∨ i.val = 1) with h | h
        · exact .inl (Fin.ext h)
        · exact .inr (Fin.ext h)
      have hops : ∀ {e : Entry}, fdMap f i = some e → (f i).optable = e.ops := by
        intro e he
        unfold fdMap at he
        rw [if_pos huse] at he
        exact congrArg Entry.ops (Option.some.inj he)
      rcases hlow with rfl | rfl
      · exact .inl (hops hf.stdin)
      · exact .inr (hops hf.stdout)
    rw [hpos hstd]
    show TableInv (Function.update f i (f i))
    rw [Function.update_eq_self]
    exact hf

/-- **`read`.** -/
theorem read_meets {k : Kernel} (hk : TableInv k.currentPcb.f) (img : Image) (d : Dentry)
    (dev : DeviceRead) {r : Regs} (hp : UserRange r.ecx r.edx.toNat) :
    ∃ v k', (read r k).run img d dev r k = some (v, k') ∧ OwnTable k k' ∧
      ReadSpec r.ebx.toInt k v k' ∧ TableInv k'.currentPcb.f := by
  unfold read
  rw [if_neg hp.accepted_word]
  rcases getFile_cases k r.ebx.toInt with ⟨fd, hfd, hget, huse, hmap⟩ | ⟨hget, hmap⟩
  · obtain ⟨v, pos, m, hread, hpos⟩ := kread_pos (hk.ops fd huse) img d dev
      (userPhys k.task.currentProcess r.ecx.toNat) r.edx k.ram
    rw [hget]
    refine ⟨v, { setFile k fd { k.currentPcb.f fd with pos := pos } with ram := m }, ?_,
      OwnTable.setFile k fd _ m, ⟨?_, ?_⟩, ?_⟩
    · simp only [Call.run, hread, Option.map_some]
    · intro h; rw [hmap] at h; cases h
    · intro e he
      rw [hmap] at he
      obtain rfl := Option.some.inj he
      refine ⟨fd, pos, hfd, ?_⟩
      show fdMap (setFile k fd _).currentPcb.f = _
      rw [setFile_currentPcb]
      dsimp only
      rw [fdMap_update]
      congr 1
      exact if_pos huse
    · show TableInv (setFile k fd _).currentPcb.f
      rw [setFile_currentPcb]
      exact hk.pos_update huse hpos
  · rw [hget]
    refine ⟨-1, k, rfl, .refl k, ⟨fun _ => ⟨rfl, rfl⟩, ?_⟩, hk⟩
    intro e he
    rw [hmap] at he; cases he

/-- **`write`.** -/
theorem write_meets {k : Kernel} (hk : TableInv k.currentPcb.f) (img : Image) (d : Dentry)
    (dev : DeviceRead) {r : Regs} (hp : UserRange r.ecx r.edx.toNat) :
    ∃ v k', (write r k).run img d dev r k = some (v, k') ∧ OwnTable k k' ∧
      WriteSpec r.ebx.toInt k v k' ∧ TableInv k'.currentPcb.f := by
  unfold write
  rw [if_neg hp.accepted_word]
  rcases getFile_cases k r.ebx.toInt with ⟨fd, hfd, hget, huse, hmap⟩ | ⟨hget, hmap⟩
  · obtain ⟨v, hv⟩ := kwrite_returns (hk.ops fd huse)
      (userPhys k.task.currentProcess r.ecx.toNat) r.edx k.ram
    rw [hget]
    refine ⟨v, k, ?_, .refl k, ⟨?_, rfl⟩, hk⟩
    · simp only [Call.run, hv, Option.map_some]
    · intro h
      rw [hmap] at h; cases h
  · rw [hget]
    exact ⟨-1, k, rfl, .refl k, ⟨fun _ => ⟨rfl, rfl⟩, rfl⟩, hk⟩

/-- **One call.** It returns, it meets its purpose, and the table stays sound. -/
theorem FdCall.run_meets {img : Image} (ht : TypesOk img) {k : Kernel}
    (hk : TableInv k.currentPcb.f) {c : FdCall} (hc : c.Valid) :
    ∃ v k', c.run img k = some (v, k') ∧ c.Meets img k v k' ∧ TableInv k'.currentPcb.f := by
  cases c with
  | openFile d ptr name =>
      obtain ⟨v, k', h1, h2, h3, h4⟩ := syscallOpen_meets ht hk d hc
      exact ⟨v, k', h1, ⟨h2, h3⟩, h4⟩
  | close fd =>
      obtain ⟨v, k', h1, h2, h3, h4⟩ := syscallClose_meets hk fd.toInt
      exact ⟨v, k', congrArg some h1, ⟨h2, h3⟩, h4⟩
  | read d dev r =>
      obtain ⟨v, k', h1, h2, h3, h4⟩ := read_meets hk img d dev hc
      exact ⟨v, k', h1, ⟨h2, h3⟩, h4⟩
  | write d dev r =>
      obtain ⟨v, k', h1, h2, h3, h4⟩ := write_meets hk img d dev hc
      exact ⟨v, k', h1, ⟨h2, h3⟩, h4⟩

/-! ## Every sequence of calls -/

/-- One call of a sequence, with valid pointers. -/
def FdStep (img : Image) (k : Kernel) (c : FdCall) (k' : Kernel) : Prop :=
  c.Valid ∧ ∃ v, c.run img k = some (v, k')

/-- What holds of the machine between two calls, `k₀` being the machine they began in. -/
structure FdInv (k₀ k : Kernel) : Prop where
  own : OwnTable k₀ k
  table : TableInv k.currentPcb.f

theorem fdInv_step {img : Image} (ht : TypesOk img) {k₀ k k' : Kernel} {c : FdCall}
    (h : FdStep img k c k') (hi : FdInv k₀ k) : FdInv k₀ k' := by
  obtain ⟨hc, v, hv⟩ := h
  obtain ⟨v', k'', hv', hmeets, htable⟩ := FdCall.run_meets ht hi.table hc
  rw [hv] at hv'
  cases hv'
  have hown := hmeets.1
  refine ⟨⟨hown.current.trans hi.own.current, ?_⟩, htable⟩
  intro p hp
  rw [hown.others p (by rw [hi.own.current]; exact hp)]
  exact hi.own.others p hp

/-- A process just set up has its standard descriptors and no others. -/
theorem setupNewProcess_table {L : Layout} {k k' : Kernel} (h : setupNewProcess L k = some k') :
    k'.currentPcb.f = stdFiles := by
  rw [setupNewProcess_eq, Option.map_eq_some_iff] at h
  obtain ⟨n, _, rfl⟩ := h
  have hv := procs_newProcess L n k
  have hfiles := congrArg (fun v : ProcView => v.files v.current) hv
  have : ((procs k).alloc n).files ((procs k).alloc n).current = stdFiles :=
    Function.update_self (f := (procs k).files) ..
  exact hfiles.trans this

/--
**The file table is the map.** After any calls a new process makes, its standard
descriptors are mapped as they were and no other process has lost or gained a file;
and whatever it calls next returns, and acts on the map as that call should.
-/
theorem fdTable_refines {img : Image} (ht : TypesOk img) {L : Layout} {k₀ k k' : Kernel}
    (h₀ : setupNewProcess L k₀ = some k) {cs : List FdCall} (h : Run (FdStep img) k cs k') :
    (fdMap k'.currentPcb.f 0 = some stdinEntry ∧ fdMap k'.currentPcb.f 1 = some stdoutEntry) ∧
      OwnTable k k' ∧
      ∀ c : FdCall, c.Valid → ∃ v k'', c.run img k' = some (v, k'') ∧ c.Meets img k' v k'' := by
  have hinit : FdInv k k :=
    ⟨.refl k, by rw [setupNewProcess_table h₀]; exact tableInv_std⟩
  have hinv := Run.invariant (I := FdInv k) hinit (fun _ _ _ hs hi => fdInv_step ht hs hi) h
  refine ⟨⟨hinv.table.stdin, hinv.table.stdout⟩, hinv.own, ?_⟩
  intro c hc
  obtain ⟨v, k'', hv, hmeets, _⟩ := FdCall.run_meets ht hinv.table hc
  exact ⟨v, k'', hv, hmeets⟩

/-- A first process opens the one file there is and closes it again. -/
theorem fdTable_refines_open_close :
    ∃ k k', setupNewProcess someLayout .zero = some k ∧
      Run (FdStep (oneFile [0x61] [])) k
        [.openFile someLocals.dentry 0x08000000 [0x61], .close 2] k' ∧
      (fdMap k'.currentPcb.f 0 = some stdinEntry ∧ fdMap k'.currentPcb.f 1 = some stdoutEntry) ∧
      OwnTable k k' ∧
      ∀ c : FdCall, c.Valid →
        ∃ v k'', c.run (oneFile [0x61] []) k' = some (v, k'') ∧
          c.Meets (oneFile [0x61] []) k' v k'' := by
  have ht : TypesOk (oneFile [0x61] []) := by
    intro i hi
    obtain rfl : i = 0 := by
      have : (oneFile [0x61] []).numDentry.toNat = 1 := by decide
      omega
    right; right
    decide
  have h₀ : setupNewProcess someLayout .zero = some (newProcess someLayout 1 .zero) := by
    rw [setupNewProcess_eq]
    rfl
  have hi : TableInv (newProcess someLayout 1 .zero).currentPcb.f := by
    rw [setupNewProcess_table h₀]; exact tableInv_std
  have hopen : (FdCall.openFile someLocals.dentry 0x08000000 [0x61]).Valid := ⟨by decide, by decide⟩
  obtain ⟨v1, k1, h1, _, i1⟩ := FdCall.run_meets ht hi hopen
  obtain ⟨v2, k2, h2, _, _⟩ := FdCall.run_meets ht i1 (c := .close 2) trivial
  have hrun : Run (FdStep (oneFile [0x61] [])) (newProcess someLayout 1 .zero) _ k2 :=
    (Run.one (a := FdCall.openFile someLocals.dentry 0x08000000 [0x61]) ⟨hopen, v1, h1⟩).append
      (Run.one (a := FdCall.close 2) ⟨trivial, v2, h2⟩)
  exact ⟨_, k2, h₀, hrun, fdTable_refines ht h₀ hrun⟩

end Zbiggie.Proof
