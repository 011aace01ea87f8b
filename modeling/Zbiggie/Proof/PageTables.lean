import Zbiggie.Kernel.Syscall

/-!
# Translation under the kernel's page tables

The tables take few shapes. A directory is the kernel's or a process's
(`kernelPdRow`, `pdRow`); the low table is the identity with nothing present,
except for the video entry, which is present and maps to the video page or to one
of the three terminal buffers; the video table maps the buffers, then the video
page. `Tables` says so, every operation keeps it, and the walk of any address is
computed from it.
-/

namespace Zbiggie.Proof

open Zbiggie Machine

/-! ## Entries -/

/-- An aligned address keeps its frame under any flags. -/
theorem entry_frame {a f : Word} (ha : a &&& 0xFFF#32 = 0) (hf : f &&& pdeAddressMask = 0) :
    ((a &&& pdeAddressMask) ||| f) &&& pdeAddressMask = a := by
  have hself : a &&& pdeAddressMask = a := by
    have hsplit : a &&& pdeAddressMask ||| a &&& 0xFFF#32 = a := by
      rw [← BitVec.and_or_distrib_left]
      have hones : pdeAddressMask ||| 0xFFF#32 = BitVec.allOnes 32 := by decide
      rw [hones, BitVec.and_allOnes]
    rw [ha] at hsplit
    simpa using hsplit
  rw [BitVec.and_or_distrib_right, hf, BitVec.and_assoc, BitVec.and_self, hself]
  simp

/-- The low twelve bits of an entry are its flags. -/
theorem entry_flag (a f : Word) {j : Nat} (hj : j < 12) :
    ((a &&& pdeAddressMask) ||| f).getLsbD j = f.getLsbD j := by
  have hmask : ∀ j : Fin 12, pdeAddressMask.getLsbD j.val = false := by decide
  rw [BitVec.getLsbD_or, BitVec.getLsbD_and, hmask ⟨j, hj⟩, Bool.and_false, Bool.false_or]

/-- The frame a table entry maps to. -/
def frame (e : Word) : Nat := (e &&& pdeAddressMask).toNat

@[simp] theorem frame_videoPte : frame videoPte = offsetVideo := by decide

theorem frame_bufferPte (t : Term) : frame (bufferPte t) = bufferPage t := by
  revert t; decide

/-- The frame in `low_memory_table`'s video entry. -/
def lowFrame (k : Kernel) : Nat := frame (k.page.lowMemoryTable videoEntry)

/-! ## The shape of the tables -/

/-- The two page tables, as `init_paging` builds them and everything else keeps them. -/
structure Tables (k : Kernel) : Prop where
  /-- Outside the video entry the low table maps nothing. -/
  low : ∀ i, i ≠ videoEntry → k.page.lowMemoryTable i = BitVec.ofNat 32 (i * offset4K)
  /-- The video entry is the video page's or a buffer's. -/
  video : k.page.lowMemoryTable videoEntry = videoPte ∨
    ∃ t : Term, k.page.lowMemoryTable videoEntry = bufferPte t
  /-- The video table holds the buffers. -/
  buffer : ∀ t : Term, k.page.videoTable t = bufferPte t
  /-- Behind them it holds the video page. -/
  screen : k.page.videoTable 3 = videoPte

theorem Tables.lowFrame_cases {k : Kernel} (h : Tables k) :
    lowFrame k = offsetVideo ∨ ∃ t : Term, lowFrame k = bufferPage t := by
  unfold lowFrame
  rcases h.video with he | ⟨t, he⟩
  · left; rw [he, frame_videoPte]
  · right; exact ⟨t, by rw [he, frame_bufferPte]⟩

theorem Tables.video_allows {k : Kernel} (h : Tables k) (user : Bool) :
    allows user (k.page.lowMemoryTable videoEntry) = true := by
  have hbuf : ∀ (t : Term) (user : Bool), allows user (bufferPte t) = true := by decide
  rcases h.video with he | ⟨t, he⟩
  · rw [he]; cases user <;> decide
  · rw [he]; exact hbuf t user

/-- Every other low entry is absent. -/
theorem low_absent (user : Bool) (i : Nat) :
    allows user (BitVec.ofNat 32 (i * offset4K)) = false := by
  have hbit : (BitVec.ofNat 32 (i * offset4K)).getLsbD 0 = false := by
    rw [BitVec.getLsbD_ofNat]
    have h2 : i * offset4K = 2 * (i * 2048) := by simp only [offset4K]; omega
    rw [h2, Nat.testBit_zero]
    simp
  unfold allows
  rw [hbit, Bool.false_and]

/-! ## Rows -/

theorem pdRow_zero (L : Layout) (p : Nat) :
    pdRow L p 0 = (L.lowMemoryTable &&& pdeAddressMask) ||| pdePresent := by
  simp [pdRow, Function.update, numPds, maxPid, userPageDir]

theorem pdRow_one (L : Layout) (p : Nat) :
    pdRow L p 1 = BitVec.ofNat 32 offset4M ||| pdeSize ||| pdePresent := by
  simp [pdRow, Function.update, numPds, maxPid, userPageDir]

theorem pdRow_program (L : Layout) (p : Nat) :
    pdRow L p 32 = BitVec.ofNat 32 ((p + 1) * offset4M) ||| pdeSize ||| pdePresent ||| pdeUser
      ||| pdeWrite := by
  simp [pdRow, Function.update, numPds, maxPid, userPageDir]

theorem pdRow_vidmap (L : Layout) (p : Nat) :
    pdRow L p 33
      = (L.lowMemoryTable &&& pdeAddressMask) ||| (pdePresent ||| pdeUser ||| pdeWrite) := by
  simp [pdRow, Function.update, numPds, maxPid, userPageDir, BitVec.or_assoc]

theorem pdRow_buffers (L : Layout) (p : Nat) :
    pdRow L p 12 = (L.videoTable &&& pdeAddressMask) ||| pdePresent := by
  simp [pdRow, numPds, maxPid, userPageDir]

theorem pdRow_other (L : Layout) (p : Nat) {i : Nat} (h0 : i ≠ 0) (h1 : i ≠ 1) (h12 : i ≠ 12)
    (h32 : i ≠ 32) (h33 : i ≠ 33) : pdRow L p i = 0 := by
  simp [pdRow, Function.update, numPds, maxPid, userPageDir, h0, h1, h12, h32, h33]

/-! ## The walk, by the kind of directory entry -/

section Walk

variable {L : Layout} {k : Kernel} {pd : Nat} {user : Bool} {v e : Word}

theorem translate_absent (he : k.page.pageDirectories pd (v.toNat / offset4M) = e)
    (hno : allows user e = false) : translate L k pd user v = none := by
  unfold translate
  simp only [he, hno, Bool.false_eq_true, if_false]

theorem translate_large (he : k.page.pageDirectories pd (v.toNat / offset4M) = e)
    (hok : allows user e = true) (hsize : e.getLsbD 7 = true) :
    translate L k pd user v = some ((e &&& pdeLargeMask).toNat + v.toNat % offset4M) := by
  unfold translate
  simp only [he, hok, hsize, if_true]

theorem translate_table (he : k.page.pageDirectories pd (v.toNat / offset4M) = e)
    (hok : allows user e = true) (hsize : e.getLsbD 7 = false) :
    translate L k pd user v =
      let pte := tableEntry L k (e &&& pdeAddressMask) (v.toNat / offset4K % 1024)
      if allows user pte then some (frame pte + v.toNat % offset4K) else none := by
  unfold translate
  simp only [he, hok, hsize, if_true, Bool.false_eq_true, if_false, frame]

/-- A walk into the low table ends at the video entry or nowhere. -/
theorem translate_low (hk : Tables k) {f : Word}
    (he : k.page.pageDirectories pd (v.toNat / offset4M)
      = (L.lowMemoryTable &&& pdeAddressMask) ||| f)
    (hf : f &&& pdeAddressMask = 0) (hok : allows user f = true) (hsize : f.getLsbD 7 = false) :
    translate L k pd user v =
      if v.toNat / offset4K % 1024 = videoEntry then some (lowFrame k + v.toNat % offset4K)
      else none := by
  have hok' : allows user ((L.lowMemoryTable &&& pdeAddressMask) ||| f) = true := by
    unfold allows at hok ⊢
    rwa [entry_flag _ _ (by omega), entry_flag _ _ (by omega)]
  have hsize' : ((L.lowMemoryTable &&& pdeAddressMask) ||| f).getLsbD 7 = false := by
    rwa [entry_flag _ _ (by omega)]
  rw [translate_table he hok' hsize', entry_frame L.low_aligned hf]
  simp only [tableEntry, if_pos]
  by_cases hv : v.toNat / offset4K % 1024 = videoEntry
  · rw [hv, if_pos (hk.video_allows user), if_pos rfl]
    rfl
  · rw [hk.low _ hv, low_absent, if_neg hv]
    rfl

/-- A walk into the video table ends in a buffer, or in the video page. -/
theorem translate_video {f : Word}
    (he : k.page.pageDirectories pd (v.toNat / offset4M) = (L.videoTable &&& pdeAddressMask) ||| f)
    (hf : f &&& pdeAddressMask = 0) (hok : allows user f = true) (hsize : f.getLsbD 7 = false)
    (hpte : allows user (k.page.videoTable (v.toNat / offset4K % 1024)) = true) :
    translate L k pd user v =
      some (frame (k.page.videoTable (v.toNat / offset4K % 1024)) + v.toNat % offset4K) := by
  have hok' : allows user ((L.videoTable &&& pdeAddressMask) ||| f) = true := by
    unfold allows at hok ⊢
    rwa [entry_flag _ _ (by omega), entry_flag _ _ (by omega)]
  have hsize' : ((L.videoTable &&& pdeAddressMask) ||| f).getLsbD 7 = false := by
    rwa [entry_flag _ _ (by omega)]
  rw [translate_table he hok' hsize', entry_frame L.video_aligned hf]
  simp only [tableEntry, if_neg L.ne, if_pos]
  rw [if_pos hpte]

end Walk

/-! ## User mode -/

/-- The frame of a program page. -/
theorem program_frame {p : Nat} (h10 : p ≤ maxPid) :
    ((BitVec.ofNat 32 ((p + 1) * offset4M) ||| pdeSize ||| pdePresent ||| pdeUser ||| pdeWrite)
      &&& pdeLargeMask).toNat = (p + 1) * offset4M := by
  have hall : ∀ q : Fin 11, ((BitVec.ofNat 32 ((q.val + 1) * offset4M) ||| pdeSize ||| pdePresent
      ||| pdeUser ||| pdeWrite) &&& pdeLargeMask).toNat = (q.val + 1) * offset4M := by decide
  exact hall ⟨p, Nat.lt_succ_of_le h10⟩

/-- **What a process can reach.** The walk of every address in user mode. -/
theorem translate_user {L : Layout} {k : Kernel} {p : Nat} (hk : Tables k)
    (hp : k.page.pageDirectories p = pdRow L p) (h10 : p ≤ maxPid) (v : Word) :
    translate L k p true v =
      if offset128M ≤ v.toNat ∧ v.toNat < offset132M then
        some ((p + 1) * offset4M + (v.toNat - offset128M))
      else if
          offset132M + offsetVideo ≤ v.toNat ∧ v.toNat < offset132M + offsetVideo + offset4K then
        some (lowFrame k + (v.toNat - (offset132M + offsetVideo)))
      else none := by
  -- by the directory entry of the address
  by_cases h32 : v.toNat / offset4M = 32
  · have hin : offset128M ≤ v.toNat ∧ v.toNat < offset132M := by
      simp only [offset128M, offset132M, offset4M] at h32 ⊢; omega
    have he : k.page.pageDirectories p (v.toNat / offset4M) = BitVec.ofNat 32 ((p + 1) * offset4M)
        ||| pdeSize ||| pdePresent ||| pdeUser ||| pdeWrite := by
      rw [hp, h32, pdRow_program]
    rw [if_pos hin, translate_large he (by simp [allows, pdeSize, pdePresent, pdeUser, pdeWrite])
      (by simp [pdeSize, pdePresent, pdeUser, pdeWrite]), program_frame h10]
    have hoff : v.toNat % offset4M = v.toNat - offset128M := by
      simp only [offset128M, offset4M] at h32 ⊢; omega
    rw [hoff]
  · have hout : ¬ (offset128M ≤ v.toNat ∧ v.toNat < offset132M) := by
      simp only [offset128M, offset132M, offset4M] at h32 ⊢; omega
    rw [if_neg hout]
    by_cases h33 : v.toNat / offset4M = 33
    · have hpage : v.toNat / offset4K % 1024 = videoEntry ↔ offset132M + offsetVideo ≤ v.toNat ∧
          v.toNat < offset132M + offsetVideo + offset4K := by
        simp only [offset4M, offset4K, offset132M, videoEntry, offsetVideo] at h33 ⊢; omega
      rw [translate_low hk (by rw [hp, h33, pdRow_vidmap]) (by decide) (by decide)
        (by decide)]
      by_cases hv : v.toNat / offset4K % 1024 = videoEntry
      · rw [if_pos hv, if_pos (hpage.mp hv)]
        have hin := hpage.mp hv
        have hoff : v.toNat % offset4K = v.toNat - (offset132M + offsetVideo) := by
          simp only [offset4M, offset4K, offset132M, offsetVideo] at hin ⊢; omega
        rw [hoff]
      · rw [if_neg hv, if_neg (fun h => hv (hpage.mpr h))]
    · have hvid : ¬ (offset132M + offsetVideo ≤ v.toNat ∧
          v.toNat < offset132M + offsetVideo + offset4K) := by
        simp only [offset132M, offset4M, offsetVideo, offset4K] at h33 ⊢; omega
      rw [if_neg hvid]
      have hflag : ∀ (a f : Word), f.getLsbD 2 = false →
          allows true ((a &&& pdeAddressMask) ||| f) = false := by
        intro a f hf
        unfold allows
        rw [entry_flag a f (by omega : 2 < 12), hf]
        simp
      -- the four remaining present entries are the kernel's own
      by_cases h0 : v.toNat / offset4M = 0
      · exact translate_absent (by rw [hp, h0, pdRow_zero]) (hflag _ _ (by decide))
      by_cases hone : v.toNat / offset4M = 1
      · exact translate_absent (by rw [hp, hone, pdRow_one]) (by decide)
      by_cases h12 : v.toNat / offset4M = 12
      · exact translate_absent (by rw [hp, h12, pdRow_buffers]) (hflag _ _ (by decide))
      · exact translate_absent (by rw [hp, pdRow_other L p h0 hone h12 h32 h33]) (by decide)

/-! ## Supervisor mode -/

/-- What the kernel relies on in whichever directory is selected. -/
structure KernelDir (L : Layout) (row : Nat → Word) : Prop where
  low : row 0 = (L.lowMemoryTable &&& pdeAddressMask) ||| pdePresent
  video : row 12 = (L.videoTable &&& pdeAddressMask) ||| pdePresent ∨
    row 12 = (L.videoTable &&& pdeAddressMask) ||| (pdePresent ||| pdeWrite ||| pdeUser)

theorem kernelDir_pdRow (L : Layout) (p : Nat) : KernelDir L (pdRow L p) :=
  ⟨pdRow_zero L p, .inl (pdRow_buffers L p)⟩

theorem kernelDir_kernelPdRow (L : Layout) : KernelDir L (kernelPdRow L) where
  low := by simp [kernelPdRow, Function.update, numPds, maxPid]
  video := by
    right
    simp [kernelPdRow, numPds, maxPid, BitVec.or_assoc]

/-- The selected directory is one of the kernel's making. -/
def Selected (L : Layout) (k : Kernel) : Prop :=
  KernelDir L (k.page.pageDirectories k.page.cr3)

/-- The physical page behind page `i` of the video table. -/
def videoFrame (i : Nat) : Nat := if i = 3 then offsetVideo else bufferPage i

theorem Tables.video_entry {k : Kernel} (h : Tables k) {i : Nat} (hi : i < 4) :
    allows false (k.page.videoTable i) = true ∧ frame (k.page.videoTable i) = videoFrame i := by
  by_cases h3 : i = 3
  · subst h3
    rw [h.screen]
    decide
  · have hb := h.buffer ⟨i, by omega⟩
    have hall : ∀ t : Term, allows false (bufferPte t) = true := by decide
    have hb' : k.page.videoTable i = bufferPte i := hb
    rw [hb', videoFrame, if_neg h3]
    exact ⟨hall ⟨i, by omega⟩, frame_bufferPte ⟨i, by omega⟩⟩

section Supervisor

variable {L : Layout} {k : Kernel}

/-- `map_video_mem` is wherever the low video entry points. -/
theorem translate_mapVideoMem (hk : Tables k) (hs : Selected L k) {o : Nat} (ho : o < offset4K) :
    translate L k k.page.cr3 false (BitVec.ofNat 32 (mapVideoMem + o)) = some (lowFrame k + o) := by
  have hv : (BitVec.ofNat 32 (mapVideoMem + o)).toNat = 753664 + o := by
    simp only [BitVec.toNat_ofNat, mapVideoMem, offsetVideo, offset4K] at ho ⊢; omega
  rw [translate_low hk (by rw [hv, show (753664 + o) / offset4M = 0 by
        simp only [offset4M, offset4K] at ho ⊢; omega]; exact hs.low)
      (by decide) (by decide) (by decide), hv]
  simp only [offset4K] at ho
  have h1 : (753664 + o) / offset4K % 1024 = videoEntry := by
    simp only [offset4K, videoEntry, offsetVideo]; omega
  have h2 : (753664 + o) % offset4K = o := by
    simp only [offset4K]; omega
  rw [if_pos h1, h2]

/-- The pages of the video table are always the three buffers and the video page. -/
theorem translate_bufferPage (hk : Tables k) (hs : Selected L k) {i o : Nat} (hi : i < 4)
    (ho : o < offset4K) :
    translate L k k.page.cr3 false (BitVec.ofNat 32 (bufferPage i + o))
      = some (videoFrame i + o) := by
  have hv : (BitVec.ofNat 32 (bufferPage i + o)).toNat = 50331648 + 4096 * i + o := by
    simp only [BitVec.toNat_ofNat, bufferPage, numPds, maxPid, offset4M, offset4K] at ho ⊢; omega
  simp only [offset4K] at ho
  have hdir : (50331648 + 4096 * i + o) / offset4M = 12 := by
    simp only [offset4M]; omega
  have hidx : (50331648 + 4096 * i + o) / offset4K % 1024 = i := by
    simp only [offset4K]; omega
  have hoff : (50331648 + 4096 * i + o) % offset4K = o := by
    simp only [offset4K]; omega
  obtain ⟨hok, hframe⟩ := hk.video_entry hi
  rcases hs.video with he | he
  · rw [translate_video (by rw [hv, hdir]; exact he) (by decide) (by decide) (by decide)
      (by rw [hv, hidx]; exact hok), hv, hidx, hoff, hframe]
  · rw [translate_video (by rw [hv, hdir]; exact he) (by decide) (by decide) (by decide)
      (by rw [hv, hidx]; exact hok), hv, hidx, hoff, hframe]

end Supervisor

/-! ## Who keeps the tables -/

@[simp] theorem kstore_page (L : Layout) (k : Kernel) (v : Word) (b : Byte) :
    (kstore L k v b).page = k.page := by
  unfold kstore; split <;> rfl

@[simp] theorem kstore_task (L : Layout) (k : Kernel) (v : Word) (b : Byte) :
    (kstore L k v b).task = k.task := by
  unfold kstore; split <;> rfl

@[simp] theorem kstore_screen (L : Layout) (k : Kernel) (v : Word) (b : Byte) :
    (kstore L k v b).screen = k.screen := by
  unfold kstore; split <;> rfl

@[simp] theorem kstore_term (L : Layout) (k : Kernel) (v : Word) (b : Byte) :
    (kstore L k v b).term = k.term := by
  unfold kstore; split <;> rfl

@[simp] theorem kmemcpy_page (L : Layout) (dest src : Word) (n : Nat) (k : Kernel) :
    (kmemcpy L dest src n k).page = k.page :=
  forLoop_inv (P := fun _ (k' : Kernel) => k'.page = k.page) rfl n
    (fun _ _ _ h => by rw [kstore_page, h])

theorem Tables.congr {k k' : Kernel} (h : Tables k)
    (hlow : k'.page.lowMemoryTable = k.page.lowMemoryTable)
    (hvideo : k'.page.videoTable = k.page.videoTable) : Tables k' where
  low := hlow ▸ h.low
  video := hlow ▸ h.video
  buffer := hvideo ▸ h.buffer
  screen := hvideo ▸ h.screen

theorem Tables.of_page {k k' : Kernel} (h : Tables k) (he : k'.page = k.page) : Tables k' :=
  h.congr (by rw [he]) (by rw [he])

/-- `set_vmem_table` chooses the video entry, and only that. -/
theorem setVmemTable_video (t : Term) (k : Kernel) :
    (setVmemTable t k).page.lowMemoryTable videoEntry
      = if k.page.currentTerminal = t then videoPte else bufferPte t := by
  simp only [setVmemTable, Function.update_self]

theorem Tables.setVmemTable {k : Kernel} (h : Tables k) (t : Term) : Tables (setVmemTable t k) where
  low := fun i hi => by
    show Function.update k.page.lowMemoryTable videoEntry _ i = _
    rw [Function.update_of_ne hi]
    exact h.low i hi
  video := by
    rw [setVmemTable_video]
    split
    · exact .inl rfl
    · exact .inr ⟨t, rfl⟩
  buffer := h.buffer
  screen := h.screen

theorem Tables.switchContext {k : Kernel} (h : Tables k) (pid : Nat) :
    Tables (switchContext pid k) := by
  have hk : Tables { k with task := { k.task with currentProcess := pid } } := h.of_page rfl
  exact (hk.setVmemTable k.task.currentActiveProcess).congr rfl rfl

theorem Tables.initPd {k : Kernel} (h : Tables k) (L : Layout) (p : Nat) : Tables (initPd L p k) :=
  h.congr rfl rfl

theorem Tables.switchVideo {k : Kernel} (h : Tables k) (L : Layout) (u : Term) :
    Tables (switchVideo L u k) := by
  unfold Zbiggie.switchVideo
  split
  · exact h
  · refine Tables.switchContext (h.congr ?_ ?_) _
    · rw [kmemcpy_page, kmemcpy_page]
    · rw [kmemcpy_page, kmemcpy_page]

theorem tables_initTables (L : Layout) (k : Kernel) : Tables (initTables L k) where
  low := fun i hi => by
    show Function.update (fun i => BitVec.ofNat 32 (i * offset4K)) videoEntry videoPte i = _
    rw [Function.update_of_ne hi]
  video := by
    left
    show Function.update (fun i => BitVec.ofNat 32 (i * offset4K)) videoEntry videoPte
      videoEntry = _
    rw [Function.update_self]
  buffer := fun t => if_pos t.isLt
  screen := rfl

theorem initBuffer_page (L : Layout) (t : Term) (k : Kernel) :
    (initBuffer L t k).page = (setVmemTable t k).page :=
  forLoop_inv (P := fun _ (k' : Kernel) => k'.page = (setVmemTable t k).page) rfl offset4K
    (fun _ _ _ h => by rw [kstore_page, h])

theorem Tables.initBuffer {k : Kernel} (h : Tables k) (L : Layout) (t : Term) :
    Tables (initBuffer L t k) := (h.setVmemTable t).of_page (initBuffer_page L t k)

theorem tables_initPaging (L : Layout) (k : Kernel) : Tables (initPaging L k) :=
  ((((tables_initTables L k).initBuffer L 0).initBuffer L 1).initBuffer L 2).setVmemTable 0

end Zbiggie.Proof
