import Zbiggie.Kernel.Zbigfs

/-!
# What a file holds, and what `read_data` returns of it

A file is a length and a table of block numbers, and byte `i` of it is byte
`i % 4096` of the block its table has at `i / 4096`: this is `Image.fileByte`, and
it is all there is to the contents of a file. `read_data` gets there piecemeal — the
rest of the first block, whole blocks, the start of the last one — and every piece
continues the one before, in the file and in the buffer. So the pieces add up to a
single copy of a slice.

The ends of the slice are where it can go wrong. The end of the request is a 32-bit
sum, taken before it is clamped to the file; and the last piece looks its block up
even when it has no byte to copy.
-/

namespace Zbiggie

open Machine

namespace Image

/-- `inode_entry->datablock_num[b]`. -/
def datablockNum (img : Image) (inode b : Nat) : Word :=
  img.word (blockSize * (1 + inode) + 4 + 4 * b)

/-- Byte `i` of the file. -/
def fileByte (img : Image) (inode i : Nat) : Byte :=
  img.byte (blockSize * (1 + img.numInode.toNat)
    + blockSize * (img.datablockNum inode (i / blockSize)).toNat + i % blockSize)

/-- The bytes of the file from `i` on. -/
def fileFrom (img : Image) (inode i : Nat) : Nat → Byte := fun j => img.fileByte inode (i + j)

end Image

/-- Room for block numbers in an inode. -/
def maxBlocks : Nat := 1023

/-- The largest length an inode can describe. -/
def maxLength : Nat := maxBlocks * blockSize

end Zbiggie

namespace Zbiggie.Proof

open Zbiggie Machine

/-! ## The copies -/

/-- Inside one block, the bytes of the file are the bytes of the block. -/
theorem fileFrom_block (img : Image) (inode : Nat) {offset i : Nat}
    (hi : offset % blockSize + i < blockSize) :
    img.fileFrom inode offset i =
      img.byte (blockSize * (1 + img.numInode.toNat)
        + blockSize * (img.datablockNum inode (offset / blockSize)).toNat
        + offset % blockSize + i) := by
  have hdiv : (offset + i) / blockSize = offset / blockSize := by
    simp only [blockSize] at hi ⊢; omega
  have hmod : (offset + i) % blockSize = offset % blockSize + i := by
    simp only [blockSize] at hi ⊢; omega
  unfold Image.fileFrom Image.fileByte
  rw [hdiv, hmod, Nat.add_assoc _ (offset % blockSize) i]

/-- One copy of `read_data`: `n` bytes of the block `offset` lies in. -/
theorem memcpy_block (img : Image) (inode : Nat) {offset n : Nat} (buf : Nat) (m : Mem)
    (hn : offset % blockSize + n ≤ blockSize) :
    memcpy m buf (fun i => img.byte (blockSize * (1 + img.numInode.toNat)
      + blockSize * (img.word (blockSize * (1 + inode) + 4 + 4 * (offset / blockSize))).toNat
      + offset % blockSize + i)) n = memcpy m buf (img.fileFrom inode offset) n := by
  refine memcpy_congr m buf ?_
  intro i hi
  rw [fileFrom_block img inode (by omega)]
  rfl

/-- A copy continues the one before it. -/
theorem memcpy_fileFrom (img : Image) (inode offset buf n k : Nat) (m : Mem) :
    memcpy (memcpy m buf (img.fileFrom inode offset) n) (buf + n)
        (img.fileFrom inode (offset + n)) k
      = memcpy m buf (img.fileFrom inode offset) (n + k) := by
  rw [← memcpy_append]
  refine memcpy_congr _ _ ?_
  intro i _
  unfold Image.fileFrom
  rw [Nat.add_assoc]

/-- Where the block loop stops: at the start of the last block, or at once. -/
def loopEnd (offset last : Nat) : Nat :=
  if offset / blockSize < last / blockSize then last - last % blockSize else offset

theorem loopEnd_spec {offset last : Nat} (hle : offset ≤ last) :
    offset ≤ loopEnd offset last ∧ loopEnd offset last ≤ last ∧
      loopEnd offset last / blockSize = last / blockSize := by
  unfold loopEnd
  split
  · rename_i hlt
    simp only [blockSize] at hlt ⊢; omega
  · rename_i hge
    simp only [blockSize] at hge ⊢; omega

/-- **The block loop.** It copies the slice up to the last block. -/
theorem readBlocks_eq (img : Image) (inode last : Nat) :
    ∀ (fuel offset buf : Nat) (m : Mem), last / blockSize ≤ offset / blockSize + fuel →
      readBlocks img (blockSize * (1 + inode)) (blockSize * (1 + img.numInode.toNat)) last
          fuel offset buf m
        = (loopEnd offset last, buf + (loopEnd offset last - offset),
            memcpy m buf (img.fileFrom inode offset) (loopEnd offset last - offset)) := by
  intro fuel
  induction fuel with
  | zero =>
      intro offset buf m hfuel
      have hend : loopEnd offset last = offset := if_neg (by omega)
      rw [hend, Nat.sub_self]
      rfl
  | succ fuel ih =>
      intro offset buf m hfuel
      rw [readBlocks]
      split
      · rename_i hlt
        -- the rest of this block, and from the next block on the induction hypothesis
        obtain ⟨n, hn⟩ : ∃ n, n = blockSize - offset % blockSize := ⟨_, rfl⟩
        dsimp only
        rw [← hn]
        have hle : offset % blockSize + n ≤ blockSize := by
          simp only [blockSize] at hn ⊢; omega
        have hend : loopEnd (offset + n) last = loopEnd offset last := by
          unfold loopEnd
          rw [if_pos hlt]
          split
          · rfl
          · rename_i hge
            simp only [blockSize] at hlt hge hn ⊢; omega
        have hge : offset + n ≤ loopEnd offset last := by
          unfold loopEnd
          rw [if_pos hlt]
          simp only [blockSize] at hlt hn ⊢; omega
        rw [ih _ _ _ (by simp only [blockSize] at hn hfuel ⊢; omega),
          memcpy_block img inode buf m hle, hend, memcpy_fileFrom]
        have hsum : n + (loopEnd offset last - (offset + n)) = loopEnd offset last - offset := by
          omega
        rw [hsum, Nat.add_assoc, hsum]
      · rename_i hge
        have hend : loopEnd offset last = offset := if_neg hge
        rw [hend, Nat.sub_self]
        rfl

/-- **All the copies of one read are one copy of the slice.** -/
theorem readRange_eq (img : Image) (inode : Nat) {offset last : Nat} (buf : Nat) (m : Mem)
    (hle : offset ≤ last) :
    readRange img inode offset last buf m
      = memcpy m buf (img.fileFrom inode offset) (last - offset) := by
  unfold readRange
  dsimp only
  rw [readBlocks_eq img inode last _ offset buf m (Nat.le_add_left _ _)]
  dsimp only
  have hge := loopEnd_spec hle
  generalize loopEnd offset last = e at hge
  have htail : last % blockSize - e % blockSize = last - e := by
    simp only [blockSize] at hge ⊢; omega
  rw [htail, memcpy_block img inode _ _ (by simp only [blockSize] at hge ⊢; omega)]
  have hcont := memcpy_fileFrom img inode offset buf (e - offset) (last - e) m
  rw [show offset + (e - offset) = e by omega] at hcont
  rw [hcont, show e - offset + (last - e) = last - offset by omega]

/-! ## The count -/

/-- The count `read_data` returns: it depends on the file and the range alone. -/
def readCount (img : Image) (inode offset length : Word) : Int :=
  if inode.toNat ≥ img.numInode.toNat then -1
  else if readEnd img inode offset length < offset then 0
  else (readEnd img inode offset length - offset).toInt

theorem readData_count (img : Image) (inode offset length : Word) (buf : Nat) (m : Mem) :
    (readData img inode offset buf length m).1 = readCount img inode offset length := by
  unfold readData readCount
  split
  · rfl
  · split <;> rfl

/-- What the file has of a request. -/
def sliceLen (img : Image) (inode offset length : Word) : Nat :=
  Min.min length.toNat ((fileLength img inode).toNat - offset.toNat)

section Count

variable {img : Image} {inode offset length : Word}

/-- A sum that does not wrap is clamped to the file. -/
theorem readEnd_toNat (img : Image) (inode : Word)
    (hsum : offset.toNat + length.toNat < 4294967296) :
    (readEnd img inode offset length).toNat
      = Min.min (offset.toNat + length.toNat) (fileLength img inode).toNat := by
  have hadd : (offset + length).toNat = offset.toNat + length.toNat := by
    rw [BitVec.toNat_add]; omega
  unfold readEnd
  split
  · rename_i hgt
    have hlt : (fileLength img inode).toNat < (offset + length).toNat := hgt
    omega
  · rename_i hle
    have hge : ¬ (fileLength img inode).toNat < (offset + length).toNat := hle
    omega

/-- A read in a file of less than 2G that does not wrap returns what is there of the request. -/
theorem readCount_eq (hn : inode.toNat < img.numInode.toNat)
    (hlen : (fileLength img inode).toNat < 2147483648)
    (hsum : offset.toNat + length.toNat < 4294967296) :
    readCount img inode offset length = sliceLen img inode offset length := by
  have hend := readEnd_toNat img inode hsum
  unfold readCount sliceLen
  rw [if_neg (by omega)]
  split
  · rename_i hlt
    have hlt' : (readEnd img inode offset length).toNat < offset.toNat := hlt
    omega
  · rename_i hge
    have hle : offset.toNat ≤ (readEnd img inode offset length).toNat := Nat.le_of_not_lt hge
    have hsub : (readEnd img inode offset length - offset).toNat
        = (readEnd img inode offset length).toNat - offset.toNat :=
      BitVec.toNat_sub_of_le hle
    rw [BitVec.toInt_eq_toNat_of_lt (by omega), hsub]
    omega

/-- A sum that wraps comes out below the offset, and nothing is read. -/
theorem readCount_wrap (hn : inode.toNat < img.numInode.toNat)
    (hsum : 4294967296 ≤ offset.toNat + length.toNat) : readCount img inode offset length = 0 := by
  have hadd : (offset + length).toNat = offset.toNat + length.toNat - 4294967296 := by
    rw [BitVec.toNat_add]; omega
  have hend : (readEnd img inode offset length).toNat ≤ (offset + length).toNat := by
    unfold readEnd
    split
    · rename_i hgt
      exact Nat.le_of_lt hgt
    · exact Nat.le_refl _
  unfold readCount
  rw [if_neg (by omega), if_pos]
  show (readEnd img inode offset length).toNat < offset.toNat
  omega

/-- A read at or past the end of the file returns nothing. -/
theorem readCount_past (hn : inode.toNat < img.numInode.toNat)
    (hpast : (fileLength img inode).toNat ≤ offset.toNat) :
    readCount img inode offset length = 0 := by
  have hend : (readEnd img inode offset length).toNat ≤ (fileLength img inode).toNat := by
    unfold readEnd
    split
    · exact Nat.le_refl _
    · rename_i hle
      exact Nat.le_of_not_lt hle
  unfold readCount
  rw [if_neg (by omega)]
  split
  · rfl
  · rename_i hge
    have hle : offset.toNat ≤ (readEnd img inode offset length).toNat := Nat.le_of_not_lt hge
    have heq : readEnd img inode offset length = offset := BitVec.eq_of_toNat_eq (by omega)
    rw [heq, BitVec.sub_self]
    rfl

/-- **`read_data` copies the slice it counts.** -/
theorem readData_eq (hn : inode.toNat < img.numInode.toNat)
    (hlen : (fileLength img inode).toNat < 2147483648)
    (hsum : offset.toNat + length.toNat < 4294967296) (buf : Nat) (m : Mem) :
    readData img inode offset buf length m =
      ((sliceLen img inode offset length : Int),
        memcpy m buf (img.fileFrom inode.toNat offset.toNat)
          (sliceLen img inode offset length)) := by
  have hcount := readCount_eq hn hlen hsum
  have hend := readEnd_toNat img inode hsum
  refine Prod.ext ((readData_count img inode offset length buf m).trans hcount) ?_
  unfold readData
  rw [if_neg (by omega)]
  split
  · rename_i hlt
    have hlt' : (readEnd img inode offset length).toNat < offset.toNat := hlt
    have hzero : sliceLen img inode offset length = 0 := by
      unfold sliceLen; omega
    rw [hzero]
    rfl
  · rename_i hge
    have hle : offset.toNat ≤ (readEnd img inode offset length).toNat := Nat.le_of_not_lt hge
    dsimp only
    rw [readRange_eq img inode.toNat buf m hle]
    congr 1
    unfold sliceLen; omega

end Count

/--
**`read_data` computes the file slice.** For every inode there is, every file an
inode can describe and every request whose end is a 32-bit number, the count is what
the file has of the request, the buffer gets those bytes of the file, and nothing
else is written; for any other inode the answer is `-1` and nothing is written.
-/
theorem read_data_slice (img : Image) (inode offset length : Word) (buf : Nat) (m : Mem) :
    (inode.toNat < img.numInode.toNat → (fileLength img inode).toNat ≤ maxLength →
      offset.toNat + length.toNat < 4294967296 →
      ∃ r : Nat, r = Min.min length.toNat ((fileLength img inode).toNat - offset.toNat) ∧
        (readData img inode offset buf length m).1 = r ∧
        (∀ i, i < r → (readData img inode offset buf length m).2 (buf + i)
          = img.fileByte inode.toNat (offset.toNat + i)) ∧
        ∀ a, a < buf ∨ buf + r ≤ a → (readData img inode offset buf length m).2 a = m a) ∧
    (img.numInode.toNat ≤ inode.toNat → readData img inode offset buf length m = (-1, m)) := by
  constructor
  · intro hn hlen hsum
    have h2g : (fileLength img inode).toNat < 2147483648 := by
      simp only [maxLength, maxBlocks, blockSize] at hlen; omega
    rw [readData_eq hn h2g hsum]
    refine ⟨sliceLen img inode offset length, rfl, rfl, ?_, ?_⟩
    · intro i hi
      dsimp only
      rw [memcpy_apply, if_pos (by omega), Nat.add_sub_cancel_left]
      rfl
    · intro a ha
      dsimp only
      rw [memcpy_apply, if_neg (by omega)]
  · intro hn
    unfold readData
    rw [if_pos hn]

/-- A disk with one inode, whose two data blocks lie in reverse order. -/
def reversedBlocks : Image where
  bytes := fun a =>
    if a = 4 ∨ a = 4100 then 1
    else if a = 4096 then 2
    else if a = 4097 then 16
    else if a = 16383 then 0xAA
    else if a = 8192 then 0xBB
    else 0

theorem read_data_slice_reversed :
    (readData reversedBlocks 0 4095 0 10 (fun _ => 0)).1 = 3 ∧
      (readData reversedBlocks 0 4095 0 10 (fun _ => 0)).2 0 = 0xAA ∧
      (readData reversedBlocks 0 4095 0 10 (fun _ => 0)).2 1 = 0xBB := by
  obtain ⟨r, hr, hcount, hbyte, _⟩ :=
    (read_data_slice reversedBlocks 0 4095 10 0 (fun _ => 0)).1 (by decide) (by decide) (by decide)
  have hr3 : r = 3 := hr.trans (by decide)
  subst hr3
  refine ⟨hcount, (hbyte 0 (by decide)).trans ?_, (hbyte 1 (by decide)).trans ?_⟩
  · decide
  · decide

/-! ## Asking for more -/

/--
**When asking for more yields less.** Up to a request of `length` bytes at `offset`
no larger request returns a smaller count, and a count of `0` means the end of the
file — unless the request starts inside the file and its end passes `2^32`.
-/
theorem read_data_monotone_iff {img : Image} {inode : Word}
    (hn : inode.toNat < img.numInode.toNat) (hlen : (fileLength img inode).toNat ≤ maxLength)
    (offset length : Word) (buf : Nat) (m : Mem) :
    ((∀ n : Word, n.toNat ≤ length.toNat →
        (readData img inode offset buf n m).1 ≤ (readData img inode offset buf length m).1) ∧
      (0 < length.toNat → (readData img inode offset buf length m).1 = 0 →
        (fileLength img inode).toNat ≤ offset.toNat)) ↔
      ¬ (offset.toNat < (fileLength img inode).toNat ∧
          4294967296 ≤ offset.toNat + length.toNat) := by
  have h2g : (fileLength img inode).toNat < 2147483648 := by
    simp only [maxLength, maxBlocks, blockSize] at hlen; omega
  simp only [readData_count]
  constructor
  · rintro ⟨hmono, -⟩ ⟨hin, hwrap⟩
    -- one byte is there to be read, and the wrapped request does not get it
    have hlast := readCount_wrap hn hwrap
    have hone : readCount img inode offset 1 = sliceLen img inode offset 1 :=
      readCount_eq hn h2g (by have : (1 : Word).toNat = 1 := rfl; omega)
    have hle := hmono 1 (by have : (1 : Word).toNat = 1 := rfl; omega)
    have hslice : sliceLen img inode offset 1 = 1 := by
      have : (1 : Word).toNat = 1 := rfl
      unfold sliceLen
      omega
    rw [hlast, hone, hslice] at hle
    omega
  · intro hcond
    by_cases hpast : (fileLength img inode).toNat ≤ offset.toNat
    · refine ⟨?_, fun _ _ => hpast⟩
      intro n _
      rw [readCount_past hn hpast, readCount_past hn hpast]
    · have hsum : offset.toNat + length.toNat < 4294967296 := by omega
      have hcount := readCount_eq hn h2g hsum
      rw [hcount]
      refine ⟨?_, ?_⟩
      · intro n hle
        rw [readCount_eq hn h2g (by omega)]
        unfold sliceLen
        omega
      · intro hpos hzero
        unfold sliceLen at hzero
        omega

theorem read_data_monotone_reversed :
    (readData reversedBlocks 0 1 0 3 (fun _ => 0)).1 ≤
      (readData reversedBlocks 0 1 0 5 (fun _ => 0)).1 := by
  have hn : (0 : Word).toNat < reversedBlocks.numInode.toNat := by decide
  have hiff := read_data_monotone_iff hn (by decide) 1 5 0 (fun _ => 0)
  exact (hiff.mpr (by decide)).1 3 (by decide)

/-- From the second byte of the file, one byte is one byte, and everything is nothing. -/
theorem read_data_all_returns_nothing :
    (readData reversedBlocks 0 1 0 1 (fun _ => 0)).1 = 1 ∧
      (readData reversedBlocks 0 1 0 0xFFFFFFFF (fun _ => 0)).1 = 0 ∧
      (1 : Word).toNat < (fileLength reversedBlocks 0).toNat := by
  rw [readData_count, readData_count]
  exact ⟨by decide, by decide, by decide⟩

/-! ## The block table -/

/-- The loop of `read_data`, with the indices at which it reads `datablock_num`. -/
def readBlocksLog (img : Image) (inodeEntry datablock0 last : Nat) :
    Nat → Nat → Nat → Mem → (Nat × Nat × Mem) × List Nat
  | 0, offset, buf, m => ((offset, buf, m), [])
  | fuel + 1, offset, buf, m =>
      if offset / blockSize < last / blockSize then
        let n := blockSize - offset % blockSize
        let block := (img.word (inodeEntry + 4 + 4 * (offset / blockSize))).toNat
        let src := datablock0 + blockSize * block + offset % blockSize
        let (r, log) := readBlocksLog img inodeEntry datablock0 last fuel (offset + n) (buf + n)
          (memcpy m buf (fun i => img.byte (src + i)) n)
        (r, offset / blockSize :: log)
      else ((offset, buf, m), [])

/-- `read_data`, with the indices at which it reads `datablock_num`. -/
def readDataLog (img : Image) (inode offset : Word) (buf : Nat) (length : Word) (m : Mem) :
    (Int × Mem) × List Nat :=
  if inode.toNat ≥ img.numInode.toNat then ((-1, m), [])
  else if readEnd img inode offset length < offset then ((0, m), [])
  else
    let last := (readEnd img inode offset length).toNat
    let inodeEntry := blockSize * (1 + inode.toNat)
    let datablock0 := blockSize * (1 + img.numInode.toNat)
    let ((off, buf, m), log) :=
      readBlocksLog img inodeEntry datablock0 last (last / blockSize) offset.toNat buf m
    let block := (img.word (inodeEntry + 4 + 4 * (off / blockSize))).toNat
    let src := datablock0 + blockSize * block + off % blockSize
    (((readEnd img inode offset length - offset).toInt,
      memcpy m buf (fun i => img.byte (src + i)) (last % blockSize - off % blockSize)),
      log ++ [off / blockSize])

theorem readBlocksLog_fst (img : Image) (ie d0 last : Nat) :
    ∀ (fuel offset buf : Nat) (m : Mem),
      (readBlocksLog img ie d0 last fuel offset buf m).1
        = readBlocks img ie d0 last fuel offset buf m := by
  intro fuel
  induction fuel with
  | zero => intro offset buf m; rfl
  | succ fuel ih =>
      intro offset buf m
      rw [readBlocksLog, readBlocks]
      split
      · exact ih _ _ _
      · rfl

/-- Keeping the log changes nothing. -/
theorem readDataLog_fst (img : Image) (inode offset length : Word) (buf : Nat) (m : Mem) :
    (readDataLog img inode offset buf length m).1 = readData img inode offset buf length m := by
  unfold readDataLog readData
  split
  · rfl
  · split
    · rfl
    · unfold readRange
      dsimp only
      rw [← readBlocksLog_fst]

/-- The loop reads the table below the block it stops at. -/
theorem readBlocksLog_lt (img : Image) (ie d0 last : Nat) :
    ∀ (fuel offset buf : Nat) (m : Mem),
      ∀ b ∈ (readBlocksLog img ie d0 last fuel offset buf m).2, b < last / blockSize := by
  intro fuel
  induction fuel with
  | zero =>
      intro offset buf m b hb
      exact absurd hb List.not_mem_nil
  | succ fuel ih =>
      intro offset buf m b hb
      rw [readBlocksLog] at hb
      split at hb
      · rename_i hlt
        rcases List.mem_cons.mp hb with rfl | hb'
        · exact hlt
        · exact ih _ _ _ b hb'
      · exact absurd hb List.not_mem_nil

/-- The indices of a read: some below the block of its end, and that one. -/
theorem readDataLog_snd {img : Image} {inode offset length : Word}
    (hn : inode.toNat < img.numInode.toNat) (hle : offset ≤ readEnd img inode offset length)
    (buf : Nat) (m : Mem) :
    ∃ log, (readDataLog img inode offset buf length m).2
        = log ++ [(readEnd img inode offset length).toNat / blockSize] ∧
      ∀ b ∈ log, b < (readEnd img inode offset length).toNat / blockSize := by
  have hle' : offset.toNat ≤ (readEnd img inode offset length).toNat := hle
  unfold readDataLog
  have hge : ¬ readEnd img inode offset length < offset := Nat.not_lt.mpr hle'
  rw [if_neg (by omega), if_neg hge]
  generalize (readEnd img inode offset length).toNat = last at hle'
  dsimp only
  have hend := congrArg (fun r => r.1) ((readBlocksLog_fst img (blockSize * (1 + inode.toNat))
    (blockSize * (1 + img.numInode.toNat)) last (last / blockSize) offset.toNat buf m).trans
    (readBlocks_eq img inode.toNat last _ offset.toNat buf m (Nat.le_add_left _ _)))
  dsimp only at hend
  rw [hend, (loopEnd_spec hle').2.2]
  exact ⟨_, rfl, readBlocksLog_lt img _ _ last _ _ _ _⟩

/--
**When the block table is read out of range.** A file of the largest size has no
block behind its last one. A read that reaches its end, from inside it or from the
end itself, looks up the block number of the next, at index `1023`; every other
read stays inside the table.
-/
theorem read_data_index_iff {img : Image} {inode offset length : Word}
    (hlen : (fileLength img inode).toNat ≤ maxLength)
    (hsum : offset.toNat + length.toNat < 4294967296) (buf : Nat) (m : Mem) :
    (∀ b ∈ (readDataLog img inode offset buf length m).2, b < maxBlocks) ↔
      ¬ (inode.toNat < img.numInode.toNat ∧ (fileLength img inode).toNat = maxLength ∧
          offset.toNat ≤ maxLength ∧ maxLength ≤ offset.toNat + length.toNat) := by
  have hend := readEnd_toNat img inode hsum
  have hmax : maxLength = 4190208 := rfl
  by_cases hn : inode.toNat < img.numInode.toNat
  · by_cases hle : offset ≤ readEnd img inode offset length
    · have hle' : offset.toNat ≤ (readEnd img inode offset length).toNat := hle
      obtain ⟨log, hlog, hbelow⟩ := readDataLog_snd hn hle buf m
      rw [hlog]
      constructor
      · intro hall hbad
        have hlast := hall _ (List.mem_append_right _ (List.mem_singleton.mpr rfl))
        simp only [maxBlocks, blockSize] at hlast
        omega
      · intro hok b hb
        have hlast : (readEnd img inode offset length).toNat / blockSize < maxBlocks := by
          simp only [maxBlocks, blockSize]
          omega
        rcases List.mem_append.mp hb with hb' | hb'
        · exact Nat.lt_trans (hbelow b hb') hlast
        · rw [List.mem_singleton.mp hb']
          exact hlast
    · have hlt : (readEnd img inode offset length).toNat < offset.toNat := Nat.lt_of_not_le hle
      have hnil : (readDataLog img inode offset buf length m).2 = [] := by
        have hlt' : readEnd img inode offset length < offset := hlt
        unfold readDataLog
        rw [if_neg (by omega), if_pos hlt']
      rw [hnil]
      refine iff_of_true (fun b hb => absurd hb List.not_mem_nil) ?_
      intro hbad
      omega
  · have hnil : (readDataLog img inode offset buf length m).2 = [] := by
      unfold readDataLog
      rw [if_pos (by omega)]
    rw [hnil]
    exact iff_of_true (fun b hb => absurd hb List.not_mem_nil) fun hbad => hn hbad.1

theorem read_data_index_reversed :
    (fileLength reversedBlocks 0).toNat ≤ maxLength ∧
      ∀ b ∈ (readDataLog reversedBlocks 0 4095 0 10 (fun _ => 0)).2, b < maxBlocks := by
  have hlen : (fileLength reversedBlocks 0).toNat ≤ maxLength := by decide
  exact ⟨hlen, (read_data_index_iff hlen (by decide) 0 (fun _ => 0)).mpr (by decide)⟩

/-- A disk with one inode, of the largest size. -/
def fullInode : Image where
  bytes := fun a => if a = 4 then 1 else if a = 4097 then 0xF0 else if a = 4098 then 0x3F else 0

/-- The last byte of the file: block `1022`, and then the table's missing entry. -/
theorem read_data_last_byte_out_of_table :
    (fileLength fullInode 0).toNat = maxLength ∧
      (readDataLog fullInode 0 4190207 0 1 (fun _ => 0)).2 = [1022, 1023] ∧
      ¬ ∀ b ∈ (readDataLog fullInode 0 4190207 0 1 (fun _ => 0)).2, b < maxBlocks := by
  have hlog : (readDataLog fullInode 0 4190207 0 1 (fun _ => 0)).2 = [1022, 1023] := by
    decide +kernel
  refine ⟨by decide, hlog, ?_⟩
  intro hall
  rw [hlog] at hall
  exact absurd (hall 1023 (by decide)) (by decide)

end Zbiggie.Proof
