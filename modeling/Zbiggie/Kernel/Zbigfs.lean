import Zbiggie.Kernel.State

/-!
# The read-only file system

An image is what the boot loader left in memory: a boot block with the directory,
one block per inode, then the data blocks. It is modelled as bytes and nothing
else, so that an image that makes no sense (a directory count beyond the boot
block, a block number beyond the disk) still has the meaning the code gives it.
Every address is a 32-bit pointer, hence the reduction in `Image.byte`.
-/

namespace Zbiggie

open Machine

/-- The bytes from `zbigfs_start` on. -/
structure Image where
  bytes : Mem

namespace Image

/-- The byte at a 32-bit offset from `zbigfs_start`. -/
def byte (img : Image) (a : Nat) : Byte := img.bytes (a % 4294967296)

/-- The little-endian word there. -/
def word (img : Image) (a : Nat) : Word := loadWord img.byte a

def numDentry (img : Image) : Word := img.word 0
def numInode (img : Image) : Word := img.word 4

/-- Where directory entry `i` lies; the boot block's own header takes one entry's room. -/
def dentryAt (i : Nat) : Nat := 64 + 64 * i

/-- The name field of entry `i`, as a pointer into it reads. -/
def fname (img : Image) (i : Nat) : Mem := fun j => img.byte (dentryAt i + j)
def ftype (img : Image) (i : Nat) : Word := img.word (dentryAt i + 32)
def inodeNum (img : Image) (i : Nat) : Word := img.word (dentryAt i + 36)

end Image

def blockSize : Nat := 4096
def fnameMaxLen : Nat := 32
def ftypeSpecial : Word := 0
def ftypeDirectory : Word := 1
def ftypeRegular : Word := 2
def fileFlagInUse : Word := 1

/-- A `dentry_t` as `strncpy` sees it: the name, then the fields that follow it in memory. -/
def Dentry.bytes (d : Dentry) : Mem := fun j =>
  if h : j < 32 then d.fname ⟨j, h⟩
  else if j < 36 then d.ftype.extractLsb' (8 * (j - 32)) 8
  else if j < 40 then d.inodeNum.extractLsb' (8 * (j - 36)) 8
  else d.reserved (j - 40)

/-! ## Directory lookup -/

/-- `read_dentry_by_index(i, dentry)`: the status, and what `dentry` holds afterwards. -/
def readDentryByIndex (img : Image) (i : Nat) (d : Dentry) : Int × Dentry :=
  if i ≥ img.numDentry.toNat then (-1, d)
  else
    let name := strncpy d.bytes (img.fname i) fnameMaxLen
    let d := { d with fname := fun j => name j, ftype := img.ftype i }
    if d.ftype = ftypeRegular then (0, { d with inodeNum := img.inodeNum i })
    else (0, d)

/-- The search loop of `read_dentry_by_name`, with `fuel` entries to go. -/
def dentrySearch (img : Image) (fname : Mem) : Nat → Nat → Option Nat
  | 0, _ => none
  | fuel + 1, i =>
      if strncmp fname (img.fname i) (fnameMaxLen - 1) = 0 then some i
      else dentrySearch img fname fuel (i + 1)

/-- `read_dentry_by_name(fname, dentry)`. -/
def readDentryByName (img : Image) (fname : Mem) (d : Dentry) : Int × Dentry :=
  match dentrySearch img fname img.numDentry.toNat 0 with
  | some i => readDentryByIndex img i d
  | none => (-1, d)

/-! ## File data -/

/-- The loop of `read_data`: whole blocks, the first from `offset` on. -/
def readBlocks (img : Image) (inodeEntry datablock0 last : Nat) :
    Nat → Nat → Nat → Mem → Nat × Nat × Mem
  | 0, offset, buf, m => (offset, buf, m)
  | fuel + 1, offset, buf, m =>
      if offset / blockSize < last / blockSize then
        let n := blockSize - offset % blockSize
        let block := (img.word (inodeEntry + 4 + 4 * (offset / blockSize))).toNat
        let src := datablock0 + blockSize * block + offset % blockSize
        readBlocks img inodeEntry datablock0 last fuel (offset + n) (buf + n)
          (memcpy m buf (fun i => img.byte (src + i)) n)
      else (offset, buf, m)

/-- The copies of `read_data` for the range `[offset, last)` of inode `inode`, to `buf`. -/
def readRange (img : Image) (inode offset last buf : Nat) (m : Mem) : Mem :=
  let inodeEntry := blockSize * (1 + inode)
  let datablock0 := blockSize * (1 + img.numInode.toNat)
  let (offset, buf, m) := readBlocks img inodeEntry datablock0 last (last / blockSize) offset buf m
  let block := (img.word (inodeEntry + 4 + 4 * (offset / blockSize))).toNat
  let src := datablock0 + blockSize * block + offset % blockSize
  memcpy m buf (fun i => img.byte (src + i)) (last % blockSize - offset % blockSize)

/-- The length field of an inode. -/
def fileLength (img : Image) (inode : Word) : Word := img.word (blockSize * (1 + inode.toNat))

/-- The end of a read: computed modulo `2^32`, then clamped to the file. -/
def readEnd (img : Image) (inode offset length : Word) : Word :=
  if offset + length > fileLength img inode then fileLength img inode else offset + length

/-- `read_data(inode, offset, buf, length)`: the count, and memory with the bytes at `buf`. -/
def readData (img : Image) (inode offset : Word) (buf : Nat) (length : Word) (m : Mem) :
    Int × Mem :=
  if inode.toNat ≥ img.numInode.toNat then (-1, m)
  else if readEnd img inode offset length < offset then (0, m)
  else
    ((readEnd img inode offset length - offset).toInt,
      readRange img inode.toNat offset.toNat (readEnd img inode offset length).toNat buf m)

/-! ## The operation tables

Every operation returns its value and the `FILE` it leaves; reads also return
memory. -/

/-- `regular_read(f, buf, nbytes)`. -/
def regularRead (img : Image) (f : File) (buf : Nat) (nbytes : Word) (m : Mem) :
    Int × File × Mem :=
  let (n, m) := readData img f.inode f.pos buf nbytes m
  if n < 0 then (-1, f, m) else (n, { f with pos := f.pos + BitVec.ofInt 32 n }, m)

/-- `directory_read(f, buf, nbytes)`; `d` is the uninitialised local it reads into. -/
def directoryRead (img : Image) (d : Dentry) (f : File) (buf : Nat) (nbytes : Word) (m : Mem) :
    Int × File × Mem :=
  let (status, d) := readDentryByIndex img f.pos.toNat d
  if status ≠ 0 then (0, f, m)
  else
    (nbytes.toInt, { f with pos := f.pos + 1 },
      memcpy m buf (strncpy (fun i => m (buf + i)) d.bytes nbytes.toNat) nbytes.toNat)

/-- `change_rtc_freq(rate)`, less the port writes. -/
def changeRtcFreq (rate : Int) : Int := if rate ≤ 2 ∨ rate > 15 then -1 else 0

/-- The `open` operation of a table; nothing answers through a null pointer. -/
def OpTable.openOp : OpTable → Option Int
  | .null => none
  | .regular => some 0
  | .directory => some 0
  | .rtc => some (changeRtcFreq 15)
  | .stdin => some 0
  | .stdout => some 0

/--
`kopen(f, name)`: the status and what `f` holds afterwards. `d` is the
uninitialised local of the lookup. A type outside the three leaves the old
operation table in place.
-/
def kopen (img : Image) (d : Dentry) (f : File) (name : Mem) : Option (Int × File) :=
  let (status, d) := readDentryByName img name d
  if status ≠ 0 then some (-1, f)
  else
    let f := { f with pos := 0 }
    let f :=
      if d.ftype = ftypeRegular then { f with inode := d.inodeNum, optable := .regular }
      else if d.ftype = ftypeSpecial then { f with optable := .rtc }
      else if d.ftype = ftypeDirectory then { f with optable := .directory }
      else f
    f.optable.openOp.map (fun r => (r, f))

/--
What a blocking device answered: the value `term_read` returned and the memory it
left. The kernel suspends in the middle of that call, so the answer is an input.
-/
structure DeviceRead where
  ret : Int
  mem : Mem

/-- `kread(f, buf, numbytes)`. -/
def kread (img : Image) (d : Dentry) (dev : DeviceRead) (f : File) (buf : Nat) (n : Word)
    (m : Mem) : Option (Int × File × Mem) :=
  match f.optable with
  | .null => none
  | .regular => some (regularRead img f buf n m)
  | .directory => some (directoryRead img d f buf n m)
  | .rtc => some (0, f, m)
  | .stdin => some (dev.ret, f, dev.mem)
  | .stdout => some (-1, f, m)

/-- `rtc_write(f, frequency, numbytes)`: four bytes, a power of two from 2 to 1024. -/
def rtcWrite (frequency : Word) (numbytes : Int) : Int :=
  if numbytes ≠ 4 then -1
  else
    match frequency.toNat with
    | 2 => changeRtcFreq 15
    | 4 => changeRtcFreq 14
    | 8 => changeRtcFreq 13
    | 16 => changeRtcFreq 12
    | 32 => changeRtcFreq 11
    | 64 => changeRtcFreq 10
    | 128 => changeRtcFreq 9
    | 256 => changeRtcFreq 8
    | 512 => changeRtcFreq 7
    | 1024 => changeRtcFreq 6
    | _ => -1

/--
The value `kwrite(f, buf, numbytes)` returns. No write operation touches its
`FILE`; `term_write` returns its count after putting the bytes on the screen.
-/
def kwrite (f : File) (buf : Nat) (n : Word) (m : Mem) : Option Int :=
  match f.optable with
  | .null => none
  | .regular => some (-1)
  | .directory => some (-1)
  | .rtc => some (rtcWrite (loadWord m buf) n.toInt)
  | .stdin => some (-1)
  | .stdout => some n.toInt

end Zbiggie
