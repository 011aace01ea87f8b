import Zbiggie.Kernel.State

/-!
# Page directories and the two-level walk

`page.c` keeps eleven page directories and two page tables. The tables are shared:
`low_memory_table` maps the first 4M (and, through a second directory slot, the
4M above the program page), `video_table` maps the three terminal buffers and, in
its fourth entry, the video page itself.

`translate` is the processor's side: the walk of a 32-bit address through a
directory, in user or in supervisor mode. Write protection plays no part in it:
`init_paging` leaves `CR0.WP` clear, so the supervisor may write any present
page, and every user-accessible entry the kernel builds is writable.
-/

namespace Zbiggie

open Machine

/--
Where the linker put the two page tables. The kernel is identity-mapped and the
tables are declared `aligned(OFFSET_4K)`.
-/
structure Layout where
  lowMemoryTable : Word
  videoTable : Word
  /-- Alignment of the first table. -/
  low_aligned : lowMemoryTable &&& 0xFFF#32 = 0
  /-- Alignment of the second. -/
  video_aligned : videoTable &&& 0xFFF#32 = 0
  /-- They are two tables. -/
  ne : videoTable ≠ lowMemoryTable

def pdePresent : Word := 0x1
def pdeWrite : Word := 0x2
def pdeUser : Word := 0x4
def pdeSize : Word := 0x80
def pdeAddressMask : Word := 0xFFFFF000
/-- The frame bits of a directory entry that maps a 4M page. -/
def pdeLargeMask : Word := 0xFFC00000
def kernelPd : Nat := 0
def userPageDir : Nat := 32

/-- The index of the video page in `low_memory_table`. -/
def videoEntry : Nat := offsetVideo / offset4K

/-- Virtual (and physical) address of terminal `t`'s buffer page. -/
def bufferPage (t : Nat) : Nat := (numPds + 1) * offset4M + t * offset4K

/-! ## The walk -/

/-- Entry `i` of the page table at physical address `a`. -/
def tableEntry (L : Layout) (k : Kernel) (a : Word) (i : Nat) : Word :=
  if a = L.lowMemoryTable then k.page.lowMemoryTable i
  else if a = L.videoTable then k.page.videoTable i
  else loadWord k.ram (a.toNat + 4 * i)

/-- Whether an entry lets an access through: present, and marked user in user mode. -/
def allows (user : Bool) (entry : Word) : Bool :=
  entry.getLsbD 0 && (!user || entry.getLsbD 2)

/-- The physical address of `v` under directory `pd`, if the access does not fault. -/
def translate (L : Layout) (k : Kernel) (pd : Nat) (user : Bool) (v : Word) : Option Nat :=
  let pde := k.page.pageDirectories pd (v.toNat / offset4M)
  if allows user pde then
    if pde.getLsbD 7 then
      some ((pde &&& pdeLargeMask).toNat + v.toNat % offset4M)
    else
      let pte := tableEntry L k (pde &&& pdeAddressMask) (v.toNat / offset4K % 1024)
      if allows user pte then some ((pte &&& pdeAddressMask).toNat + v.toNat % offset4K)
      else none
  else none

/-- The kernel stores one byte through the selected directory. -/
def kstore (L : Layout) (k : Kernel) (v : Word) (b : Byte) : Kernel :=
  match translate L k k.page.cr3 false v with
  | some a => { k with ram := store k.ram a b }
  | none => k

/-- The kernel loads one byte through the selected directory. -/
def kload (L : Layout) (k : Kernel) (v : Word) : Byte :=
  match translate L k k.page.cr3 false v with
  | some a => k.ram a
  | none => 0

/-- `memcpy(dest, src, n)` on kernel addresses. -/
def kmemcpy (L : Layout) (dest src : Word) (n : Nat) (k : Kernel) : Kernel :=
  forLoop n
    (fun i k => kstore L k (dest + BitVec.ofNat 32 i) (kload L k (src + BitVec.ofNat 32 i))) k

/-! ## page.c -/

/-- `OFFSET_VIDEO | PTE_PRESENT | PTE_WRITE | PTE_USER`. -/
def videoPte : Word := BitVec.ofNat 32 offsetVideo ||| pdePresent ||| pdeWrite ||| pdeUser

/-- The entry that maps terminal `t`'s buffer page. -/
def bufferPte (t : Nat) : Word :=
  BitVec.ofNat 32 (bufferPage t) ||| pdePresent ||| pdeWrite ||| pdeUser

/-- `set_vmem_table(term_num)`. -/
def setVmemTable (t : Term) (k : Kernel) : Kernel :=
  let e := if k.page.currentTerminal = t then videoPte else bufferPte t
  { k with page := { k.page with
      lowMemoryTable := Function.update k.page.lowMemoryTable videoEntry e } }

/-- The directory `init_pd(pd_num)` leaves: everything else is not present. -/
def pdRow (L : Layout) (pdNum : Nat) : Nat → Word :=
  let row : Nat → Word := fun _ => 0
  let row := Function.update row 0 ((L.lowMemoryTable &&& pdeAddressMask) ||| pdePresent)
  let row := Function.update row 1 (BitVec.ofNat 32 offset4M ||| pdeSize ||| pdePresent)
  let row := Function.update row userPageDir
    (BitVec.ofNat 32 ((pdNum + 1) * offset4M) ||| pdeSize ||| pdePresent ||| pdeUser ||| pdeWrite)
  let row := Function.update row (userPageDir + 1)
    ((L.lowMemoryTable &&& pdeAddressMask) ||| pdePresent ||| pdeUser ||| pdeWrite)
  Function.update row (numPds + 1) ((L.videoTable &&& pdeAddressMask) ||| pdePresent)

/-- `init_pd(pd_num)`. -/
def initPd (L : Layout) (pdNum : Nat) (k : Kernel) : Kernel :=
  { k with page := { k.page with
      pageDirectories := Function.update k.page.pageDirectories pdNum (pdRow L pdNum) } }

/-- `set_cr3(pd_num)`. -/
def setCr3 (pdNum : Nat) (k : Kernel) : Kernel :=
  { k with page := { k.page with cr3 := pdNum } }

/-- `attribs`: the colour of each terminal. -/
def attribs (t : Term) : Byte :=
  match t with
  | 0 => 0x30
  | 1 => 0x40
  | 2 => 0x50

/-- The kernel's own directory, as `init_paging` fills it. -/
def kernelPdRow (L : Layout) : Nat → Word :=
  let row : Nat → Word := fun _ => 0
  let row := Function.update row 0 ((L.lowMemoryTable &&& pdeAddressMask) ||| pdePresent)
  let row := Function.update row 1 (BitVec.ofNat 32 offset4M ||| pdeSize ||| pdePresent)
  Function.update row (numPds + 1)
    ((L.videoTable &&& pdeAddressMask) ||| pdePresent ||| pdeWrite ||| pdeUser)

/-- The tables of `init_paging`, up to the moment paging is switched on. -/
def initTables (L : Layout) (k : Kernel) : Kernel :=
  { k with page := { k.page with
      pageDirectories := Function.update k.page.pageDirectories kernelPd (kernelPdRow L)
      lowMemoryTable :=
        Function.update (fun i => BitVec.ofNat 32 (i * offset4K)) videoEntry videoPte
      videoTable := fun i =>
        if i < 3 then bufferPte i else if i = 3 then videoPte else k.page.videoTable i
      cr3 := kernelPd } }

/-- The colouring loop of `init_paging` for terminal `t`. -/
def initBuffer (L : Layout) (t : Term) (k : Kernel) : Kernel :=
  forLoop offset4K (fun i k =>
      let j := bufferPage t + i
      kstore L k (BitVec.ofNat 32 j) (if j % 2 = 0 then 0 else attribs t))
    (setVmemTable t k)

/-- `init_paging()`. -/
def initPaging (L : Layout) (k : Kernel) : Kernel :=
  setVmemTable 0 (initBuffer L 2 (initBuffer L 1 (initBuffer L 0 (initTables L k))))

end Zbiggie
