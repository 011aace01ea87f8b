import Mathlib.Data.Fin.Basic
import Zbiggie.Machine.Word

/-!
# The kernel's variables

One record per C file, holding that file's globals under their own names, and one
record of records for the machine the kernel runs on. Constants come first, each
with the value its `#define` gives it.

Three of the source's integers never leave a small range by construction, and
that range is their type here: `current_terminal` and `current_active_process`
are assigned only `0`, `1`, `2` (`switch_video` is called with those constants,
`incr_current_active_process` reduces modulo `NUM_PROCESSES`), and a file
descriptor that reached a table is below `MAX_FILES`.
-/

namespace Zbiggie

open Machine

/-! ## Constants -/

/-- Largest process number; `0` is the boot context, not a process. -/
def maxPid : Nat := 10
/-- Slots in a process's file table. -/
def maxFiles : Nat := 8
/-- Page directories: one per process and the kernel's own. -/
def numPds : Nat := maxPid + 1

def offset4K : Nat := 0x1000
def offset8K : Nat := offset4K * 2
def offset4M : Nat := 0x400000
def offset8M : Nat := offset4M * 2
def offset128M : Nat := offset4M * 32
def offset132M : Nat := offset4M * 33
/-- Physical address of the text-mode video page. -/
def offsetVideo : Nat := 0xB8000
/-- Where a program image is loaded. -/
def loadAddr : Nat := 0x08048000

/-- Bytes in a command line, a line buffer and a history row. -/
def bufSize : Nat := 128
/-- Rows in one terminal's history. -/
def histSize : Nat := 50
def numCols : Nat := 80
def numRows : Nat := 25

/-- One of the three terminals, which are also the three slots of the run queue. -/
abbrev Term := Fin 3

/-- What makes `0`, `1` and `2` terminals. -/
instance instNeZeroTerm : @NeZero Nat Zero.ofOfNat0 3 := ⟨by decide⟩

/-! ## zbigfs.h -/

/-- The operation tables a `FILE` can point at; `null` is the zeroed pointer. -/
inductive OpTable where
  | null | regular | directory | rtc | stdin | stdout
  deriving DecidableEq, Repr

/-- `FILE`. -/
structure File where
  optable : OpTable
  inode : Word
  pos : Word
  flags : Word
  deriving DecidableEq, Repr

/-- `{0}`. -/
def File.zero : File := ⟨.null, 0, 0, 0⟩

/-- `dentry_t`, with whatever lies behind it as the tail of `reserved`. -/
structure Dentry where
  fname : Fin 32 → Byte
  ftype : Word
  inodeNum : Word
  reserved : Mem

/-! ## tasking.h -/

/-- `pcb_t`. -/
structure Pcb where
  esp : Nat
  parent : Nat
  cmdstring : Mem
  f : Fin 8 → File
  present : Bool

/-- The globals of `tasking.c`, with the stack pointer field of the task state segment. -/
structure Tasking where
  /-- The run queue: the process of each terminal, `0` for none. -/
  processes : Term → Nat
  currentProcess : Nat
  currentActiveProcess : Term
  /-- `get_pcb`. -/
  pcb : Nat → Pcb
  tssEsp0 : Nat

/-! ## page.c -/

/-- The globals of `page.c`, with the directory `%cr3` selects. -/
structure Paging where
  pageDirectories : Nat → Nat → Word
  lowMemoryTable : Nat → Word
  videoTable : Nat → Word
  currentTerminal : Term
  cr3 : Nat

/-! ## lib.c, terminal.c, idt_funcs.c -/

/-- The cursors kept by `lib.c`. -/
structure Screen where
  screenX : Term → Int
  screenY : Term → Int
  biggestY : Term → Int

/--
The globals of `terminal.c`. `buffer` and `history` are the arrays laid out as C
lays them out, row after row, so that an index outside its own row is an index
into a neighbouring one.
-/
structure Terminal where
  buffer : Int → Byte
  history : Int → Byte
  histIndeces : Term → Int
  histBottomIndeces : Term → Int
  curPos : Term → Int
  curSize : Term → Int
  prevSize : Term → Int
  writeX : Term → Int
  writeY : Term → Int
  waitForNl : Term → Bool

/-- The modifier flags of `idt_funcs.c`. -/
structure Keyboard where
  shiftLFlag : Term → Bool
  shiftRFlag : Term → Bool
  ctrlFlag : Term → Bool
  capsLockFlag : Bool
  altFlag : Bool

/-- The machine: the kernel's variables and the physical memory behind the page tables. -/
structure Kernel where
  task : Tasking
  page : Paging
  screen : Screen
  term : Terminal
  keys : Keyboard
  /-- Physical memory: the video page, the terminal buffers and the program pages. -/
  ram : Mem

/-- A PCB that was never used. -/
def Pcb.zero : Pcb where
  esp := 0
  parent := 0
  cmdstring := fun _ => 0
  f := fun _ => .zero
  present := false

namespace Kernel

/--
The machine as the boot loader hands it over: every global zero, no process
present, an empty run queue, terminal `0` in the foreground.
-/
def zero : Kernel where
  task := ⟨fun _ => 0, 0, 0, fun _ => .zero, 0⟩
  page := ⟨fun _ _ => 0, fun _ => 0, fun _ => 0, 0, 0⟩
  screen := ⟨fun _ => 0, fun _ => 0, fun _ => 0⟩
  term := ⟨fun _ => 0, fun _ => 0, fun _ => 0, fun _ => 0, fun _ => 0, fun _ => 0, fun _ => 0,
    fun _ => 0, fun _ => 0, fun _ => false⟩
  keys := ⟨fun _ => false, fun _ => false, fun _ => false, false, false⟩
  ram := fun _ => 0

/-- `get_current_pcb()`. -/
def currentPcb (k : Kernel) : Pcb := k.task.pcb k.task.currentProcess

/-- Write one PCB. -/
def setPcb (k : Kernel) (pid : Nat) (p : Pcb) : Kernel :=
  { k with task := { k.task with pcb := Function.update k.task.pcb pid p } }

@[simp] theorem setPcb_pcb (k : Kernel) (pid : Nat) (p : Pcb) :
    (k.setPcb pid p).task.pcb = Function.update k.task.pcb pid p := rfl
@[simp] theorem setPcb_processes (k : Kernel) (pid : Nat) (p : Pcb) :
    (k.setPcb pid p).task.processes = k.task.processes := rfl
@[simp] theorem setPcb_currentProcess (k : Kernel) (pid : Nat) (p : Pcb) :
    (k.setPcb pid p).task.currentProcess = k.task.currentProcess := rfl
@[simp] theorem setPcb_currentActiveProcess (k : Kernel) (pid : Nat) (p : Pcb) :
    (k.setPcb pid p).task.currentActiveProcess = k.task.currentActiveProcess := rfl
@[simp] theorem setPcb_tssEsp0 (k : Kernel) (pid : Nat) (p : Pcb) :
    (k.setPcb pid p).task.tssEsp0 = k.task.tssEsp0 := rfl
@[simp] theorem setPcb_page (k : Kernel) (pid : Nat) (p : Pcb) :
    (k.setPcb pid p).page = k.page := rfl
@[simp] theorem setPcb_screen (k : Kernel) (pid : Nat) (p : Pcb) :
    (k.setPcb pid p).screen = k.screen := rfl
@[simp] theorem setPcb_term (k : Kernel) (pid : Nat) (p : Pcb) :
    (k.setPcb pid p).term = k.term := rfl
@[simp] theorem setPcb_ram (k : Kernel) (pid : Nat) (p : Pcb) :
    (k.setPcb pid p).ram = k.ram := rfl

end Kernel

end Zbiggie
