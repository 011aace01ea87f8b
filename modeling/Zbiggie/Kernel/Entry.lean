import Zbiggie.Kernel.Format
import Zbiggie.Kernel.Syscall
import Zbiggie.Machine.Asm
import Zbiggie.Machine.CString

/-!
# The assembly around the C

`syscall.S` and `next_task` of `tasking_funcs.S`, instruction by instruction, and the C
functions they call. A pointer to a PCB stands for the number of its process and a
pointer to a `FILE` for its slot in the table of the current process; the stack pointer
a PCB holds stands for the stack it points to. The address goes into the PCB as well.
-/

namespace Zbiggie

open Machine Machine.Asm

/-! ## The C functions -/

/-- The C functions that assembly calls. -/
inductive CFun where
  | strlen
  | usrPtrOk
  | getCurrentPcb
  | getCurrentPid
  | getPcb
  | loadExecToMem
  | kloadExecToMem
  | getFile
  | kread
  | kwrite
  | syscallOpen
  | syscallClose
  | syscallGetargs
  | syscallVidmap
  | freeCurrentPcb
  | switchContext
  | sendEoi
  | saveQueue
  | getNextTaskPid
  | getCurrentTaskPid
  | incrCurrentActiveProcess

/-- The kernel, and the stacks of the processes that are not running. -/
structure Env where
  kernel : Kernel
  parked : Nat → List Slot

/-- The inputs that the code leaves open: the disk and the layout, the uninitialised locals,
what a device answered, where the string "shell" lies, which address a stack has, and what
C leaves in the registers it may use. -/
structure Boundary where
  L : Layout
  img : Image
  loc : ExecLocals
  d : Dentry
  dev : DeviceRead
  shell : Word
  espOf : List Slot → Nat
  scratch : CFun → Env → Scratch

/-- The string at an address, byte after byte through the page directory. There is none
where a page is missing before the NUL: the kernel faults there. -/
def readString (L : Layout) (k : Kernel) : Nat → Word → Option (List Byte)
  | 0, _ => none
  | n + 1, v =>
      match translate L k k.page.cr3 false v with
      | none => none
      | some a => if k.ram a = 0 then some [] else (readString L k n (v + 1)).map (k.ram a :: ·)

/-- The string C finds at an address: the kernel's own, or what the pages hold. -/
def Boundary.stringAt (b : Boundary) (k : Kernel) (p : Word) : Option (List Byte) :=
  if p = b.shell then some execstring else readString b.L k addressSpace p

/-- `syscall_vidmap(vid_ptr)`: the address of the video page behind the program page. -/
def syscallVidmap (p : Word) (k : Kernel) : Int × Kernel :=
  if usrPtrOk p 4 = 0 then (-1, k)
  else
    let v : Word := BitVec.ofNat 32 (offset132M + offsetVideo)
    let dst := userPhys k.task.currentProcess p.toNat
    (0, { k with ram := memcpy k.ram dst (fun i => v.extractLsb' (8 * i) 8) 4 })

/-- The value of a load for assembly; a page fault does not return. -/
def loadedWord : Option (Loaded × Kernel) → Option (Option Word × Kernel)
  | some (.returned v, k) => some (some v, k)
  | _ => none

/-- A value of C, as `%eax` holds it. -/
def intWord (r : Int × Kernel) : Option Word × Kernel := (some (BitVec.ofInt 32 r.1), r.2)

/-- What the functions do, on the arguments at the top of the stack. A fault does not return. -/
def Boundary.call (b : Boundary) (k : Kernel) : CFun → List Slot → Option (Option Word × Kernel)
  | .strlen, .word p :: _ => (b.stringAt k p).map fun s => (some (BitVec.ofNat 32 s.length), k)
  | .usrPtrOk, .word p :: .word s :: _ => some (intWord (usrPtrOk p s, k))
  | .getCurrentPcb, _ => some (some (BitVec.ofNat 32 k.task.currentProcess), k)
  | .getCurrentPid, _ => some (some (BitVec.ofNat 32 k.task.currentProcess), k)
  | .getPcb, .word pid :: _ => some (some pid, k)
  | .loadExecToMem, .word p :: _ =>
      (b.stringAt k p).bind fun cmd => loadedWord (loadExecToMem b.L b.img b.loc cmd k)
  | .kloadExecToMem, .word p :: _ =>
      (b.stringAt k p).bind fun cmd => loadedWord (kloadExecToMem b.L b.img b.loc cmd k)
  | .getFile, .word fd :: _ =>
      some (some (match getFile k fd.toInt with | none => -1 | some i => BitVec.ofNat 32 i), k)
  | .kread, .word f :: .word buf :: .word n :: _ =>
      if h : f.toNat < 8 then
        ((Call.kread ⟨f.toNat, h⟩ buf n).run b.img b.d b.dev ⟨0, 0, buf, n⟩ k).map intWord
      else none
  | .kwrite, .word f :: .word buf :: .word n :: _ =>
      if h : f.toNat < 8 then
        ((Call.kwrite ⟨f.toNat, h⟩ buf n).run b.img b.d b.dev ⟨0, 0, buf, n⟩ k).map intWord
      else none
  | .syscallOpen, .word p :: _ =>
      (b.stringAt k p).bind fun name => (syscallOpen b.img b.d p name k).map intWord
  | .syscallClose, .word fd :: _ => some (intWord (syscallClose fd.toInt k))
  | .syscallGetargs, .word buf :: .word n :: _ =>
      ((getargs ⟨0, buf, n, 0⟩).run b.img b.d b.dev ⟨0, buf, n, 0⟩ k).map intWord
  | .syscallVidmap, .word p :: _ => some (intWord (syscallVidmap p k))
  | .freeCurrentPcb, _ => some (none, freeCurrentPcb k)
  | .switchContext, .word pid :: _ => some (none, switchContext pid.toNat k)
  | .sendEoi, .word _ :: _ => some (none, k)
  | .saveQueue, _ => some (none, saveQueue k)
  | .getNextTaskPid, _ => some (some (BitVec.ofNat 32 (getNextTaskPid k)), k)
  | .getCurrentTaskPid, _ => some (some (BitVec.ofNat 32 (getCurrentTaskPid k)), k)
  | .incrCurrentActiveProcess, _ => some (none, incrCurrentActiveProcess k)
  | _, _ => none

/-- `PARENT`, the offset of the parent in a PCB. -/
def parentOffset : Nat := 4

/-- The kernel as the assembly is linked with it. -/
def Boundary.linkage (b : Boundary) : Linkage CFun Env where
  call := fun f s e => (b.call e.kernel f s).map fun (v, k) => (v, { e with kernel := k })
  scratch := b.scratch
  stackOf := fun pid e => e.parked pid.toNat
  setStack := fun pid s e =>
    { kernel := saveEsp pid.toNat (b.espOf s) e.kernel
      parked := Function.update e.parked pid.toNat s }
  field := fun pid off e =>
    if off = parentOffset then BitVec.ofNat 32 (e.kernel.task.pcb pid.toNat).parent else 0

/-! ## The code -/

/-- The labels of the two files. -/
inductive Lbl where
  | syscall
  | unsave
  | invalidSyscall
  | syscallFail
  | launchNewShell
  | halt
  | execute
  | kexecute
  | read
  | readDone
  | readBadPtr
  | write
  | openFile
  | close
  | getargs
  | vidmap
  | setHandler
  | sigreturn
  | nextTask
  | switching
  | launchTaskShell
  deriving DecidableEq

/-- `SYSCALL_MAX_INDEX` -/
def syscallMaxIndex : Word := 9

def userDs : Word := 0x2B
def userCs : Word := 0x23

/-- `jump_table` -/
def jumpTable : List Lbl :=
  [.halt, .execute, .read, .write, .openFile, .close, .getargs, .vidmap, .setHandler, .sigreturn]

/-- The end of `execute` and of `kexecute`, which are the same but for the loader `load`
they call: the checks, the stack into the PCB, and the frame of an `iret` into the program. -/
def enterProgram (load : CFun) : List (Instr Lbl CFun) :=
  [ .call .getCurrentPcb,
    .movl .eax .edi,
    .pushl .ebx,
    .call load,
    .addEsp 1,
    .cmpl (-1) .eax,
    .jz .syscallFail,
    .cmpl 1 .eax,
    .jz .syscallFail,
    .saveEsp .edi,
    .pushi userDs,
    .movi (BitVec.ofNat 32 loadAddr) .ebx,
    .subl 4 .ebx,
    .pushl .ebx,
    .pushf,
    .orTop flagIf,
    .pushi userCs,
    .pushl .eax,
    .iret ]

/-- `syscall.S`, and `next_task` behind it; `shell` is what `execstring` holds. -/
def entryCode (shell : Word) : List (Instr Lbl CFun) :=
  [ .label .syscall,
    .pushl .ebp,
    .pushl .ebx,
    .pushl .ecx,
    .pushl .edx,
    .pushl .esi,
    .pushl .edi,
    .decl .eax,
    .cmpl syscallMaxIndex .eax,
    .ja .invalidSyscall,
    .cmpl 0 .eax,
    .jb .invalidSyscall,
    .callTable jumpTable .eax,
    .label .unsave,
    .popl .edi,
    .popl .esi,
    .popl .edx,
    .popl .ecx,
    .popl .ebx,
    .popl .ebp,
    .iret,
    .label .invalidSyscall,
    .movi (-1) .eax,
    .jmp .unsave,
    .label .syscallFail,
    .movi (-1) .eax,
    .ret,
    .label .launchNewShell,
    .movi shell .ebx,
    .jmp .kexecute,
    .label .halt,
    .call .freeCurrentPcb,
    .call .getCurrentPid,
    .cmpl 4 .eax,
    .jb .launchNewShell,
    .call .getCurrentPcb,
    .pushField parentOffset .eax,
    .call .switchContext,
    .call .getPcb,
    .loadEsp .eax,
    .movl .ebx .eax,
    .ret,
    .label .execute,
    .pushl .ebx,
    .call .strlen,
    .pushl .eax,
    .pushl .ebx,
    .call .usrPtrOk,
    .addEsp 3,
    .orl .eax,
    .jz .syscallFail ] ++ enterProgram .loadExecToMem ++
  [ .label .kexecute ] ++ enterProgram .kloadExecToMem ++
  [ .label .read,
    .pushl .edx,
    .pushl .ecx,
    .call .usrPtrOk,
    .orl .eax,
    .jz .readBadPtr,
    .pushl .ebx,
    .call .getFile,
    .cmpl (-1) .eax,
    .jz .readDone,
    .addEsp 1,
    .pushl .eax,
    .call .kread,
    .label .readDone,
    .addEsp 3,
    .ret,
    .label .readBadPtr,
    .addEsp 2,
    .movi (-1) .eax,
    .ret,
    .label .write,
    .pushl .edx,
    .pushl .ecx,
    .call .usrPtrOk,
    .orl .eax,
    .jz .readBadPtr,
    .pushl .ebx,
    .call .getFile,
    .cmpl (-1) .eax,
    .jz .readDone,
    .addEsp 1,
    .pushl .eax,
    .call .kwrite,
    .addEsp 3,
    .ret,
    .label .openFile,
    .pushl .ebx,
    .call .syscallOpen,
    .addEsp 1,
    .ret,
    .label .close,
    .pushl .ebx,
    .call .syscallClose,
    .addEsp 1,
    .ret,
    .label .getargs,
    .pushl .ecx,
    .pushl .ebx,
    .call .syscallGetargs,
    .addEsp 2,
    .ret,
    .label .vidmap,
    .pushl .ebx,
    .call .syscallVidmap,
    .addEsp 1,
    .ret,
    .label .setHandler,
    .ret,
    .label .sigreturn,
    .ret,
    .label .nextTask,
    .cli,
    .pushal,
    .pushi 0,
    .call .sendEoi,
    .addEsp 1,
    .call .saveQueue,
    .call .getCurrentPcb,
    .saveEsp .eax,
    .call .getNextTaskPid,
    .pushl .eax,
    .call .incrCurrentActiveProcess,
    .popl .eax,
    .cmpl 0 .eax,
    .jz .launchTaskShell,
    .label .switching,
    .call .getCurrentTaskPid,
    .pushl .eax,
    .call .switchContext,
    .addEsp 1,
    .call .getCurrentPcb,
    .loadEsp .eax,
    .popal,
    .sti,
    .iret,
    -- `tasking_funcs.S` has a `launch_new_shell` of its own
    .label .launchTaskShell,
    .movi shell .ebx,
    .jmp .kexecute ]

end Zbiggie
