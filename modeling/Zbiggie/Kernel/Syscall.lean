import Zbiggie.Kernel.Terminal

/-!
# System calls, the loader and the scheduler's entry points

`syscall_funcs.c`, `syscall.S` and `tasking_funcs.S`. Each operation is taken here
as one step: interrupts inside them are the subject of `Proof/Preempt`.

Two inputs that the C text leaves open are explicit arguments. `ExecLocals` is the
stack garbage in the loader's uninitialised locals. `esp` is the stack pointer at
the instruction that saves it.
-/

namespace Zbiggie

open Machine

/-! ## User pointers -/

/-- `usr_ptr_ok(p, s)`: a signed test of `p`, an unsigned test of the wrapped sum. -/
def usrPtrOk (p s : Word) : Int :=
  if p.toInt ≥ offset128M ∧ (p + s).toNat ≤ offset132M then 1 else 0

/-- The registers a system call is issued with. -/
structure Regs where
  eax : Word
  ebx : Word
  ecx : Word
  edx : Word

/-- What a system call does after its checks: return, or hand a byte range on. -/
inductive Call where
  | returns (v : Int)
  | kread (fd : Fin 8) (buf n : Word)
  | kwrite (fd : Fin 8) (buf n : Word)
  | strncpy (buf n : Word)

/-- `read`: `%ebx` the descriptor, `%ecx` the buffer, `%edx` the size. -/
def read (r : Regs) (k : Kernel) : Call :=
  if usrPtrOk r.ecx r.edx = 0 then .returns (-1)
  else
    match getFile k r.ebx.toInt with
    | none => .returns (-1)
    | some fd => .kread fd r.ecx r.edx

/-- `write`. -/
def write (r : Regs) (k : Kernel) : Call :=
  if usrPtrOk r.ecx r.edx = 0 then .returns (-1)
  else
    match getFile k r.ebx.toInt with
    | none => .returns (-1)
    | some fd => .kwrite fd r.ecx r.edx

/-- `min(a, b)` on signed integers. -/
def min (a b : Int) : Int := if a < b then a else b

/-- `getargs`, up to its copy: the count is the signed minimum read as unsigned. -/
def getargs (r : Regs) : Call :=
  if usrPtrOk r.ebx r.ecx = 0 then .returns (-1)
  else .strncpy r.ebx (BitVec.ofInt 32 (min r.ecx.toInt bufSize))

/-- What `syscall_getargs` returns after its copy: the copy's result is its destination. -/
def getargsReturn (r : Regs) : Int := if r.ebx.toInt < r.ecx.toInt then -1 else 0

/-- The system calls that pass a caller's buffer on, as `syscall` dispatches on `%eax`. -/
def request (r : Regs) (k : Kernel) : Option Call :=
  match r.eax.toNat with
  | 3 => some (read r k)
  | 4 => some (write r k)
  | 7 => some (getargs r)
  | _ => none

/-- Where byte `v` of the program page of `pid` lies in physical memory. -/
def userPhys (pid v : Nat) : Nat := (pid + 1) * offset4M + (v - offset128M)

/-- Carry out what `read`, `write` or `getargs` handed on. -/
def Call.run (img : Image) (d : Dentry) (dev : DeviceRead) (r : Regs) (k : Kernel) :
    Call → Option (Int × Kernel)
  | .returns v => some (v, k)
  | .kread fd buf n =>
      (Zbiggie.kread img d dev (k.currentPcb.f fd)
          (userPhys k.task.currentProcess buf.toNat) n k.ram).map
        fun (v, f, m) => (v, { setFile k fd f with ram := m })
  | .kwrite fd buf n =>
      (Zbiggie.kwrite (k.currentPcb.f fd) (userPhys k.task.currentProcess buf.toNat) n k.ram).map
        fun v => (v, k)
  | .strncpy buf n =>
      let dst := userPhys k.task.currentProcess buf.toNat
      let copy := Machine.strncpy (fun i => k.ram (dst + i)) k.currentPcb.cmdstring n.toNat
      some (getargsReturn r, { k with ram := memcpy k.ram dst copy n.toNat })

/-- `syscall_open(name)` on the string `name` at `ptr`. -/
def syscallOpen (img : Image) (d : Dentry) (ptr : Word) (name : List Byte) (k : Kernel) :
    Option (Int × Kernel) :=
  if usrPtrOk ptr (BitVec.ofNat 32 name.length) = 0 then some (-1, k)
  else
    match getNewFd k with
    | (none, k) => some (-1, k)
    | (some fd, k) =>
        match kopen img d (k.currentPcb.f fd) (cstr name) with
        | none => none
        | some (ret, f) =>
            let k := setFile k fd f
            if ret ≠ 0 then some (ret, (freeFd fd k).2) else some ((fd : Nat), k)

/-! ## The command line -/

/-- `while (in[in_i] == ' ') in_i++`, on the rest of the input and its index. -/
def skipSpaces : List Byte → Nat → List Byte × Nat
  | [], i => ([], i)
  | c :: cs, i => if c = 0x20 then skipSpaces cs (i + 1) else (c :: cs, i)

/--
The copying loops of `parse_input`. The bound is on the input index; the first
loop also stops at a space.
-/
def copyArg (size : Nat) (atSpace : Bool) :
    List Byte → Nat → Nat → Mem → List Byte × Nat × Nat × Mem
  | [], i, o, out => ([], i, o, out)
  | c :: cs, i, o, out =>
      if i < size ∧ c ≠ 0 ∧ c ≠ 0x0A then
        if atSpace ∧ c = 0x20 then (c :: cs, i, o, out)
        else copyArg size atSpace cs (i + 1) (o + 1) (store out o c)
      else (c :: cs, i, o, out)

/-- `parse_input(in, exec_buf, args_buf, size)`. -/
def parseInput (inp : List Byte) (execBuf argsBuf : Mem) (size : Nat) : Mem × Mem :=
  let argsBuf := store argsBuf 0 0
  let (rest, i) := skipSpaces inp 0
  let (rest, i, o, execBuf) := copyArg size true rest i 0 execBuf
  let execBuf := store execBuf o 0
  let (rest, i) := skipSpaces rest i
  let (_, _, o, argsBuf) := copyArg size false rest i 0 argsBuf
  (execBuf, store argsBuf o 0)

/-! ## The loader -/

/-- The uninitialised locals of `load_exec_to_mem`, and `kopen`'s `dentry`. -/
structure ExecLocals where
  f : File
  exec : Mem
  args : Mem
  buf : Mem
  d : Dentry
  dentry : Dentry

def magicNum : Word := 0x464c457f
def exeHeaderSz : Nat := 28
def exeLoadSz : Nat := 33 * offset4M - loadAddr

/--
The loader up to the magic-number test: parse, look the file up twice, read its
header. The outer `none` is a call through a null operation table, the inner one
is `FAIL`; success gives the open file, the header and the arguments.
-/
def loadHeader (img : Image) (loc : ExecLocals) (fname : List Byte) :
    Option (Option (File × Mem × Mem)) :=
  let (exec, args) := parseInput fname loc.exec loc.args bufSize
  let (_, d) := readDentryByName img exec loc.d
  if d.ftype ≠ ftypeRegular then some none
  else
    match kopen img loc.dentry loc.f exec with
    | none => none
    | some (status, f) =>
        if status ≠ 0 then some none
        else
          match kread img loc.dentry ⟨0, loc.buf⟩ f 0 (BitVec.ofNat 32 exeHeaderSz) loc.buf with
          | none => none
          | some (_, f, buf) =>
              if loadWord buf 0 ≠ magicNum then some none else some (some (f, buf, args))

/-- How a load ended: with a value for the caller, or in a page fault. -/
inductive Loaded where
  | returned (v : Word)
  | faulted
  deriving DecidableEq

/--
The part of the loader after a process has been set up: header and body into the
program page, the entry word back out of it, the arguments into the PCB. The body
read may run past the program page, where nothing is mapped.
-/
def loadBody (img : Image) (loc : ExecLocals) (f : File) (buf args : Mem) (k : Kernel) :
    Option (Loaded × Kernel) :=
  let pid := k.task.currentProcess
  let mem := userPhys pid loadAddr
  let k := { k with ram := memcpy k.ram mem buf exeHeaderSz }
  match kread img loc.dentry ⟨0, k.ram⟩ f (mem + exeHeaderSz) (BitVec.ofNat 32 exeLoadSz) k.ram with
  | none => none
  | some (n, _, ram) =>
      if loadAddr + exeHeaderSz + n.toNat > offset132M then some (.faulted, k)
      else
        let k := { k with ram := ram }
        let entry := loadWord k.ram (mem + 24)
        let pcb := k.task.pcb pid
        some (.returned entry,
          k.setPcb pid { pcb with cmdstring := Machine.strncpy pcb.cmdstring args bufSize })

/--
`kload_exec_to_mem(fname)`, which is also `load_exec_to_mem(fname)` less its
first act, the recording of the command in the history.
-/
def kloadExecToMem (L : Layout) (img : Image) (loc : ExecLocals) (fname : List Byte)
    (k : Kernel) : Option (Loaded × Kernel) :=
  match loadHeader img loc fname with
  | none => none
  | some none => some (.returned (-1), k)
  | some (some (f, buf, args)) =>
      match setupNewProcess L k with
      | none => some (.returned 1, k)
      | some k => loadBody img loc f buf args k

/-- `load_exec_to_mem(fname)`. -/
def loadExecToMem (L : Layout) (img : Image) (loc : ExecLocals) (fname : List Byte) (k : Kernel) :
    Option (Loaded × Kernel) :=
  kloadExecToMem L img loc fname (saveHist fname k)

/-- What an `execute` came to. -/
inductive Exec where
  /-- `syscall_fail`: `-1` to the caller. -/
  | failed
  /-- `iret` into the new program at its entry address. -/
  | entered (entry : Word)
  /-- A page fault while loading. -/
  | faulted
  deriving DecidableEq

/--
The tail shared by `execute` and `kexecute`: the two in-band failure values, or
the caller's stack pointer into the PCB that was current before, and the jump.
-/
def enter (caller esp : Nat) : Option (Loaded × Kernel) → Option (Exec × Kernel)
  | none => none
  | some (.faulted, k) => some (.faulted, k)
  | some (.returned v, k) =>
      if v = -1 then some (.failed, k)
      else if v = 1 then some (.failed, k)
      else some (.entered v, saveEsp caller esp k)

/-- `execute`, on the string `cmd` at `ptr`. -/
def execute (L : Layout) (img : Image) (loc : ExecLocals) (esp : Nat) (ptr : Word)
    (cmd : List Byte) (k : Kernel) : Option (Exec × Kernel) :=
  if usrPtrOk ptr (BitVec.ofNat 32 cmd.length) = 0 then some (.failed, k)
  else
    enter k.task.currentProcess esp (loadExecToMem L img loc cmd k)

/-- `execstring`: "shell". -/
def execstring : List Byte := [0x73, 0x68, 0x65, 0x6C, 0x6C]

/-- `kexecute` as `launch_new_shell` reaches it. -/
def launchNewShell (L : Layout) (img : Image) (loc : ExecLocals) (esp : Nat) (k : Kernel) :
    Option (Exec × Kernel) :=
  enter k.task.currentProcess esp (kloadExecToMem L img loc execstring k)

/--
A launch that has no caller to fail to. `syscall_fail` then returns through
whatever lies on the stack, and there is no next state to speak of.
-/
def launched : Option (Exec × Kernel) → Option Kernel
  | some (.entered _, k) => some k
  | _ => none

/-- Where `halt` went. -/
inductive Halted where
  /-- A new base shell was entered. -/
  | relaunched
  /-- Back to the `execute` that started the process, with `%eax` and the stack it saved. -/
  | returned (eax : Word) (esp : Nat)

/-- `halt`, with the status in `%ebx`. -/
def halt (L : Layout) (img : Image) (loc : ExecLocals) (esp : Nat) (ebx : Word) (k : Kernel) :
    Option (Halted × Kernel) :=
  let k := freeCurrentPcb k
  if k.task.currentProcess < 4 then
    (launched (launchNewShell L img loc esp k)).map (fun k => (.relaunched, k))
  else
    let parent := k.currentPcb.parent
    let k := switchContext parent k
    some (.returned ebx (k.task.pcb parent).esp, k)

/-- `next_task`: the timer interrupt. -/
def nextTask (L : Layout) (img : Image) (loc : ExecLocals) (esp : Nat) (k : Kernel) :
    Option Kernel :=
  let k := saveQueue k
  let k := saveEsp k.task.currentProcess esp k
  let next := getNextTaskPid k
  let k := incrCurrentActiveProcess k
  if next = 0 then launched (launchNewShell L img loc esp k)
  else some (switchContext (getCurrentTaskPid k) k)

end Zbiggie
