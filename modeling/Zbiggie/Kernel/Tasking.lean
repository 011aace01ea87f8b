import Zbiggie.Kernel.Paging
import Zbiggie.Kernel.Zbigfs

/-!
# Processes, the run queue and file descriptors

`tasking.c`. A PCB is reached by number; the run queue holds one process per
terminal, and the entry of the active terminal is out of date until the next
timer tick saves `current_process` into it.
-/

namespace Zbiggie

open Machine

/-! ## Files of the current process -/

/-- Whether bit `FILE_FLAG_IN_USE` is set. -/
def File.inUse (f : File) : Bool := f.flags &&& fileFlagInUse ≠ 0

/-- The flag set, and cleared. -/
def File.claim (f : File) : File := { f with flags := f.flags ||| fileFlagInUse }
def File.clear (f : File) : File := { f with flags := f.flags &&& ~~~fileFlagInUse }

/-- `get_file(fd)`: the slot, or nothing when out of range or not open. -/
def getFile (k : Kernel) (fd : Int) : Option (Fin 8) :=
  if h : 0 ≤ fd ∧ fd < 8 then
    let i : Fin 8 := ⟨fd.toNat, by omega⟩
    if (k.currentPcb.f i).inUse then some i else none
  else none

/-- Write one slot of the current process's file table. -/
def setFile (k : Kernel) (i : Fin 8) (f : File) : Kernel :=
  k.setPcb k.task.currentProcess
    { k.currentPcb with f := Function.update k.currentPcb.f i f }

/-- The scan of `get_new_fd` over the slots still to be looked at. -/
def firstFree (f : Fin 8 → File) : List (Fin 8) → Option (Fin 8)
  | [] => none
  | i :: is => if (f i).inUse then firstFree f is else some i

/-- `get_new_fd()`: the first free slot, which is claimed. -/
def getNewFd (k : Kernel) : Option (Fin 8) × Kernel :=
  match firstFree k.currentPcb.f (List.finRange 8) with
  | none => (none, k)
  | some i => (some i, setFile k i (k.currentPcb.f i).claim)

/-- `free_fd(fd)`: descriptors `0` and `1` are never freed. -/
def freeFd (fd : Int) (k : Kernel) : Int × Kernel :=
  if h : 2 ≤ fd ∧ fd < 8 then
    let i : Fin 8 := ⟨fd.toNat, by omega⟩
    if (k.currentPcb.f i).inUse then (0, setFile k i (k.currentPcb.f i).clear) else (-1, k)
  else (-1, k)

/-- `syscall_close(fd)`; `kclose` does nothing. -/
def syscallClose (fd : Int) (k : Kernel) : Int × Kernel :=
  match getFile k fd with
  | none => (-1, k)
  | some _ => freeFd fd k

/-! ## Processes -/

/-- The loop of `find_free_pcb`, from `i`, with at most `fuel` increments to go. -/
def findFreeLoop (k : Kernel) : Nat → Nat → Nat
  | 0, i => i
  | fuel + 1, i =>
      if (k.task.pcb i).present ∧ i ≤ maxPid then findFreeLoop k fuel (i + 1) else i

/-- `find_free_pcb()`. -/
def findFreePcb (k : Kernel) : Option Nat :=
  let i := findFreeLoop k maxPid 1
  if i > maxPid then none else some i

/-- `switch_context(pid)`. -/
def switchContext (pid : Nat) (k : Kernel) : Kernel :=
  let k := { k with task := { k.task with currentProcess := pid } }
  let k := setVmemTable k.task.currentActiveProcess k
  let k := setCr3 pid k
  { k with task := { k.task with tssEsp0 := offset8M - pid * offset8K } }

/-- The PCB `setup_new_process` writes: present, a parent, and everything else zero. -/
def Pcb.fresh (parent : Nat) : Pcb where
  esp := 0
  parent := parent
  cmdstring := fun _ => 0
  f := fun _ => .zero
  present := true

/-- Claim a descriptor and give it an operation table (`stdin_open`, `stdout_open`). -/
def openStd (ops : OpTable) (k : Kernel) : Kernel :=
  match getNewFd k with
  | (none, k) => k
  | (some i, k) => setFile k i { k.currentPcb.f i with optable := ops }

/-- `setup_new_process()`: nothing when no PCB is free. -/
def setupNewProcess (L : Layout) (k : Kernel) : Option Kernel :=
  match findFreePcb k with
  | none => none
  | some pid =>
      let k := k.setPcb pid (.fresh k.task.currentProcess)
      let k := initPd L pid k
      let k := switchContext pid k
      let k := openStd .stdin k
      some (openStd .stdout k)

/-- `free_current_pcb()`. -/
def freeCurrentPcb (k : Kernel) : Kernel :=
  let k := forLoop maxFiles (fun i k => (syscallClose i k).2) k
  k.setPcb k.task.currentProcess { k.currentPcb with present := false }

/-- `save_queue()`. -/
def saveQueue (k : Kernel) : Kernel :=
  { k with task := { k.task with
      processes := Function.update k.task.processes k.task.currentActiveProcess
        k.task.currentProcess } }

/-- `get_next_task_pid()`. -/
def getNextTaskPid (k : Kernel) : Nat := k.task.processes (k.task.currentActiveProcess + 1)

/-- `get_current_task_pid()`. -/
def getCurrentTaskPid (k : Kernel) : Nat := k.task.processes k.task.currentActiveProcess

/-- `incr_current_active_process()`; addition of terminals is modulo `NUM_PROCESSES`. -/
def incrCurrentActiveProcess (k : Kernel) : Kernel :=
  { k with task := { k.task with currentActiveProcess := k.task.currentActiveProcess + 1 } }

/-- Save a stack pointer into a PCB. -/
def saveEsp (pid esp : Nat) (k : Kernel) : Kernel :=
  k.setPcb pid { k.task.pcb pid with esp := esp }

end Zbiggie
