import Zbiggie.Proof.ProcStep

/-!
# The scheduler, one store at a time

`Kernel/Syscall` takes `next_task`, `execute` and `halt` as single steps. They are
not: the system-call gate leaves interrupts on, and `switch_context` ends in `sti`
wherever it is called from. Here the same three operations are cut at every point
where a timer interrupt can come between two accesses to what they share — the run
queue, `current_process`, the PCBs and the stack pointers saved in them.

A kernel stack is a list of frames, newest first, and a place in one is a stack
number and a count of frames. Process `p` runs on stack `p`, the one `tss.esp0`
names while `p` is current; that the two can come apart is what is studied on top
of this. A load that is refused late returns into the new process, as `enter` has
it; shells are taken to load, as `launched` has it.

Only the timer interrupts. The keyboard and the clock change none of this state.
-/

namespace Zbiggie.Proof

open Zbiggie Machine

namespace ProcView

/-- The store of `setup_new_process` that claims PCB `n`. -/
def claim (v : ProcView) (n : Nat) : ProcView :=
  { v with
    present := Function.update v.present n true
    parent := Function.update v.parent n v.current
    files := Function.update v.files n fun _ => .zero }

/-- `stdin_open` and `stdout_open` on the fresh table of the current process. -/
def openStd (v : ProcView) : ProcView :=
  { v with files := Function.update v.files v.current stdFiles }

@[simp] theorem claim_current (v : ProcView) (n : Nat) : (v.claim n).current = v.current := rfl
@[simp] theorem claim_processes (v : ProcView) (n : Nat) :
    (v.claim n).processes = v.processes := rfl
@[simp] theorem claim_active (v : ProcView) (n : Nat) : (v.claim n).active = v.active := rfl
@[simp] theorem claim_present (v : ProcView) (n : Nat) :
    (v.claim n).present = Function.update v.present n true := rfl
@[simp] theorem claim_parent (v : ProcView) (n : Nat) :
    (v.claim n).parent = Function.update v.parent n v.current := rfl
@[simp] theorem claim_tssEsp0 (v : ProcView) (n : Nat) : (v.claim n).tssEsp0 = v.tssEsp0 := rfl

/-- Claiming, switching and opening make up `setup_new_process`. -/
theorem openStd_switch_claim (v : ProcView) (n : Nat) :
    ((v.claim n).switch n).openStd = v.alloc n := by
  simp only [openStd, switch, claim, alloc, Function.update_idem]

end ProcView

/-! ## The machine -/

/-- A place in a kernel stack. -/
structure Sp where
  stack : Nat
  depth : Nat
  deriving DecidableEq, Repr

/-- Who is having a process set up. -/
inductive Caller where
  /-- `execute`. -/
  | execute
  /-- `next_task`, for a terminal that has no process yet. -/
  | launch
  /-- `halt`, of a base shell. -/
  | relaunch
  deriving DecidableEq, Repr

/--
Where the processor is. `p` is the process whose PCB `%edi` holds since
`get_current_pcb`, `q` a pid already read from memory.
-/
inductive Pc where
  /-- The `hlt` loop of `entry`. -/
  | idle
  | user
  /-- In a system call other than `execute` and `halt`. -/
  | call
  /-- In `execute`, before `find_free_pcb`. -/
  | exec
  /-- In `find_free_pcb`, about to read PCB `i`. -/
  | find (c : Caller) (p i : Nat)
  /-- `find_free_pcb` returned `n`, which is not yet claimed. -/
  | claim (c : Caller) (p n : Nat)
  /-- PCB `n` is claimed, `switch_context(n)` is next. -/
  | switch (c : Caller) (p n : Nat)
  /-- Past `switch_context`: open the standard files and load the program. -/
  | load (c : Caller) (p : Nat)
  /-- Loaded, about to store `%esp` into the PCB of `p`. -/
  | save (c : Caller) (p : Nat)
  /-- About to `iret` into the program. -/
  | enter (c : Caller)
  | halt
  /-- In `halt`, past `free_current_pcb`. -/
  | freed
  /-- In `halt`, with the parent `q` pushed. -/
  | parent (q : Nat)
  /-- In `halt`, past `switch_context(q)`, still on the old stack. -/
  | left (q : Nat)
  /-- A `ret` out of a system call. -/
  | ret
  /-- In `next_task`, past `switch_context`. -/
  | switched
  /-- In `next_task`, with the address of the PCB of `q` in `%eax`. -/
  | fetched (q : Nat)
  /-- In `next_task`, on the stack of the resumed process. -/
  | resume
  deriving DecidableEq, Repr

/-- What lies on a kernel stack. -/
inductive Frame where
  /-- A timer interrupt: registers and return address of the interrupted code. -/
  | intr (pc : Pc)
  /-- The return address into `syscall`. -/
  | call
  /-- The registers and return address of a system call or an exception. -/
  | trap
  deriving DecidableEq, Repr

/-- The processor, with the memory the three operations share. -/
structure Cpu where
  v : ProcView
  /-- The stack pointer in each PCB; `none` is the zero a new PCB starts with. -/
  esp : Nat → Option Sp
  kstack : Nat → List Frame
  /-- The stack in use. -/
  sp : Nat
  pc : Pc

/-- Interrupts are off from the timer's gate to the `sti` of `switch_context`. -/
def Pc.masked : Pc → Bool
  | .find .launch _ _ => true
  | .claim .launch _ _ => true
  | .switch .launch _ _ => true
  | _ => false

namespace Cpu

/-- `%esp`. -/
def here (m : Cpu) : Sp := ⟨m.sp, (m.kstack m.sp).length⟩

def jump (m : Cpu) (pc : Pc) : Cpu := { m with pc := pc }

def push (m : Cpu) (fs : List Frame) : Cpu :=
  { m with kstack := Function.update m.kstack m.sp (fs ++ m.kstack m.sp) }

/-- `movl %esp, (pcb)`. -/
def saveEsp (m : Cpu) (p : Nat) : Cpu := { m with esp := Function.update m.esp p (some m.here) }

/-- `movl (pcb), %esp`. What lies past the new top is as good as gone. -/
def loadEsp (m : Cpu) (p : Nat) (pc : Pc) : Option Cpu :=
  match m.esp p with
  | none => none
  | some s =>
      let fs := m.kstack s.stack
      if s.depth ≤ fs.length then
        some { m with
          sp := s.stack
          kstack := Function.update m.kstack s.stack (fs.drop (fs.length - s.depth))
          pc := pc }
      else none

/-- Into the kernel from user mode: on the stack `tss.esp0` names, from its base. -/
def trapIn (m : Cpu) (fs : List Frame) : Cpu :=
  let s := (offset8M - m.v.tssEsp0) / offset8K
  { m with sp := s, kstack := Function.update m.kstack s fs }

/-- The processor's part of an interrupt, and `pushal`. -/
def interrupt (m : Cpu) : Cpu :=
  if m.pc = .user then m.trapIn [.intr .user] else m.push [.intr m.pc]

/-- `next_task`, up to the first point at which interrupts are on or a PCB is looked for. -/
def tick (m : Cpu) : Cpu :=
  let m := m.interrupt
  let m := m.saveEsp m.v.current
  let next := m.v.processes (m.v.active + 1)
  let m := { m with v := m.v.enqueue }
  if next = 0 then m.jump (.find .launch m.v.current 1)
  else { m with v := m.v.switch (m.v.processes m.v.active), pc := .switched }

/-- The next piece of whatever the kernel is doing. -/
def run (m : Cpu) : Option Cpu :=
  match m.pc with
  | .idle => none
  | .user => none
  | .call => some (m.jump .ret)
  | .exec => some (m.jump (.find .execute m.v.current 1))
  | .find c p i =>
      if m.v.present i = true ∧ i ≤ maxPid then some (m.jump (.find c p (i + 1)))
      else if i ≤ maxPid then some (m.jump (.claim c p i))
      else if c = .execute then some (m.jump .ret) else none
  | .claim c p n =>
      some { m with v := m.v.claim n, esp := Function.update m.esp n none, pc := .switch c p n }
  | .switch c p n => some { m with v := m.v.switch n, pc := .load c p }
  | .load c p => some { m with v := m.v.openStd, pc := .save c p }
  | .save c p => some ((m.saveEsp p).jump (.enter c))
  | .enter _ => some (m.jump .user)
  | .halt => some { m with v := m.v.release, pc := .freed }
  | .freed =>
      if m.v.current < 4 then some (m.jump (.find .relaunch m.v.current 1))
      else some (m.jump (.parent (m.v.parent m.v.current)))
  | .parent q => some { m with v := m.v.switch q, pc := .left q }
  | .left q => m.loadEsp q .ret
  | .ret =>
      match m.kstack m.sp with
      | .call :: fs => some { m with kstack := Function.update m.kstack m.sp fs, pc := .user }
      | _ => none
  | .switched => some (m.jump (.fetched m.v.current))
  | .fetched q => m.loadEsp q .resume
  | .resume =>
      match m.kstack m.sp with
      | .intr pc :: fs => some { m with kstack := Function.update m.kstack m.sp fs, pc := pc }
      | _ => none

end Cpu

/-- What happens next. -/
inductive Ev where
  /-- A timer interrupt. -/
  | tick
  /-- The program issues the system call. -/
  | execute
  | halt
  | call
  /-- The kernel goes on. -/
  | run
  /-- `execute` fails: before it looks for a PCB, or on an entry address that reads as a failure. -/
  | fail
  /-- A page fault while the program of an `execute` is loaded; its handler calls `halt`. -/
  | fault
  deriving DecidableEq, Repr

namespace Cpu

/-- One event, or nothing if it cannot happen here. -/
def next (m : Cpu) : Ev → Option Cpu
  | .tick => if m.pc.masked then none else some m.tick
  | .execute => if m.pc = .user then some ((m.trapIn [.call, .trap]).jump .exec) else none
  | .halt => if m.pc = .user then some ((m.trapIn [.call, .trap]).jump .halt) else none
  | .call => if m.pc = .user then some ((m.trapIn [.call, .trap]).jump .call) else none
  | .run => m.run
  | .fail =>
      match m.pc with
      | .exec => some (m.jump .ret)
      | .load .execute _ => some (m.jump .ret)
      | _ => none
  | .fault =>
      match m.pc with
      | .load .execute _ => some ((m.push [.call, .trap, .trap]).jump .halt)
      | _ => none

/-- The step relation of the machine. -/
def Step (m : Cpu) (e : Ev) (m' : Cpu) : Prop := m.next e = some m'

/-- The processor in `entry`'s last loop, on the boot stack, which is also stack `0`. -/
def boot (v : ProcView) : Cpu where
  v := { v with tssEsp0 := offset8M }
  esp := fun _ => none
  kstack := fun _ => []
  sp := 0
  pc := .idle

/-- Execute a list of events. -/
def exec (m : Cpu) : List Ev → Option Cpu
  | [] => some m
  | e :: es => (m.next e).bind fun m => m.exec es

/-- What executes is a run. -/
theorem run_exec {m m' : Cpu} {es : List Ev} (h : m.exec es = some m') : Run Step m es m' := by
  induction es generalizing m with
  | nil =>
      cases h
      exact .nil
  | cons e es ih =>
      obtain ⟨m1, h1, h2⟩ := Option.bind_eq_some_iff.mp h
      have hone : Run Step m [e] m1 := Run.one h1
      exact hone.append (ih h2)

theorem exec_append {m : Cpu} {es fs : List Ev} :
    m.exec (es ++ fs) = (m.exec es).bind fun m => m.exec fs := by
  induction es generalizing m with
  | nil => rfl
  | cons e es ih =>
      simp only [List.cons_append, exec]
      cases m.next e with
      | none => rfl
      | some m1 => exact ih

end Cpu

/-! ## Without an interrupt, the pieces are the whole

Each operation of the kernel, run without a tick in between, moves the process
table exactly as the single step of `Kernel/Syscall` does. -/

namespace Cpu

variable {m : Cpu}

/-- The scan, from any PCB up to the first free one. -/
theorem exec_find {c : Caller} {p i n : Nat} (hin : i ≤ n) (hn : n ≤ maxPid)
    (hfree : m.v.present n = false) (hbelow : ∀ j, i ≤ j → j < n → m.v.present j = true) :
    ∃ k, (m.jump (.find c p i)).exec (List.replicate k .run) = some (m.jump (.claim c p n)) := by
  obtain ⟨d, rfl⟩ := Nat.exists_eq_add_of_le hin
  induction d generalizing i with
  | zero =>
      refine ⟨1, ?_⟩
      have hi : ¬ (m.v.present i = true ∧ i ≤ maxPid) := by
        rw [Nat.add_zero] at hfree
        rw [hfree]
        exact fun h => Bool.noConfusion h.1
      simp only [List.replicate, exec, next, run, jump, Nat.add_zero]
      rw [if_neg hi, if_pos (by omega)]
      rfl
  | succ d ih =>
      have hi : m.v.present i = true ∧ i ≤ maxPid := ⟨hbelow i (Nat.le_refl i) (by omega), by omega⟩
      have hstep : (m.jump (.find c p i)).next .run = some (m.jump (.find c p (i + 1))) :=
        if_pos hi
      have he : i + 1 + d = i + (d + 1) := by omega
      obtain ⟨k, hk⟩ := ih (by omega) (by omega) (he ▸ hfree)
        (fun j h1 h2 => hbelow j (by omega) (by omega))
      refine ⟨k + 1, ?_⟩
      rw [List.replicate_succ, exec, hstep, Option.bind_some, hk, he]

/-- A `halt`, up to the test of the pid. -/
theorem exec_halt (hpc : m.pc = .user) (es : List Ev) :
    m.exec (.halt :: .run :: .run :: es) =
      if m.v.current < 4 then
        ({ m.trapIn [.call, .trap] with v := m.v.release }.jump
          (.find .relaunch m.v.current 1)).exec es
      else
        ({ m.trapIn [.call, .trap] with v := m.v.release }.jump
          (.parent (m.v.parent m.v.current))).exec es := by
  have h1 : m.next .halt = some ((m.trapIn [.call, .trap]).jump .halt) := if_pos hpc
  have h2 : m.exec (.halt :: .run :: .run :: es)
      = ({ m.trapIn [.call, .trap] with v := m.v.release, pc := .freed } : Cpu).exec
        (.run :: es) := by
    rw [exec, h1]
    rfl
  rw [h2]
  split
  · rename_i h4
    have h3 : ({ m.trapIn [.call, .trap] with v := m.v.release, pc := .freed } : Cpu).next .run
        = some ({ m.trapIn [.call, .trap] with v := m.v.release }.jump
          (.find .relaunch m.v.current 1)) := if_pos h4
    rw [exec, h3, Option.bind_some]
  · rename_i h4
    have h3 : ({ m.trapIn [.call, .trap] with v := m.v.release, pc := .freed } : Cpu).next .run
        = some ({ m.trapIn [.call, .trap] with v := m.v.release }.jump
          (.parent (m.v.parent m.v.current))) := if_neg h4
    rw [exec, h3, Option.bind_some]

/-- Setting a process up, from the scan to its first instruction. -/
theorem exec_setup {c : Caller} {p n : Nat} (hn : FirstFree m.v.present n) :
    ∃ k m', (m.jump (.find c p 1)).exec (List.replicate k .run) = some m' ∧
      m'.v = m.v.alloc n ∧ m'.pc = .user := by
  obtain ⟨k, hk⟩ := exec_find (c := c) (p := p) hn.1 hn.2.1 hn.2.2.1 hn.2.2.2
  refine ⟨k + 5, { m with
    v := ((m.v.claim n).switch n).openStd
    esp := Function.update (Function.update m.esp n none) p (some m.here)
    pc := .user }, ?_, ProcView.openStd_switch_claim m.v n, rfl⟩
  rw [List.replicate_add, exec_append, hk]
  rfl

end Cpu

/--
**Every operation of the kernel, taken in pieces.** From user mode, with the table
of `k`, one event and some uninterrupted steps lead to the table of `k'`.
-/
theorem procStep_exec {L : Layout} {img : Image} {k k' : Kernel} {a : Act}
    (h : procStep L img k a k') {m : Cpu} (hv : m.v = procs k) (hpc : m.pc = .user) :
    ∃ e n m', m.exec (e :: List.replicate n .run) = some m' ∧ m'.v = procs k' := by
  obtain ⟨mv, _, hmv, happ⟩ := step_move h
  rw [← hv] at hmv happ
  rw [happ]
  have htick : m.next .tick = some m.tick := by simp [Cpu.next, hpc, Pc.masked]
  have hexec : m.next .execute = some ((m.trapIn [.call, .trap]).jump .exec) := if_pos hpc
  have hint : m.interrupt.v = m.v := by simp only [Cpu.interrupt, hpc, if_true]; rfl
  cases mv with
  | refuse =>
      exact ⟨.execute, 0, (m.trapIn [.call, .trap]).jump .exec, by rw [Cpu.exec, hexec]; rfl, rfl⟩
  | exec n =>
      obtain ⟨j, m', hj, hm', _⟩ := Cpu.exec_setup (m := m.trapIn [.call, .trap]) (c := .execute)
        (p := m.v.current) hmv
      refine ⟨.execute, j + 1, m', ?_, hm'⟩
      rw [Cpu.exec, hexec, Option.bind_some, List.replicate_succ, Cpu.exec]
      exact hj
  | resume =>
      refine ⟨.tick, 0, m.tick, ?_, ?_⟩
      · rw [Cpu.exec, htick]; rfl
      · have hne : m.v.processes (m.v.active + 1) ≠ 0 := hmv
        simp only [Cpu.tick, Cpu.saveEsp, hint, if_neg hne, Move.apply, ProcView.enqueue_processes,
          ProcView.enqueue_active, Function.update_of_ne (succ_ne m.v.active)]
  | launch n =>
      obtain ⟨h0, hn⟩ := hmv
      obtain ⟨j, m', hj, hm', _⟩ := Cpu.exec_setup
        (m := { m.interrupt.saveEsp m.v.current with v := m.v.enqueue }) (c := .launch)
        (p := m.v.current) (n := n) hn
      refine ⟨.tick, j, m', ?_, hm'⟩
      rw [Cpu.exec, htick, Option.bind_some, ← hj]
      simp only [Cpu.tick, Cpu.saveEsp, hint, h0, if_true, ProcView.enqueue_current]
  | relaunch n =>
      obtain ⟨h4, hn⟩ := hmv
      obtain ⟨j, m', hj, hm', _⟩ := Cpu.exec_setup
        (m := { m.trapIn [.call, .trap] with v := m.v.release }) (c := .relaunch)
        (p := m.v.current) (n := n) hn
      refine ⟨.halt, j + 2, m', ?_, hm'⟩
      rw [List.replicate_succ, List.replicate_succ, Cpu.exec_halt hpc, if_pos h4]
      exact hj
  | leave =>
      have h4 : ¬ m.v.current < 4 := Nat.not_lt.mpr hmv
      refine ⟨.halt, 3, { m.trapIn [.call, .trap] with
        v := m.v.release.switch (m.v.parent m.v.current), pc := .left (m.v.parent m.v.current) },
        ?_, rfl⟩
      rw [List.replicate_succ, List.replicate_succ, Cpu.exec_halt hpc, if_neg h4]
      rfl

end Zbiggie.Proof
