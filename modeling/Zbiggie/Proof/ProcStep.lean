import Zbiggie.Proof.Execute

/-!
# The kernel as a machine on the process table

`Act` lists what can happen to the process table: a timer tick, an `execute`, a
`halt`. Each is the whole operation, taken as one step of the machine.

`Move` is the same on a `ProcView`, with everything an operation decided made
explicit: which PCB it took, whether it launched, relaunched or returned. The
refinement `step_move` says that every step of the kernel is a move, and is the
only place where the operations' definitions are opened. Results about runs are
then proved on moves.
-/

namespace Zbiggie.Proof

open Zbiggie Machine

/-- What can happen to the process table, with the inputs each operation takes. -/
inductive Act where
  | tick (loc : ExecLocals) (esp : Nat)
  | execute (loc : ExecLocals) (esp : Nat) (ptr : Word) (cmd : List Byte)
  | halt (loc : ExecLocals) (esp : Nat) (ebx : Word)

/-- One operation of the kernel. -/
def procStep (L : Layout) (img : Image) (k : Kernel) (a : Act) (k' : Kernel) : Prop :=
  match a with
  | .tick loc esp => nextTask L img loc esp k = some k'
  | .execute loc esp ptr cmd => ∃ r, Zbiggie.execute L img loc esp ptr cmd k = some (r, k')
  | .halt loc esp ebx => ∃ r, Zbiggie.halt L img loc esp ebx k = some (r, k')

/-- The file "shell" is there, fits its page and has an entry address that is one. -/
def ShellLoads (img : Image) : Prop :=
  ∃ n, BodyFits img n ∧
    ∀ loc, HeaderOf img loc execstring n ∧ ¬ IsFailCode (entryWord img loc n)

/-! ## Moves -/

/-- An operation, with what it decided. -/
inductive Move where
  /-- An `execute` that changed nothing. -/
  | refuse
  /-- An `execute` that took PCB `n`. -/
  | exec (n : Nat)
  /-- A tick that resumed the next terminal's process. -/
  | resume
  /-- A tick that launched the next terminal's base shell in PCB `n`. -/
  | launch (n : Nat)
  /-- A `halt` that launched a base shell in PCB `n`. -/
  | relaunch (n : Nat)
  /-- A `halt` that went back to the parent. -/
  | leave

/-- When a move is possible. -/
def Move.Enabled (v : ProcView) : Move → Prop
  | .refuse => True
  | .exec n => FirstFree v.present n
  | .resume => v.processes (v.active + 1) ≠ 0
  | .launch n => v.processes (v.active + 1) = 0 ∧ FirstFree v.present n
  | .relaunch n => v.current < 4 ∧ FirstFree v.release.present n
  | .leave => 4 ≤ v.current

/-- What a move leaves. -/
def Move.apply (v : ProcView) : Move → ProcView
  | .refuse => v
  | .exec n => v.alloc n
  | .resume => v.enqueue.switch (v.processes (v.active + 1))
  | .launch n => v.enqueue.alloc n
  | .relaunch n => v.release.alloc n
  | .leave => v.release.switch (v.parent v.current)

/-- Which operation makes which move. -/
def Act.Makes : Act → Move → Prop
  | .tick .., .resume => True
  | .tick .., .launch _ => True
  | .execute .., .refuse => True
  | .execute .., .exec _ => True
  | .halt .., .relaunch _ => True
  | .halt .., .leave => True
  | _, _ => False

theorem succ_ne (t : Term) : t + 1 ≠ t := by
  revert t; decide

/-! ## Refinement -/

/-- A launch that returned entered a process in the first free PCB. -/
theorem launched_spec {L : Layout} {img : Image} {loc : ExecLocals} {esp : Nat} {k k' : Kernel}
    (h : launched (launchNewShell L img loc esp k) = some k') :
    ∃ n, FirstFree (procs k).present n ∧ procs k' = (procs k).alloc n := by
  obtain ⟨r, k1, hl, hout⟩ := launchNewShell_spec L img loc esp k
  rw [hl] at h
  generalize hv : procs k1 = v' at hout
  cases hout with
  | missing _ => simp [launched] at h
  | full _ => simp [launched] at h
  | entered _ hfree _ _ =>
      simp only [launched, Option.some.injEq] at h
      subst h
      exact ⟨_, hfree, hv⟩
  | misread _ _ _ _ => simp [launched] at h
  | faulted _ _ _ => simp [launched] at h

/-- With the shell on disk, a launch that has a free PCB goes through. -/
theorem launched_of_free {L : Layout} {img : Image} {k : Kernel} {n : Nat}
    (hshell : ShellLoads img) (hfree : FirstFree (procs k).present n) (loc : ExecLocals)
    (esp : Nat) :
    ∃ k', launched (launchNewShell L img loc esp k) = some k' ∧ procs k' = (procs k).alloc n := by
  obtain ⟨m, hfit, hload⟩ := hshell
  obtain ⟨r, k', hl, hout⟩ := launchNewShell_spec L img loc esp k
  obtain ⟨hv, hr⟩ := hout.of_loads (hload loc).1 hfit hfree
  rw [if_neg (hload loc).2] at hr
  subst hr
  exact ⟨k', by rw [hl]; rfl, hv⟩

/-- The bookkeeping half of `next_task`. -/
theorem procs_tick (esp : Nat) (k : Kernel) :
    procs (incrCurrentActiveProcess (saveEsp k.task.currentProcess esp (saveQueue k)))
      = (procs k).enqueue := by
  have h := procs_saveEsp k.task.currentProcess esp (saveQueue k)
  have h' : procs (incrCurrentActiveProcess (saveEsp k.task.currentProcess esp (saveQueue k)))
      = { procs (saveEsp k.task.currentProcess esp (saveQueue k)) with
          active := k.task.currentActiveProcess + 1 } := rfl
  rw [h', h]
  rfl

/-- `next_task` looks at the slot after the active one, which `save_queue` did not touch. -/
theorem nextTask_eq (L : Layout) (img : Image) (loc : ExecLocals) (esp : Nat) (k : Kernel) :
    nextTask L img loc esp k =
      if (procs k).processes ((procs k).active + 1) = 0 then
        launched (launchNewShell L img loc esp
          (incrCurrentActiveProcess (saveEsp k.task.currentProcess esp (saveQueue k))))
      else
        some (switchContext ((procs k).processes ((procs k).active + 1))
          (incrCurrentActiveProcess (saveEsp k.task.currentProcess esp (saveQueue k)))) := by
  have hnext : getNextTaskPid (saveEsp k.task.currentProcess esp (saveQueue k))
      = (procs k).processes ((procs k).active + 1) :=
    Function.update_of_ne (succ_ne _) _ _
  rw [← hnext]
  rfl

/-- A tick with a process to go on with. -/
theorem tick_resumes {L : Layout} {img : Image} {loc : ExecLocals} {esp : Nat} {k k' : Kernel}
    (hne : (procs k).processes ((procs k).active + 1) ≠ 0)
    (h : nextTask L img loc esp k = some k') :
    k' = switchContext ((procs k).processes ((procs k).active + 1))
        (incrCurrentActiveProcess (saveEsp k.task.currentProcess esp (saveQueue k))) ∧
      procs k' = Move.resume.apply (procs k) := by
  rw [nextTask_eq, if_neg hne] at h
  cases h
  refine ⟨rfl, ?_⟩
  rw [procs_switchContext, procs_tick]
  rfl

/-- A tick that finds an empty slot: what it launches is current afterwards. -/
theorem tick_launches {L : Layout} {img : Image} {loc : ExecLocals} {esp : Nat} {k k' : Kernel}
    (h0 : (procs k).processes ((procs k).active + 1) = 0)
    (h : nextTask L img loc esp k = some k') :
    launched (launchNewShell L img loc esp
        (incrCurrentActiveProcess (saveEsp k.task.currentProcess esp (saveQueue k)))) = some k' ∧
      (Move.launch k'.task.currentProcess).Enabled (procs k) ∧
      procs k' = (Move.launch k'.task.currentProcess).apply (procs k) := by
  rw [nextTask_eq, if_pos h0] at h
  obtain ⟨n, hfree, hv⟩ := launched_spec h
  rw [procs_tick] at hfree hv
  have hcur : k'.task.currentProcess = n := congrArg ProcView.current hv
  rw [hcur]
  exact ⟨h, ⟨h0, hfree⟩, hv⟩

theorem tick_move {L : Layout} {img : Image} {loc : ExecLocals} {esp : Nat} {k k' : Kernel}
    (h : nextTask L img loc esp k = some k') :
    ∃ m, (Act.tick loc esp).Makes m ∧ m.Enabled (procs k) ∧ procs k' = m.apply (procs k) := by
  by_cases h0 : (procs k).processes ((procs k).active + 1) = 0
  · obtain ⟨_, hen, hv⟩ := tick_launches h0 h
    exact ⟨.launch _, trivial, hen, hv⟩
  · exact ⟨.resume, trivial, h0, (tick_resumes h0 h).2⟩

theorem execute_move {L : Layout} {img : Image} {loc : ExecLocals} {esp : Nat} {ptr : Word}
    {cmd : List Byte} {k k' : Kernel} {r : Exec}
    (h : execute L img loc esp ptr cmd k = some (r, k')) :
    ∃ m, (Act.execute loc esp ptr cmd).Makes m ∧ m.Enabled (procs k) ∧
      procs k' = m.apply (procs k) := by
  rcases execute_spec L img loc esp ptr cmd k with ⟨_, hex⟩ | ⟨_, r', k'', hex, hout⟩
  · rw [h] at hex
    cases hex
    exact ⟨.refuse, trivial, trivial, rfl⟩
  · rw [h] at hex
    cases hex
    generalize hv : procs k' = v' at hout
    cases hout with
    | missing _ => exact ⟨.refuse, trivial, trivial, rfl⟩
    | full _ => exact ⟨.refuse, trivial, trivial, rfl⟩
    | entered _ hfree _ _ => exact ⟨.exec _, trivial, hfree, rfl⟩
    | misread _ hfree _ _ => exact ⟨.exec _, trivial, hfree, rfl⟩
    | faulted _ hfree _ => exact ⟨.exec _, trivial, hfree, rfl⟩

/-- `halt` after `free_current_pcb`, on the view. -/
theorem halt_eq (L : Layout) (img : Image) (loc : ExecLocals) (esp : Nat) (ebx : Word)
    (k : Kernel) :
    halt L img loc esp ebx k =
      if (procs k).current < 4 then
        (launched (launchNewShell L img loc esp (freeCurrentPcb k))).map
          (fun k => (.relaunched, k))
      else
        some (.returned ebx ((switchContext ((procs k).parent (procs k).current)
            (freeCurrentPcb k)).task.pcb ((procs k).parent (procs k).current)).esp,
          switchContext ((procs k).parent (procs k).current) (freeCurrentPcb k)) := by
  have hp := procs_freeCurrentPcb k
  have hcur : (freeCurrentPcb k).task.currentProcess = (procs k).current :=
    congrArg ProcView.current hp
  have hpar : (freeCurrentPcb k).currentPcb.parent = (procs k).parent (procs k).current := by
    show (procs (freeCurrentPcb k)).parent (freeCurrentPcb k).task.currentProcess = _
    rw [hcur, hp]
    rfl
  simp only [halt, hcur, hpar]

/-- A `halt` that relaunched: only a base shell does, and what it launches is current. -/
theorem halt_relaunched {L : Layout} {img : Image} {loc : ExecLocals} {esp : Nat} {ebx : Word}
    {k k' : Kernel} (h : halt L img loc esp ebx k = some (.relaunched, k')) :
    launched (launchNewShell L img loc esp (freeCurrentPcb k)) = some k' ∧
      (Move.relaunch k'.task.currentProcess).Enabled (procs k) ∧
      procs k' = (Move.relaunch k'.task.currentProcess).apply (procs k) := by
  rw [halt_eq] at h
  split at h
  · rename_i hlt
    obtain ⟨k1, hl, hk⟩ := Option.map_eq_some_iff.mp h
    cases hk
    obtain ⟨n, hfree, hv⟩ := launched_spec hl
    rw [procs_freeCurrentPcb] at hfree hv
    have hcur : k'.task.currentProcess = n := congrArg ProcView.current hv
    rw [hcur]
    exact ⟨hl, ⟨hlt, hfree⟩, hv⟩
  · cases h

/-- A `halt` that returned, to the parent. -/
theorem halt_returned {L : Layout} {img : Image} {loc : ExecLocals} {esp : Nat} {ebx eax : Word}
    {esp' : Nat} {k k' : Kernel} (h : halt L img loc esp ebx k = some (.returned eax esp', k')) :
    k' = switchContext ((procs k).parent (procs k).current) (freeCurrentPcb k) ∧
      Move.leave.Enabled (procs k) ∧ procs k' = Move.leave.apply (procs k) := by
  rw [halt_eq] at h
  split at h
  · obtain ⟨_, _, hk⟩ := Option.map_eq_some_iff.mp h
    cases hk
  · rename_i hge
    cases h
    refine ⟨rfl, Nat.le_of_not_lt hge, ?_⟩
    rw [procs_switchContext, procs_freeCurrentPcb]
    rfl

theorem halt_move {L : Layout} {img : Image} {loc : ExecLocals} {esp : Nat} {ebx : Word}
    {k k' : Kernel} {r : Halted} (h : halt L img loc esp ebx k = some (r, k')) :
    ∃ m, (Act.halt loc esp ebx).Makes m ∧ m.Enabled (procs k) ∧ procs k' = m.apply (procs k) := by
  cases r with
  | relaunched =>
      obtain ⟨_, hen, hv⟩ := halt_relaunched h
      exact ⟨.relaunch _, trivial, hen, hv⟩
  | returned eax esp' =>
      obtain ⟨_, hen, hv⟩ := halt_returned h
      exact ⟨.leave, trivial, hen, hv⟩

/-- **Refinement.** Every step of the kernel is a move on its process table. -/
theorem step_move {L : Layout} {img : Image} {k k' : Kernel} {a : Act}
    (h : procStep L img k a k') :
    ∃ m, a.Makes m ∧ m.Enabled (procs k) ∧ procs k' = m.apply (procs k) := by
  cases a with
  | tick loc esp => exact tick_move h
  | execute loc esp ptr cmd => obtain ⟨r, h⟩ := h; exact execute_move h
  | halt loc esp ebx => obtain ⟨r, h⟩ := h; exact halt_move h

end Zbiggie.Proof
