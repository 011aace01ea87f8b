import Zbiggie.Proof.BaseShell

/-!
# What an `execute` is answered

An `execute` that starts a process does not return. It leaves its stack pointer in
the PCB of the caller, and the `halt` of the new process takes it from there, puts
`%ebx` into `%eax` and returns in the caller's place. Which `execute` is waiting for
which process is nowhere recorded except in that field, so the record is kept here
as ghost state: for each pid the caller and the stack pointer it left.

The field survives whatever the new process and its descendants do, because a stack
pointer is only ever saved into the PCB of the running process, and a process that
waits for another is not running. So the answer always arrives where it is waited
for. What arrives is the whole of `%ebx`: the `halt` contract asks for its low byte.
-/

namespace Zbiggie.Proof

open Zbiggie Machine

/-! ## The saved stack pointers -/

/-- The stack pointer in the PCB of `p`. -/
def savedEsp (k : Kernel) (p : Nat) : Nat := (k.task.pcb p).esp

theorem savedEsp_saveEsp (q esp : Nat) (k : Kernel) :
    savedEsp (saveEsp q esp k) = Function.update (savedEsp k) q esp := by
  funext p
  by_cases hp : p = q
  · subst hp
    simp [savedEsp, saveEsp]
  · simp [savedEsp, saveEsp, hp]

/-- The bookkeeping half of `next_task`. -/
theorem savedEsp_tick (esp : Nat) (k : Kernel) {p : Nat} (hp : p ≠ k.task.currentProcess) :
    savedEsp (incrCurrentActiveProcess (saveEsp k.task.currentProcess esp (saveQueue k))) p
      = savedEsp k p := by
  have h := congrFun (savedEsp_saveEsp k.task.currentProcess esp (saveQueue k)) p
  rw [Function.update_of_ne hp] at h
  exact h

theorem savedEsp_newProcess (L : Layout) (n : Nat) (k : Kernel) {p : Nat} (hp : p ≠ n) :
    savedEsp (newProcess L n k) p = savedEsp k p := by
  show (Function.update k.task.pcb n _ p).esp = _
  rw [Function.update_of_ne hp]
  rfl

theorem savedEsp_freeCurrentPcb (k : Kernel) : savedEsp (freeCurrentPcb k) = savedEsp k := by
  funext p
  unfold freeCurrentPcb
  rw [closeLoop_spec k maxFiles (by simp [maxFiles])]
  by_cases hp : p = k.task.currentProcess
  · subst hp
    simp [savedEsp, Kernel.currentPcb]
  · simp [savedEsp, hp]

section Loading

variable {L : Layout} {img : Image} {loc : ExecLocals} {esp : Nat} {cmd : List Byte} {k k' : Kernel}

/-- Loading a program saves no stack pointer. -/
theorem loadBody_savedEsp {f : File} {buf args : Mem} {r : Loaded}
    (h : loadBody img loc f buf args k = some (r, k')) :
    savedEsp k' = savedEsp k ∧ k'.task.currentProcess = k.task.currentProcess := by
  unfold loadBody at h
  dsimp only at h
  split at h
  · cases h
  · split at h
    · cases h
      exact ⟨rfl, rfl⟩
    · cases h
      refine ⟨funext ?_, rfl⟩
      intro p
      by_cases hp : p = k.task.currentProcess
      · subst hp
        simp [savedEsp]
      · simp [savedEsp, hp]

theorem kload_savedEsp {r : Loaded} (h : kloadExecToMem L img loc cmd k = some (r, k')) {p : Nat}
    (hp : p ≠ k'.task.currentProcess) : savedEsp k' p = savedEsp k p := by
  unfold kloadExecToMem at h
  split at h
  · cases h
  · cases h
    rfl
  · rw [setupNewProcess_eq] at h
    cases hfree : findFreePcb k with
    | none =>
        rw [hfree] at h
        cases h
        rfl
    | some n =>
        rw [hfree] at h
        obtain ⟨he, hcur⟩ := loadBody_savedEsp h
        -- the process just set up is the one that is left running
        have hn : p ≠ n := fun hpn => hp (hpn.trans hcur.symm)
        rw [he, savedEsp_newProcess L n k hn]

/-- What `execute` and `kexecute` save: the caller's stack pointer, if the program is entered. -/
theorem enter_savedEsp {caller : Nat} {r : Exec}
    (h : enter caller esp (kloadExecToMem L img loc cmd k) = some (r, k')) :
    (∀ p, p ≠ caller → p ≠ k'.task.currentProcess → savedEsp k' p = savedEsp k p) ∧
      ∀ entry, r = .entered entry → savedEsp k' caller = esp := by
  cases hl : kloadExecToMem L img loc cmd k with
  | none =>
      rw [hl] at h
      cases h
  | some lk =>
      obtain ⟨l, k1⟩ := lk
      rw [hl] at h
      cases l with
      | faulted =>
          cases h
          exact ⟨fun p _ hp => kload_savedEsp hl hp, fun _ hr => Exec.noConfusion hr⟩
      | returned v =>
          simp only [enter] at h
          split at h
          · cases h
            exact ⟨fun p _ hp => kload_savedEsp hl hp, fun _ hr => Exec.noConfusion hr⟩
          · split at h
            · cases h
              exact ⟨fun p _ hp => kload_savedEsp hl hp, fun _ hr => Exec.noConfusion hr⟩
            · cases h
              refine ⟨?_, fun _ _ => ?_⟩
              · intro p hc hp
                rw [savedEsp_saveEsp, Function.update_of_ne hc]
                exact kload_savedEsp hl hp
              · rw [savedEsp_saveEsp, Function.update_self]

theorem execute_savedEsp {ptr : Word} {r : Exec}
    (h : execute L img loc esp ptr cmd k = some (r, k')) :
    (∀ p, p ≠ k.task.currentProcess → p ≠ k'.task.currentProcess →
        savedEsp k' p = savedEsp k p) ∧
      ∀ entry, r = .entered entry → savedEsp k' k.task.currentProcess = esp := by
  unfold execute loadExecToMem at h
  split at h
  · cases h
    exact ⟨fun _ _ _ => rfl, nofun⟩
  · obtain ⟨hframe, hsaved⟩ := enter_savedEsp h
    exact ⟨hframe, hsaved⟩

theorem launched_savedEsp (h : launched (launchNewShell L img loc esp k) = some k') {p : Nat}
    (hc : p ≠ k.task.currentProcess) (hp : p ≠ k'.task.currentProcess) :
    savedEsp k' p = savedEsp k p := by
  cases hl : launchNewShell L img loc esp k with
  | none =>
      rw [hl] at h
      cases h
  | some rk =>
      obtain ⟨r, k1⟩ := rk
      rw [hl] at h
      cases r with
      | entered entry =>
          cases h
          exact (enter_savedEsp hl).1 p hc hp
      | failed => cases h
      | faulted => cases h

end Loading

/-! ## The record -/

/-- An `execute` that waits: whose it is, and the stack pointer it left. -/
structure Waiter where
  caller : Nat
  esp : Nat

/-- The kernel, and the `execute` that waits for each process. -/
structure Calls where
  kernel : Kernel
  pending : Nat → Option Waiter

/--
One operation, with the record of what it started. Only a process can call
`execute` or `halt`. A process that was set up and not entered has nobody waiting
for it: its `execute` was answered, or never gets to save a stack pointer.
-/
inductive CallStep (L : Layout) (img : Image) : Calls → Act → Calls → Prop where
  | resume {g : Calls} {loc : ExecLocals} {esp : Nat} {k' : Kernel} :
      g.kernel.task.processes (g.kernel.task.currentActiveProcess + 1) ≠ 0 →
      nextTask L img loc esp g.kernel = some k' →
      CallStep L img g (.tick loc esp) ⟨k', g.pending⟩
  | launch {g : Calls} {loc : ExecLocals} {esp : Nat} {k' : Kernel} :
      g.kernel.task.processes (g.kernel.task.currentActiveProcess + 1) = 0 →
      nextTask L img loc esp g.kernel = some k' →
      CallStep L img g (.tick loc esp)
        ⟨k', Function.update g.pending k'.task.currentProcess none⟩
  | exec {g : Calls} {loc : ExecLocals} {esp : Nat} {ptr : Word} {cmd : List Byte} {k' : Kernel}
      {entry : Word} :
      g.kernel.task.currentProcess ≠ 0 →
      execute L img loc esp ptr cmd g.kernel = some (.entered entry, k') →
      CallStep L img g (.execute loc esp ptr cmd)
        ⟨k', Function.update g.pending k'.task.currentProcess
          (some ⟨g.kernel.task.currentProcess, esp⟩)⟩
  | refuse {g : Calls} {loc : ExecLocals} {esp : Nat} {ptr : Word} {cmd : List Byte} {r : Exec}
      {k' : Kernel} :
      g.kernel.task.currentProcess ≠ 0 → (∀ entry, r ≠ .entered entry) →
      execute L img loc esp ptr cmd g.kernel = some (r, k') → procs k' = procs g.kernel →
      CallStep L img g (.execute loc esp ptr cmd) ⟨k', g.pending⟩
  | stillborn {g : Calls} {loc : ExecLocals} {esp : Nat} {ptr : Word} {cmd : List Byte} {r : Exec}
      {k' : Kernel} :
      g.kernel.task.currentProcess ≠ 0 → (∀ entry, r ≠ .entered entry) →
      execute L img loc esp ptr cmd g.kernel = some (r, k') → procs k' ≠ procs g.kernel →
      CallStep L img g (.execute loc esp ptr cmd)
        ⟨k', Function.update g.pending k'.task.currentProcess none⟩
  | relaunch {g : Calls} {loc : ExecLocals} {esp : Nat} {ebx : Word} {k' : Kernel} :
      g.kernel.task.currentProcess ≠ 0 →
      halt L img loc esp ebx g.kernel = some (.relaunched, k') →
      CallStep L img g (.halt loc esp ebx)
        ⟨k', Function.update g.pending k'.task.currentProcess none⟩
  | leave {g : Calls} {loc : ExecLocals} {esp : Nat} {ebx eax : Word} {esp' : Nat} {k' : Kernel} :
      g.kernel.task.currentProcess ≠ 0 →
      halt L img loc esp ebx g.kernel = some (.returned eax esp', k') →
      CallStep L img g (.halt loc esp ebx) ⟨k', g.pending⟩

/-- The PCB a move takes. -/
def Move.takes : Move → Option Nat
  | .exec n => some n
  | .launch n => some n
  | .relaunch n => some n
  | _ => none

/-- What a step does to the table, the saved stack pointers and the record. -/
structure Records (g : Calls) (a : Act) (g' : Calls) (m : Move) : Prop where
  makes : a.Makes m
  enabled : m.Enabled (procs g.kernel)
  table : procs g'.kernel = m.apply (procs g.kernel)
  /-- A stack pointer changes in the PCB of the running process, and in one just taken. -/
  saved : ∀ p, p ≠ (procs g.kernel).current → m.takes ≠ some p →
    savedEsp g'.kernel p = savedEsp g.kernel p
  /-- A record is an old one, of a process that stays, or is made by an `execute`. -/
  pending : ∀ p c, g'.pending p = some c →
    (m.takes ≠ some p ∧ g.pending p = some c) ∨
      (m = .exec p ∧ c.caller = (procs g.kernel).current ∧ savedEsp g'.kernel c.caller = c.esp)
  /-- The boot context neither executes nor halts. -/
  process : (∃ loc esp, a = .tick loc esp) ∨ (procs g.kernel).current ≠ 0
  /-- A PCB is taken for an `execute` only from an accepted pointer. -/
  pointer : ∀ n, m = .exec n → ∃ loc esp ptr cmd, a = .execute loc esp ptr cmd ∧
    usrPtrOk ptr (BitVec.ofNat 32 cmd.length) ≠ 0

/-- Dropping the record of the PCB that was taken. -/
theorem pending_drop {pending : Nat → Option Waiter} {n p : Nat} {c : Waiter}
    (h : Function.update pending n none p = some c) : some n ≠ some p ∧ pending p = some c := by
  by_cases hp : p = n
  · subst hp
    rw [Function.update_self] at h
    cases h
  · rw [Function.update_of_ne hp] at h
    exact ⟨fun he => hp (Option.some.inj he).symm, h⟩

/-- Which PCB an `execute` takes, if it takes one. -/
theorem execute_takes {L : Layout} {img : Image} {loc : ExecLocals} {esp : Nat} {ptr : Word}
    {cmd : List Byte} {k k' : Kernel} {r : Exec}
    (h : execute L img loc esp ptr cmd k = some (r, k')) :
    (procs k' = procs k ∧ ∀ entry, r ≠ .entered entry) ∨
      (usrPtrOk ptr (BitVec.ofNat 32 cmd.length) ≠ 0 ∧
        FirstFree (procs k).present k'.task.currentProcess ∧
        procs k' = (procs k).alloc k'.task.currentProcess) := by
  rcases execute_spec L img loc esp ptr cmd k with ⟨_, hex⟩ | ⟨hptr, r', k'', hex, hout⟩
  · rw [h] at hex
    cases hex
    exact .inl ⟨rfl, nofun⟩
  · rw [h] at hex
    cases hex
    have htaken : ∀ n, FirstFree (procs k).present n → procs k' = (procs k).alloc n →
        FirstFree (procs k).present k'.task.currentProcess ∧
          procs k' = (procs k).alloc k'.task.currentProcess := by
      intro n hfree hv
      have hcur : k'.task.currentProcess = n := congrArg ProcView.current hv
      rw [hcur]
      exact ⟨hfree, hv⟩
    generalize hv : procs k' = v' at hout
    rw [← hv]
    cases hout with
    | missing _ => exact .inl ⟨hv, nofun⟩
    | full _ => exact .inl ⟨hv, nofun⟩
    | entered _ hfree _ _ => exact .inr ⟨hptr, htaken _ hfree hv⟩
    | misread _ hfree _ _ => exact .inr ⟨hptr, htaken _ hfree hv⟩
    | faulted _ hfree _ => exact .inr ⟨hptr, htaken _ hfree hv⟩

section Steps

variable {L : Layout} {img : Image} {g g' : Calls} {a : Act}

/-- A move that takes PCB `n` takes no other. -/
theorem ne_of_takes {n p : Nat} (h : some n ≠ some p) : p ≠ n := by
  intro he
  exact h (congrArg some he.symm)

theorem callStep_records (hs : CallStep L img g a g') : ∃ m, Records g a g' m := by
  cases hs with
  | @resume loc esp k' hne hk =>
      obtain ⟨he, hv⟩ := tick_resumes hne hk
      refine ⟨.resume, trivial, hne, hv, ?_, fun p c hc => .inl ⟨nofun, hc⟩,
        .inl ⟨_, _, rfl⟩, nofun⟩
      intro p hp _
      rw [he]
      exact savedEsp_tick esp g.kernel hp
  | @launch loc esp k' h0 hk =>
      obtain ⟨hl, hen, hv⟩ := tick_launches h0 hk
      refine ⟨.launch k'.task.currentProcess, trivial, hen, hv, ?_,
        fun p c hc => .inl (pending_drop hc), .inl ⟨_, _, rfl⟩, nofun⟩
      intro p hp hn
      rw [launched_savedEsp hl hp (ne_of_takes hn)]
      exact savedEsp_tick esp g.kernel hp
  | @exec loc esp ptr cmd k' entry hp hk =>
      obtain ⟨hframe, hsaved⟩ := execute_savedEsp hk
      rcases execute_takes hk with ⟨_, hno⟩ | ⟨hptr, hfree, hv⟩
      · exact absurd rfl (hno entry)
      · refine ⟨.exec k'.task.currentProcess, trivial, hfree, hv,
          fun p hpc hn => hframe p hpc (ne_of_takes hn), ?_, .inr hp,
          fun _ _ => ⟨loc, esp, ptr, cmd, rfl, hptr⟩⟩
        intro p c hc
        -- the record of the process entered is this call's, any other an old one
        dsimp only at hc
        by_cases hpn : p = k'.task.currentProcess
        · subst hpn
          rw [Function.update_self] at hc
          cases hc
          exact .inr ⟨rfl, rfl, hsaved entry rfl⟩
        · rw [Function.update_of_ne hpn] at hc
          exact .inl ⟨fun he => hpn (Option.some.inj he).symm, hc⟩
  | @refuse loc esp ptr cmd r k' hp hr hk hsame =>
      obtain ⟨hframe, _⟩ := execute_savedEsp hk
      have hcur : k'.task.currentProcess = g.kernel.task.currentProcess :=
        congrArg ProcView.current hsame
      exact ⟨.refuse, trivial, trivial, hsame, fun p hpc _ => hframe p hpc (hcur ▸ hpc),
        fun p c hc => .inl ⟨nofun, hc⟩, .inr hp, nofun⟩
  | @stillborn loc esp ptr cmd r k' hp hr hk hdiff =>
      obtain ⟨hframe, _⟩ := execute_savedEsp hk
      rcases execute_takes hk with ⟨hv, _⟩ | ⟨hptr, hfree, hv⟩
      · exact absurd hv hdiff
      · exact ⟨.exec k'.task.currentProcess, trivial, hfree, hv,
          fun p hpc hn => hframe p hpc (ne_of_takes hn),
          fun p c hc => .inl (pending_drop hc), .inr hp,
          fun _ _ => ⟨loc, esp, ptr, cmd, rfl, hptr⟩⟩
  | @relaunch loc esp ebx k' hp hk =>
      obtain ⟨hl, hen, hv⟩ := halt_relaunched hk
      refine ⟨.relaunch k'.task.currentProcess, trivial, hen, hv, ?_,
        fun p c hc => .inl (pending_drop hc), .inr hp, nofun⟩
      intro p hpc hn
      have hfree : (freeCurrentPcb g.kernel).task.currentProcess = (procs g.kernel).current :=
        congrArg ProcView.current (procs_freeCurrentPcb g.kernel)
      rw [launched_savedEsp hl (by rw [hfree]; exact hpc) (ne_of_takes hn),
        savedEsp_freeCurrentPcb]
  | @leave loc esp ebx eax esp' k' hp hk =>
      obtain ⟨he, hen, hv⟩ := halt_returned hk
      refine ⟨.leave, trivial, hen, hv, ?_, fun p c hc => .inl ⟨nofun, hc⟩, .inr hp, nofun⟩
      intro p _ _
      rw [he]
      exact congrFun (savedEsp_freeCurrentPcb g.kernel) p

/-! ## Runs -/

/-- A PCB is taken for an `execute` only when all three terminals have a process. -/
def Calls.Timely (g : Calls) : Act → Prop
  | .execute _ _ ptr cmd => usrPtrOk ptr (BitVec.ofNat 32 cmd.length) ≠ 0 →
      ∀ t, queued (procs g.kernel) t ≠ 0
  | _ => True

/-- What the record says of the kernel. -/
structure PendingInv (g : Calls) : Prop where
  staged : Staged (procs g.kernel)
  /-- Nobody waits for a base pid. -/
  executed : ∀ p c, g.pending p = some c → 4 ≤ p
  /-- The caller is the parent, and its stack pointer is where it left it. -/
  waiting : ∀ p c, (procs g.kernel).present p = true → g.pending p = some c →
    (procs g.kernel).parent p = c.caller ∧ savedEsp g.kernel c.caller = c.esp

/-- A process that stays is not new. -/
theorem Move.present_of {v : ProcView} {m : Move} {p : Nat} (h : (m.apply v).present p = true)
    (hp : m.takes ≠ some p) : v.present p = true ∧ (m.apply v).parent p = v.parent p := by
  have hne : ∀ n, m.takes = some n → p ≠ n := by
    intro n hn he
    exact hp (he ▸ hn)
  have hrel : v.release.present p = true → v.present p = true := by
    intro hr
    by_cases hpc : p = v.current
    · subst hpc
      rw [ProcView.release_present, Function.update_self] at hr
      cases hr
    · rwa [ProcView.release_present, Function.update_of_ne hpc] at hr
  cases m with
  | refuse => exact ⟨h, rfl⟩
  | resume => exact ⟨h, rfl⟩
  | leave => exact ⟨hrel h, rfl⟩
  | exec n =>
      have hpn := hne n rfl
      exact ⟨by rwa [Move.apply, ProcView.alloc_present, Function.update_of_ne hpn] at h,
        Function.update_of_ne hpn _ _⟩
  | launch n =>
      have hpn := hne n rfl
      exact ⟨by rwa [Move.apply, ProcView.alloc_present, Function.update_of_ne hpn] at h,
        Function.update_of_ne hpn _ _⟩
  | relaunch n =>
      have hpn := hne n rfl
      refine ⟨hrel ?_, Function.update_of_ne hpn _ _⟩
      rwa [Move.apply, ProcView.alloc_present, Function.update_of_ne hpn] at h

/-- The stages, under a step that comes in time. -/
theorem Records.staged {m : Move} (r : Records g a g' m) (htime : g.Timely a)
    (h : Staged (procs g.kernel)) : Staged (procs g'.kernel) := by
  rw [r.table]
  rcases h with ⟨j, hj⟩ | hv
  · refine hj.staged r.enabled ?_ ?_
    · intro n hn
      obtain ⟨loc, esp, ptr, cmd, rfl, hptr⟩ := r.pointer n hn
      exact htime hptr _ hj.some_queued_zero
    · rcases r.process with ⟨loc, esp, rfl⟩ | hcur
      · exact .inl ⟨_, hj.tick r.enabled r.makes⟩
      · exact .inr (.inr hcur)
  · exact .inr (procInv_move hv r.enabled)

/-- An `execute` that comes in time finds the three chains. -/
theorem Records.chains {m : Move} {n : Nat} (r : Records g a g' m) (hm : m = .exec n)
    (htime : g.Timely a) (h : Staged (procs g.kernel)) : ∃ c, Chains (procs g.kernel) c := by
  rcases h with ⟨j, hj⟩ | hv
  · obtain ⟨loc, esp, ptr, cmd, rfl, hptr⟩ := r.pointer n hm
    exact absurd hj.some_queued_zero (htime hptr _)
  · exact hv

/-- With three chains, the PCB of a process that waits is not written by the next move. -/
theorem Chains.parent_kept {v : ProcView} {c : Term → List Nat} {m : Move} {p : Nat}
    (h : Chains v c) (hm : m.Enabled v) (hp : v.present p = true) (h4 : 4 ≤ p) :
    v.parent p ≠ v.current ∧ m.takes ≠ some (v.parent p) := by
  obtain ⟨hpres, hcur⟩ := h.parent_present hp h4
  refine ⟨hcur, ?_⟩
  intro ht
  cases m with
  | exec n =>
      cases ht
      have hfree := hm.2.2.1
      rw [hpres] at hfree
      cases hfree
  | launch n => exact h.next_ne_zero hm.1
  | relaunch n =>
      cases ht
      exact hcur ((h.relaunch_same hm.1).mp hm.2)
  | refuse => cases ht
  | resume => cases ht
  | leave => cases ht

theorem pendingInv_step (hs : CallStep L img g a g') (htime : g.Timely a) (h : PendingInv g) :
    PendingInv g' := by
  obtain ⟨m, r⟩ := callStep_records hs
  refine ⟨r.staged htime h.staged, ?_, ?_⟩
  · intro p c hc
    rcases r.pending p c hc with ⟨_, hold⟩ | ⟨hm, _, _⟩
    · exact h.executed p c hold
    · obtain ⟨ch, hch⟩ := r.chains hm htime h.staged
      have hfree : FirstFree (procs g.kernel).present p := by
        have := r.enabled
        rwa [hm] at this
      exact (hch.firstFree_not_mem hfree).1
  · intro p c hp hc
    rw [r.table] at hp ⊢
    rcases r.pending p c hc with ⟨hne, hold⟩ | ⟨hm, hcaller, hesp⟩
    · -- an old record: neither its process nor its caller is the one the move is about
      have h4 := h.executed p c hold
      obtain ⟨hpres, hpar⟩ := Move.present_of hp hne
      obtain ⟨hw, hesp⟩ := h.waiting p c hpres hold
      rcases h.staged with ⟨j, hj⟩ | ⟨ch, hch⟩
      · have := (hj.present p).mp hpres
        omega
      · obtain ⟨hcur, htake⟩ := hch.parent_kept r.enabled hpres h4
        rw [hw] at hcur htake
        exact ⟨hpar.trans hw, (r.saved c.caller hcur htake).trans hesp⟩
    · subst hm
      refine ⟨?_, hesp⟩
      rw [hcaller]
      exact Function.update_self ..

end Steps

theorem pendingInv_boot {k : Kernel} (h : Starting 0 (procs k)) :
    PendingInv ⟨k, fun _ => none⟩ where
  staged := .inl ⟨0, h⟩
  executed := nofun
  waiting := nofun

theorem pendingInv_run {L : Layout} {img : Image} {k : Kernel} (h : Starting 0 (procs k))
    {as : List Act} {g : Calls}
    (hrun : Run (Guarded (CallStep L img) Calls.Timely) ⟨k, fun _ => none⟩ as g) :
    PendingInv g := by
  refine Run.invariant (pendingInv_boot h) ?_ hrun
  intro s a s' hs hi
  exact pendingInv_step hs.2 hs.1 hi

/-! ## Answers -/

/-- `USER_EXCEPT_CODE`. -/
def userExceptCode : Word := 256

/-- How a process comes to its `halt`. -/
inductive Ending where
  /-- By its own call, with this in `%ebx`. -/
  | status (v : Word)
  /-- By an exception, whose handler calls `ece391_halt(USER_EXCEPT_CODE)`. -/
  | exception

/-- What `halt` finds in `%ebx`. -/
def Ending.ebx : Ending → Word
  | .status v => v
  | .exception => userExceptCode

/-- What the contract of `halt` has the caller told: of a status, the low byte. -/
def Ending.told : Ending → Word
  | .status v => v &&& 0xFF
  | .exception => userExceptCode

/-- A `halt` with `ebx` ends the waiting `execute` with `eax`, in the context it left. -/
def Answers (L : Layout) (img : Image) (k : Kernel) (ebx : Word) (c : Waiter) (eax : Word) : Prop :=
  ∀ loc esp, ∃ k', halt L img loc esp ebx k = some (.returned eax c.esp, k') ∧
    k'.task.currentProcess = c.caller

theorem Answers.unique {L : Layout} {img : Image} {k : Kernel} {ebx eax eax' : Word} {c : Waiter}
    (h : Answers L img k ebx c eax) (h' : Answers L img k ebx c eax') : eax = eax' := by
  obtain ⟨k1, h1, _⟩ := h someLocals 0
  obtain ⟨k2, h2, _⟩ := h' someLocals 0
  rw [h1] at h2
  cases h2
  rfl

/-- The answer is the one of the contract, and tells the endings apart. -/
structure AsPromised (L : Layout) (img : Image) (k : Kernel) (c : Waiter) (e : Ending) : Prop where
  told : Answers L img k e.ebx c e.told
  /-- `256` stands for an exception, `0` to `255` for a status; `-1` is no answer at all. -/
  kind : ∀ eax, Answers L img k e.ebx c eax →
    (eax = userExceptCode ↔ e = .exception) ∧ (eax.toNat ≤ 255 ↔ e ≠ .exception) ∧ eax ≠ -1

/-- **The answer arrives.** Whatever is in `%ebx` comes out of the `execute` that waits. -/
theorem PendingInv.answers {g : Calls} (h : PendingInv g) {c : Waiter}
    (hc : g.pending g.kernel.task.currentProcess = some c) (L : Layout) (img : Image) (ebx : Word) :
    Answers L img g.kernel ebx c ebx := by
  have h4 : 4 ≤ (procs g.kernel).current := h.executed _ c hc
  have hpres : (procs g.kernel).present (procs g.kernel).current = true := by
    rcases h.staged with ⟨j, hj⟩ | ⟨ch, hch⟩
    · have := hj.current
      omega
    · exact hch.current_present
  obtain ⟨hpar, hesp⟩ := h.waiting _ c hpres hc
  intro loc esp
  refine ⟨switchContext c.caller (freeCurrentPcb g.kernel), ?_, rfl⟩
  rw [halt_eq, if_neg (Nat.not_lt.mpr h4), hpar]
  have hsaved :
      ((switchContext c.caller (freeCurrentPcb g.kernel)).task.pcb c.caller).esp = c.esp := by
    rw [← hesp, ← savedEsp_freeCurrentPcb g.kernel]
    rfl
  rw [hsaved]

theorem toNat_and_low (v : Word) : (v &&& 0xFF).toNat = v.toNat % 256 := by
  rw [BitVec.toNat_and]
  exact Nat.and_two_pow_sub_one_eq_mod v.toNat 8

/-- The low byte of a word is the word, if it is one byte. -/
theorem and_low_eq_iff (v : Word) : v &&& 0xFF = v ↔ v.toNat ≤ 255 := by
  rw [← BitVec.toNat_inj, toNat_and_low]
  omega

theorem PendingInv.asPromised_iff {g : Calls} (h : PendingInv g) {c : Waiter}
    (hc : g.pending g.kernel.task.currentProcess = some c) (L : Layout) (img : Image) (e : Ending) :
    AsPromised L img g.kernel c e ↔ ∀ v, e = .status v → v.toNat ≤ 255 := by
  have hans := h.answers hc L img e.ebx
  constructor
  · intro hp v hv
    subst hv
    exact (and_low_eq_iff v).mp (hp.told.unique hans)
  · intro hlow
    cases e with
    | exception =>
        refine ⟨hans, ?_⟩
        intro eax heax
        rw [heax.unique hans]
        exact ⟨iff_of_true rfl rfl, iff_of_false (by decide) (fun hne => hne rfl), by decide⟩
    | status v =>
        have hv := hlow v rfl
        refine ⟨?_, ?_⟩
        · rw [Ending.told, (and_low_eq_iff v).mpr hv]
          exact hans
        · intro eax heax
          rw [heax.unique hans]
          refine ⟨iff_of_false ?_ nofun, iff_of_true hv nofun, ?_⟩
          · intro he
            have h256 : v.toNat = 256 := congrArg BitVec.toNat he
            omega
          · intro he
            have hmax : v.toNat = 4294967295 := congrArg BitVec.toNat he
            omega

/-- `execute` itself answers `-1` only if there was nothing to start, or nowhere. -/
theorem execute_failed {L : Layout} {img : Image} {loc : ExecLocals} {esp : Nat} {ptr : Word}
    {cmd : List Byte} {k k' : Kernel} (h : execute L img loc esp ptr cmd k = some (.failed, k')) :
    usrPtrOk ptr (BitVec.ofNat 32 cmd.length) = 0 ∨ ¬ CommandLoads img loc cmd ∨
      Full (procs k).present := by
  rcases execute_spec L img loc esp ptr cmd k with ⟨hptr, _⟩ | ⟨_, r, k1, hex, hout⟩
  · exact .inl hptr
  · rw [h] at hex
    cases hex
    generalize procs k' = v' at hout
    cases hout with
    | missing hno => exact .inr (.inl fun ⟨n, hn, _⟩ => hno n hn)
    | full hf => exact .inr (.inr hf)
    | misread hn _ _ hcode =>
        refine .inr (.inl ?_)
        rintro ⟨n, hn', _, hne⟩
        rw [hn'.unique hn] at hne
        exact hne hcode

/--
**Which answers keep the contract.** In every run from boot in which no program is
executed before the third shell is up, whatever a process and its descendants have
executed and halted: its end is reported to the `execute` that waits for it, in the
context that one left. The report is the one of the contract exactly if the status
is a byte; an exception is always reported as one, and `-1` means that nothing was
loaded.
-/
theorem exit_status_iff {L : Layout} {img : Image} {k : Kernel} (h : Starting 0 (procs k))
    {as : List Act} {g : Calls}
    (hrun : Run (Guarded (CallStep L img) Calls.Timely) ⟨k, fun _ => none⟩ as g) :
    (∀ c e, g.pending g.kernel.task.currentProcess = some c →
      (AsPromised L img g.kernel c e ↔ ∀ v, e = .status v → v.toNat ≤ 255)) ∧
    ∀ loc esp ptr cmd k', execute L img loc esp ptr cmd g.kernel = some (.failed, k') →
      usrPtrOk ptr (BitVec.ofNat 32 cmd.length) = 0 ∨ ¬ CommandLoads img loc cmd ∨
        Full (procs g.kernel).present := by
  have hinv := pendingInv_run h hrun
  exact ⟨fun c e hc => hinv.asPromised_iff hc L img e, fun _ _ _ _ _ hk => execute_failed hk⟩

/-! ## A run to try it on -/

/-- Three shells, and a program executed by the last of them. -/
def bootAndExecute : List Act :=
  [.tick someLocals 0, .tick someLocals 0, .tick someLocals 0] ++
    [.execute someLocals 0 0x08000000 execstring]

/-- A launch, as a step of the record. -/
theorem callStep_launch {k : Kernel} {j : Term} (h : Starting j (procs k))
    (pending : Nat → Option Waiter) :
    ∃ k' pending', nextTask someLayout shellDisk someLocals 0 k = some k' ∧
      Guarded (CallStep someLayout shellDisk) Calls.Timely ⟨k, pending⟩ (.tick someLocals 0)
        ⟨k', pending'⟩ := by
  obtain ⟨k', hk⟩ := starting_tick_runs (L := someLayout) shellDisk_loads h someLocals 0
  exact ⟨k', _, hk, trivial, .launch h.next_zero hk⟩

theorem bootAndExecute_runs : ∃ g c,
    Run (Guarded (CallStep someLayout shellDisk) Calls.Timely) ⟨.zero, fun _ => none⟩
      bootAndExecute g ∧ g.kernel.task.currentProcess = 4 ∧ g.pending 4 = some c := by
  have s0 := starting_zero
  obtain ⟨k1, p1, h1, t1⟩ := callStep_launch s0 fun _ => none
  have s1 := starting_tick s0 (by decide) h1
  obtain ⟨k2, p2, h2, t2⟩ := callStep_launch s1 p1
  have s2 := starting_tick s1 (by decide) h2
  obtain ⟨k3, p3, h3, t3⟩ := callStep_launch s2 p2
  obtain ⟨ch, hch⟩ := starting_third_tick s2 h3
  have hcur3 : k3.task.currentProcess ≠ 0 := by
    have hq := hch.queued_ne_zero (procs k3).active
    rwa [Chains.queued_active] at hq
  rcases execute_spec someLayout shellDisk someLocals 0 0x08000000 execstring k3
    with ⟨hptr, _⟩ | ⟨_, r, k4, hex, hout⟩
  · exact absurd hptr (by decide)
  · obtain ⟨n, hn, hfit, hcode⟩ := shellDisk_command
    obtain ⟨hv, hr⟩ := hout.of_loads hn hfit (firstFree_four s2 h3)
    rw [if_neg hcode] at hr
    subst hr
    have hcur4 : k4.task.currentProcess = 4 := congrArg ProcView.current hv
    have t4 : Guarded (CallStep someLayout shellDisk) Calls.Timely ⟨k3, p3⟩
        (.execute someLocals 0 0x08000000 execstring)
        ⟨k4, Function.update p3 k4.task.currentProcess (some ⟨k3.task.currentProcess, 0⟩)⟩ :=
      ⟨fun _ => hch.queued_ne_zero, .exec hcur3 hex⟩
    refine ⟨_, ⟨k3.task.currentProcess, 0⟩,
      (((Run.one t1).append (Run.one t2)).append (Run.one t3)).append (Run.one t4), hcur4, ?_⟩
    show Function.update p3 k4.task.currentProcess _ 4 = _
    rw [hcur4]
    exact Function.update_self ..

/-- A status of one byte is reported as it is, and an exception as one. -/
theorem exit_status_byte : ∃ g c,
    Run (Guarded (CallStep someLayout shellDisk) Calls.Timely) ⟨.zero, fun _ => none⟩
      bootAndExecute g ∧ g.pending g.kernel.task.currentProcess = some c ∧
      AsPromised someLayout shellDisk g.kernel c (.status 7) ∧
      AsPromised someLayout shellDisk g.kernel c .exception := by
  obtain ⟨g, c, hrun, hcur, hc⟩ := bootAndExecute_runs
  rw [← hcur] at hc
  have hiff := (exit_status_iff starting_zero hrun).1
  refine ⟨g, c, hrun, hc, (hiff c _ hc).mpr ?_, (hiff c _ hc).mpr nofun⟩
  intro v hv
  cases hv
  decide

/--
**A status that passes for an exception.** Pid `4` halts with `0x100`, of which the
low byte is `0`; the shell that executed it is told `256`.
-/
theorem exit_status_0x100_reads_as_exception : ∃ g c,
    Run (Guarded (CallStep someLayout shellDisk) Calls.Timely) ⟨.zero, fun _ => none⟩
      bootAndExecute g ∧ g.kernel.task.currentProcess = 4 ∧ g.pending 4 = some c ∧
      Answers someLayout shellDisk g.kernel 0x100 c userExceptCode ∧
      ¬ Answers someLayout shellDisk g.kernel 0x100 c (0x100 &&& 0xFF) ∧
      ¬ AsPromised someLayout shellDisk g.kernel c (.status 0x100) := by
  obtain ⟨g, c, hrun, hcur, hc⟩ := bootAndExecute_runs
  have hinv := pendingInv_run starting_zero hrun
  have hans : Answers someLayout shellDisk g.kernel 0x100 c 0x100 :=
    hinv.answers (by rw [hcur]; exact hc) _ _ _
  have hnot : ¬ Answers someLayout shellDisk g.kernel 0x100 c (0x100 &&& 0xFF) := by
    intro hlow
    exact absurd (hans.unique hlow) (by decide)
  exact ⟨g, c, hrun, hcur, hc, hans, hnot, fun hp => hnot hp.told⟩

end Zbiggie.Proof
