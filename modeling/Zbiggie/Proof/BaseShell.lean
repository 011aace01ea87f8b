import Zbiggie.Proof.ProcTable

/-!
# Who started a process, and what its `halt` does

`halt` decides by number: a pid below `4` starts a new shell, any other returns to
its parent. That a process was started as a base shell is nowhere recorded, so
the record is kept here as ghost state: for each pid its `Origin`, and a serial
number that tells one holder of the pid from the next.

The numbers `1`, `2`, `3` go to the base shells only if nothing else asks for a
PCB before the third shell has its own. A program executed in that time gets one
of the three, and its `halt` starts a shell where it should have returned. Apart
from that the test is exact, and the two are proved together: a run keeps to the
test's meaning if and only if none of its executes comes early.
-/

namespace Zbiggie.Proof

open Zbiggie Machine

/-- How a process came to be. -/
inductive Origin where
  /-- By `launch_new_shell`, for terminal `t`. -/
  | base (t : Term)
  /-- By an `execute` of the process `pid` whose serial number was `serial`. -/
  | exec (pid serial : Nat)

/-- The ghost record: origin and serial number of the latest process under each pid. -/
structure Hist where
  origin : Nat → Origin
  born : Nat → Nat
  clock : Nat

/-- A new process under `pid`. -/
def Hist.start (h : Hist) (pid : Nat) (o : Origin) : Hist where
  origin := Function.update h.origin pid o
  born := Function.update h.born pid h.clock
  clock := h.clock + 1

/-- The kernel with its ghost record. -/
structure Traced where
  kernel : Kernel
  hist : Hist

/-- The program `cmd` names can be loaded. -/
def CommandLoads (img : Image) (loc : ExecLocals) (cmd : List Byte) : Prop :=
  ∃ n, HeaderOf img loc cmd n ∧ BodyFits img n ∧ ¬ IsFailCode (entryWord img loc n)

/--
One operation, with the record of what it started. Only a process can call
`execute` or `halt`, and every load goes through.
-/
inductive ShellStep (L : Layout) (img : Image) : Traced → Act → Traced → Prop where
  | resume {g : Traced} {loc : ExecLocals} {esp : Nat} {k' : Kernel} :
      g.kernel.task.processes (g.kernel.task.currentActiveProcess + 1) ≠ 0 →
      nextTask L img loc esp g.kernel = some k' →
      ShellStep L img g (.tick loc esp) ⟨k', g.hist⟩
  | launch {g : Traced} {loc : ExecLocals} {esp : Nat} {k' : Kernel} :
      g.kernel.task.processes (g.kernel.task.currentActiveProcess + 1) = 0 →
      nextTask L img loc esp g.kernel = some k' →
      ShellStep L img g (.tick loc esp)
        ⟨k', g.hist.start k'.task.currentProcess (.base k'.task.currentActiveProcess)⟩
  | refuse {g : Traced} {loc : ExecLocals} {esp : Nat} {ptr : Word} {cmd : List Byte}
      {k' : Kernel} :
      g.kernel.task.currentProcess ≠ 0 → CommandLoads img loc cmd →
      execute L img loc esp ptr cmd g.kernel = some (.failed, k') →
      ShellStep L img g (.execute loc esp ptr cmd) ⟨k', g.hist⟩
  | exec {g : Traced} {loc : ExecLocals} {esp : Nat} {ptr : Word} {cmd : List Byte} {k' : Kernel}
      {entry : Word} :
      g.kernel.task.currentProcess ≠ 0 → CommandLoads img loc cmd →
      execute L img loc esp ptr cmd g.kernel = some (.entered entry, k') →
      ShellStep L img g (.execute loc esp ptr cmd)
        ⟨k', g.hist.start k'.task.currentProcess
          (.exec g.kernel.task.currentProcess (g.hist.born g.kernel.task.currentProcess))⟩
  | relaunch {g : Traced} {loc : ExecLocals} {esp : Nat} {ebx : Word} {k' : Kernel} :
      g.kernel.task.currentProcess ≠ 0 →
      halt L img loc esp ebx g.kernel = some (.relaunched, k') →
      ShellStep L img g (.halt loc esp ebx)
        ⟨k', g.hist.start k'.task.currentProcess (.base k'.task.currentActiveProcess)⟩
  | leave {g : Traced} {loc : ExecLocals} {esp : Nat} {ebx eax : Word} {esp' : Nat} {k' : Kernel} :
      g.kernel.task.currentProcess ≠ 0 →
      halt L img loc esp ebx g.kernel = some (.returned eax esp', k') →
      ShellStep L img g (.halt loc esp ebx) ⟨k', g.hist⟩

/-! ## The record, move by move -/

/-- The record after a move. -/
def Hist.after (h : Hist) (v : ProcView) : Move → Hist
  | .launch n => h.start n (.base (v.active + 1))
  | .exec n => h.start n (.exec v.current (h.born v.current))
  | .relaunch n => h.start n (.base v.active)
  | _ => h

/-- What a step does to table and record, and who can take it. -/
structure Traces (v : ProcView) (h : Hist) (a : Act) (v' : ProcView) (h' : Hist) (m : Move) :
    Prop where
  makes : a.Makes m
  enabled : m.Enabled v
  table : v' = m.apply v
  record : h' = h.after v m
  /-- The boot context neither executes nor halts. -/
  process : (∃ loc esp, a = .tick loc esp) ∨ v.current ≠ 0
  /-- A process is executed only from an accepted pointer. -/
  pointer : ∀ n, m = .exec n → ∃ loc esp ptr cmd, a = .execute loc esp ptr cmd ∧
    usrPtrOk ptr (BitVec.ofNat 32 cmd.length) ≠ 0

theorem shellStep_traces {L : Layout} {img : Image} {g g' : Traced} {a : Act}
    (hs : ShellStep L img g a g') :
    ∃ m, Traces (procs g.kernel) g.hist a (procs g'.kernel) g'.hist m := by
  cases hs with
  | resume hne hk =>
      exact ⟨.resume, trivial, hne, (tick_resumes hne hk).2, rfl, .inl ⟨_, _, rfl⟩, nofun⟩
  | @launch _ _ k' h0 hk =>
      obtain ⟨_, hen, hv⟩ := tick_launches h0 hk
      have hact : k'.task.currentActiveProcess = (procs g.kernel).active + 1 :=
        congrArg ProcView.active hv
      exact ⟨.launch _, trivial, hen, hv, by rw [hact]; rfl, .inl ⟨_, _, rfl⟩, nofun⟩
  | @refuse loc esp ptr cmd k' hp hload hk =>
      refine ⟨.refuse, trivial, trivial, ?_, rfl, .inr hp, nofun⟩
      obtain ⟨n, hn, hfit, hcode⟩ := hload
      rcases execute_spec L img loc esp ptr cmd g.kernel with ⟨_, hex⟩ | ⟨_, r, k1, hex, hout⟩
      · rw [hk] at hex; cases hex; rfl
      · rw [hk] at hex; cases hex
        generalize hv : procs k' = v' at hout
        cases hout with
        | missing _ => rfl
        | full _ => rfl
        | misread hm _ _ hc => exact absurd (hm.unique hn ▸ hc) hcode
  | @exec loc esp ptr cmd k' entry hp _ hk =>
      rcases execute_spec L img loc esp ptr cmd g.kernel with ⟨_, hex⟩ | ⟨hptr, r, k1, hex, hout⟩
      · rw [hk] at hex; cases hex
      · rw [hk] at hex; cases hex
        generalize hv : procs k' = v' at hout
        cases hout with
        | @entered _ pid _ hfree _ _ =>
            have hcur : k'.task.currentProcess = pid := congrArg ProcView.current hv
            exact ⟨.exec pid, trivial, hfree, rfl, by rw [hcur]; rfl, .inr hp,
              fun _ _ => ⟨loc, esp, ptr, cmd, rfl, hptr⟩⟩
  | @relaunch loc esp ebx k' hp hk =>
      obtain ⟨_, hen, hv⟩ := halt_relaunched hk
      have hact : k'.task.currentActiveProcess = (procs g.kernel).active :=
        congrArg ProcView.active hv
      exact ⟨.relaunch _, trivial, hen, hv, by rw [hact]; rfl, .inr hp, nofun⟩
  | leave hp hk =>
      obtain ⟨_, hen, hv⟩ := halt_returned hk
      exact ⟨.leave, trivial, hen, hv, rfl, .inr hp, nofun⟩

/-- An execute that gets past its pointer check, with a PCB to be had, starts a process. -/
theorem shellStep_exec {L : Layout} {img : Image} {g g' : Traced} {loc : ExecLocals} {esp : Nat}
    {ptr : Word} {cmd : List Byte} (hs : ShellStep L img g (.execute loc esp ptr cmd) g')
    (hptr : usrPtrOk ptr (BitVec.ofNat 32 cmd.length) ≠ 0) {n : Nat}
    (hn : FirstFree (procs g.kernel).present n) :
    procs g'.kernel = (procs g.kernel).alloc n ∧
      g'.hist.origin n = .exec g.kernel.task.currentProcess
        (g.hist.born g.kernel.task.currentProcess) := by
  rcases execute_spec L img loc esp ptr cmd g.kernel with ⟨h0, _⟩ | ⟨_, r, k1, hex, hout⟩
  · exact absurd h0 hptr
  · cases hs with
    | refuse _ hload hk =>
        obtain ⟨m, hm, hfit, hcode⟩ := hload
        rw [hk] at hex; cases hex
        have hr := (hout.of_loads hm hfit hn).2
        rw [if_neg hcode] at hr
        cases hr
    | exec _ hload hk =>
        obtain ⟨m, hm, hfit, _⟩ := hload
        rw [hk] at hex; cases hex
        have hv := (hout.of_loads hm hfit hn).1
        have hcur : k1.task.currentProcess = n := congrArg ProcView.current hv
        refine ⟨hv, ?_⟩
        show Function.update g.hist.origin k1.task.currentProcess _ n = _
        rw [hcur, Function.update_self]

/-! ## What the record says of the table -/

/-- The table is being filled, or full: no shell, one, two, or all three chains. -/
def Staged (v : ProcView) : Prop := (∃ j, Starting j v) ∨ ProcInv v

/-- The record agrees with the pids and the parents. -/
structure OriginInv (v : ProcView) (h : Hist) : Prop where
  /-- Base pids are held by their terminals' base shells. -/
  base : ∀ t, v.present (basePid t) = true → h.origin (basePid t) = .base t
  /-- Every other process was executed by the one that is its parent now. -/
  exec : ∀ p, v.present p = true → 4 ≤ p →
    h.origin p = .exec (v.parent p) (h.born (v.parent p))

/-- A base shell started, or started again, for terminal `t`. -/
theorem originInv_start {v w : ProcView} {h : Hist} {t : Term} (ho : OriginInv v h)
    (hpres : ∀ p, p ≠ basePid t → w.present p = true → v.present p = true)
    (hpar : ∀ p, p ≠ basePid t → w.parent p = v.parent p)
    (hfree : ∀ p, v.present p = true → 4 ≤ p → v.parent p ≠ basePid t) :
    OriginInv w (h.start (basePid t) (.base t)) where
  base := by
    intro u hu
    show Function.update h.origin (basePid t) (.base t) (basePid u) = _
    by_cases hut : u = t
    · subst hut; exact Function.update_self ..
    · have hne : basePid u ≠ basePid t := fun he => hut (basePid_injective he)
      rw [Function.update_of_ne hne]
      exact ho.base u (hpres _ hne hu)
  exec := by
    intro p hp h4
    have hne : p ≠ basePid t := by
      have := basePid_lt t
      omega
    show Function.update h.origin (basePid t) (.base t) p
      = .exec (w.parent p) (Function.update h.born (basePid t) h.clock (w.parent p))
    rw [Function.update_of_ne hne, hpar p hne,
      Function.update_of_ne (hfree p (hpres p hne hp) h4)]
    exact ho.exec p (hpres p hne hp) h4

/-- An execute, once the three chains are there. -/
theorem originInv_exec {v : ProcView} {h : Hist} {c : Term → List Nat} {n : Nat}
    (hc : Chains v c) (ho : OriginInv v h) (hn : FirstFree v.present n) :
    OriginInv (v.alloc n) (h.start n (.exec v.current (h.born v.current))) := by
  obtain ⟨h4, _⟩ := hc.firstFree_not_mem hn
  have hne : ∀ p, v.present p = true → p ≠ n := by
    rintro p hp rfl
    rw [hn.2.2.1] at hp; cases hp
  constructor
  · intro t ht
    have hbt : basePid t ≠ n := by
      have := basePid_lt t
      omega
    rw [ProcView.alloc_present, Function.update_of_ne hbt] at ht
    show Function.update h.origin n _ (basePid t) = _
    rw [Function.update_of_ne hbt]
    exact ho.base t ht
  · intro p hp hp4
    show Function.update h.origin n _ p = .exec (Function.update v.parent n v.current p)
      (Function.update h.born n h.clock (Function.update v.parent n v.current p))
    by_cases hpn : p = n
    · subst hpn
      simp only [Function.update_self]
      rw [Function.update_of_ne (hne _ hc.current_present)]
    · rw [ProcView.alloc_present, Function.update_of_ne hpn] at hp
      simp only [Function.update_of_ne hpn]
      rw [Function.update_of_ne (hne _ (hc.parent_present hp hp4).1)]
      exact ho.exec p hp hp4

/-- The processes that stay after a `halt` keep their record. -/
theorem originInv_leave {v : ProcView} {h : Hist} (ho : OriginInv v h) :
    OriginInv (Move.leave.apply v) h := by
  have hpres : ∀ p, (Move.leave.apply v).present p = true → v.present p = true := by
    intro p hp
    by_cases hpc : p = v.current
    · subst hpc
      have hfalse : Function.update v.present v.current false v.current = true := hp
      rw [Function.update_self] at hfalse; cases hfalse
    · have hkept : (Move.leave.apply v).present p = v.present p := Function.update_of_ne hpc _ _
      rwa [hkept] at hp
  exact ⟨fun t ht => ho.base t (hpres _ ht), fun p hp h4 => ho.exec p (hpres p hp) h4⟩

/-! ## Runs -/

/-- An `execute` that will start something is called when all three terminals have a process. -/
def Timely (g : Traced) : Act → Prop
  | .execute _ _ ptr cmd => usrPtrOk ptr (BitVec.ofNat 32 cmd.length) ≠ 0 →
      ∀ t, queued (procs g.kernel) t ≠ 0
  | _ => True

structure TracedInv (g : Traced) : Prop where
  staged : Staged (procs g.kernel)
  origin : OriginInv (procs g.kernel) g.hist

/-- While shells are being started, some terminal has none. -/
theorem Starting.some_queued_zero {j : Term} {v : ProcView} (h : Starting j v) :
    queued v (v.active + 1) = 0 := by
  rw [queued, if_neg (succ_ne _)]
  exact h.next_zero

/-- While shells are being started, only a process already there can halt. -/
theorem Starting.ne_zero {v : ProcView} {j : Term} {n : Nat} (hj : Starting j v)
    (hproc : (∃ n', Move.relaunch n = .launch n') ∨ Move.relaunch n = .resume ∨ v.current ≠ 0) :
    j ≠ 0 := by
  rintro rfl
  rcases hproc with ⟨_, h⟩ | h | h
  · cases h
  · cases h
  · exact h hj.current

/-- While shells are being started, the table goes through the stages. -/
theorem Starting.staged {v : ProcView} {j : Term} {m : Move} (hj : Starting j v)
    (hm : m.Enabled v) (hexec : ∀ n, m ≠ .exec n)
    (hproc : (∃ n, m = .launch n) ∨ m = .resume ∨ v.current ≠ 0) : Staged (m.apply v) := by
  cases m with
  | refuse => exact .inl ⟨j, hj⟩
  | exec n => exact absurd rfl (hexec n)
  | resume => exact absurd hj.next_zero hm
  | launch n =>
      obtain rfl := hj.firstFree_iff.mp hm.2
      by_cases hj2 : j = 2
      · subst hj2
        exact .inr hj.launch_last
      · exact .inl ⟨j + 1, hj.launch hj2⟩
  | relaunch n =>
      have hj0 := hj.ne_zero hproc
      obtain rfl := (hj.relaunch_same hj0).mp hm.2
      exact .inl ⟨j, hj.relaunch hj0⟩
  | leave =>
      have hle : 4 ≤ v.current := hm
      rw [hj.current] at hle
      omega

/-- While shells are being started, a move keeps the record. -/
theorem originInv_starting {v : ProcView} {h : Hist} {j : Term} {m : Move} (hj : Starting j v)
    (ho : OriginInv v h) (hm : m.Enabled v) (hexec : ∀ n, m ≠ .exec n)
    (hproc : (∃ n, m = .launch n) ∨ m = .resume ∨ v.current ≠ 0) :
    OriginInv (m.apply v) (h.after v m) := by
  have hno4 : ∀ p, v.present p = true → ¬ 4 ≤ p := by
    intro p hp h4
    have := (hj.present p).mp hp
    omega
  cases m with
  | refuse => exact ho
  | exec n => exact absurd rfl (hexec n)
  | resume => exact absurd hj.next_zero hm
  | launch n =>
      have hbase : ∀ j : Term, basePid (j + 1) = j.val + 1 := by decide
      obtain rfl := hj.firstFree_iff.mp hm.2
      show OriginInv (v.enqueue.alloc (j.val + 1)) (h.start (j.val + 1) (.base (v.active + 1)))
      rw [hj.active, ← hbase j]
      refine originInv_start ho ?_ ?_ (fun p hp h4 => absurd h4 (hno4 p hp))
      · intro p hp hpp
        rwa [ProcView.alloc_present, Function.update_of_ne hp] at hpp
      · intro p hp
        exact Function.update_of_ne hp _ _
  | relaunch n =>
      have hj0 := hj.ne_zero hproc
      have hbase : ∀ j : Term, j ≠ 0 → j.val = basePid j := by decide
      obtain rfl := (hj.relaunch_same hj0).mp hm.2
      show OriginInv (v.release.alloc v.current) (h.start v.current (.base v.active))
      have hcb : v.current = basePid j := hj.current.trans (hbase j hj0)
      rw [hj.active, hcb]
      refine originInv_start ho ?_ ?_ (fun p hp h4 => absurd h4 (hno4 p hp))
      · intro p hp hpp
        rwa [ProcView.alloc_present, Function.update_of_ne hp, ProcView.release_present, hcb,
          Function.update_of_ne hp] at hpp
      · intro p hp
        exact Function.update_of_ne hp _ _
  | leave =>
      have hle : 4 ≤ v.current := hm
      rw [hj.current] at hle
      omega

/-- With three chains, so does every move. -/
theorem originInv_chains {v : ProcView} {h : Hist} {m : Move} (hv : ProcInv v)
    (ho : OriginInv v h) (hm : m.Enabled v) : OriginInv (m.apply v) (h.after v m) := by
  obtain ⟨c, hc⟩ := hv
  cases m with
  | refuse => exact ho
  | exec n => exact originInv_exec hc ho hm
  | resume => exact ⟨ho.base, ho.exec⟩
  | launch n => exact absurd hm.1 hc.next_ne_zero
  | relaunch n =>
      obtain rfl := (hc.relaunch_same hm.1).mp hm.2
      have hcb : v.current = basePid v.active := by
        have := (hc.eq_singleton (t := v.active) (by rw [Chains.queued_active]; exact hm.1)).2
        rwa [Chains.queued_active] at this
      show OriginInv (v.release.alloc v.current) (h.start v.current (.base v.active))
      rw [hcb]
      refine originInv_start ho ?_ ?_ ?_
      · intro p hp hpp
        rwa [ProcView.alloc_present, Function.update_of_ne hp, ProcView.release_present, hcb,
          Function.update_of_ne hp] at hpp
      · intro p hp
        exact Function.update_of_ne hp _ _
      · intro p hp h4
        rw [← hcb]
        exact (hc.parent_present hp h4).2
  | leave => exact originInv_leave ho

theorem tracedInv_step {L : Layout} {img : Image} {g g' : Traced} {a : Act}
    (hs : ShellStep L img g a g') (htime : Timely g a) (h : TracedInv g) : TracedInv g' := by
  obtain ⟨m, tr⟩ := shellStep_traces hs
  obtain ⟨hst, ho⟩ := h
  rcases hst with ⟨j, hj⟩ | hv
  · have hexec : ∀ n, m ≠ .exec n := by
      intro n hmn
      obtain ⟨loc, esp, ptr, cmd, rfl, hptr⟩ := tr.pointer n hmn
      exact htime hptr _ hj.some_queued_zero
    have hproc : (∃ n, m = .launch n) ∨ m = .resume ∨ (procs g.kernel).current ≠ 0 := by
      rcases tr.process with ⟨loc, esp, rfl⟩ | hcur
      · exact .inl ⟨_, hj.tick tr.enabled tr.makes⟩
      · exact .inr (.inr hcur)
    exact ⟨by rw [tr.table]; exact hj.staged tr.enabled hexec hproc,
      by rw [tr.table, tr.record]; exact originInv_starting hj ho tr.enabled hexec hproc⟩
  · exact ⟨.inr (by rw [tr.table]; exact procInv_move hv tr.enabled),
      by rw [tr.table, tr.record]; exact originInv_chains hv ho tr.enabled⟩

/-- `halt` treats every process as what it is. -/
structure HaltAgrees (L : Layout) (img : Image) (g : Traced) : Prop where
  /-- The test on the pid is the question whether it was started as a base shell. -/
  agree : ∀ p, (procs g.kernel).present p = true → (p < 4 ↔ ∃ t, g.hist.origin p = .base t)
  /-- An executed process goes back to the very process that executed it. -/
  returns : ∀ pid serial, g.kernel.task.currentProcess ≠ 0 →
    g.hist.origin g.kernel.task.currentProcess = .exec pid serial → ∀ loc esp ebx,
    ∃ esp' k', halt L img loc esp ebx g.kernel = some (.returned ebx esp', k') ∧
      k'.task.currentProcess = pid ∧ (procs k').present pid = true ∧ g.hist.born pid = serial
  /-- A base shell is followed by a new one, in the terminal it was started for. -/
  relaunches : ∀ t, g.kernel.task.currentProcess ≠ 0 →
    g.hist.origin g.kernel.task.currentProcess = .base t → ∀ loc esp ebx,
    ∃ k', halt L img loc esp ebx g.kernel = some (.relaunched, k') ∧
      k'.task.currentActiveProcess = t ∧ (procs k').present k'.task.currentProcess = true

namespace TracedInv

variable {L : Layout} {img : Image} {g : Traced}

theorem agree (h : TracedInv g) (p : Nat) (hp : (procs g.kernel).present p = true) :
    p < 4 ↔ ∃ t, g.hist.origin p = .base t := by
  have h1 : 1 ≤ p := by
    rcases h.staged with ⟨j, hj⟩ | ⟨c, hc⟩
    · exact ((hj.present p).mp hp).1
    · exact (hc.range p hp).1
  constructor
  · intro h4
    obtain ⟨t, rfl⟩ := exists_basePid h1 h4
    exact ⟨t, h.origin.base t hp⟩
  · rintro ⟨t, ht⟩
    by_contra hge
    rw [h.origin.exec p hp (Nat.le_of_not_lt hge)] at ht
    cases ht

/-- The running process holds its PCB. -/
theorem current_present (h : TracedInv g) (hcur : g.kernel.task.currentProcess ≠ 0) :
    (procs g.kernel).present (procs g.kernel).current = true := by
  rcases h.staged with ⟨j, hj⟩ | ⟨c, hc⟩
  · rw [hj.present]
    have : (procs g.kernel).current ≠ 0 := hcur
    rw [hj.current] at this ⊢
    omega
  · exact hc.current_present

/-- A running base shell is the one of the active terminal, and its pid will be free again. -/
theorem base_relaunch (h : TracedInv g) (hcur : g.kernel.task.currentProcess ≠ 0)
    (hlt : (procs g.kernel).current < 4) :
    (procs g.kernel).current = basePid (procs g.kernel).active ∧
      FirstFree (procs g.kernel).release.present (procs g.kernel).current := by
  rcases h.staged with ⟨j, hj⟩ | ⟨c, hc⟩
  · have hj0 : j ≠ 0 := by
      rintro rfl
      exact hcur hj.current
    have hbase : ∀ j : Term, j ≠ 0 → j.val = basePid j := by decide
    refine ⟨?_, (hj.relaunch_same hj0).mpr rfl⟩
    rw [hj.current, hj.active]
    exact hbase j hj0
  · refine ⟨?_, (hc.relaunch_same hlt).mpr rfl⟩
    have := (hc.eq_singleton (t := (procs g.kernel).active)
      (by rw [Chains.queued_active]; exact hlt)).2
    rwa [Chains.queued_active] at this

theorem haltAgrees (hshell : ShellLoads img) (h : TracedInv g) : HaltAgrees L img g where
  agree := h.agree
  returns := by
    intro pid serial hcur ho loc esp ebx
    have hp := h.current_present hcur
    have hge : ¬ (procs g.kernel).current < 4 := by
      intro hlt
      obtain ⟨t, ht⟩ := (h.agree _ hp).mp hlt
      rw [show g.hist.origin (procs g.kernel).current = .exec pid serial from ho] at ht
      cases ht
    have hrec := h.origin.exec _ hp (Nat.le_of_not_lt hge)
    rw [show g.hist.origin (procs g.kernel).current = .exec pid serial from ho] at hrec
    injection hrec with hpid hserial
    -- a program that was executed runs, so the three shells are up
    obtain ⟨c, hc⟩ : ProcInv (procs g.kernel) := by
      rcases h.staged with ⟨j, hj⟩ | hv
      · have := hj.current
        omega
      · exact hv
    obtain ⟨hpp, hpne⟩ := hc.parent_present hp (Nat.le_of_not_lt hge)
    refine ⟨_, _, by rw [halt_eq, if_neg hge], hpid.symm, ?_, ?_⟩
    · rw [procs_switchContext, procs_freeCurrentPcb, hpid]
      show Function.update (procs g.kernel).present (procs g.kernel).current false _ = true
      rw [Function.update_of_ne hpne]
      exact hpp
    · rw [hserial, hpid]
  relaunches := by
    intro t hcur ho loc esp ebx
    have hp := h.current_present hcur
    have hlt : (procs g.kernel).current < 4 := (h.agree _ hp).mpr ⟨t, ho⟩
    obtain ⟨hcb, hfree⟩ := h.base_relaunch hcur hlt
    obtain ⟨k', hh, hv⟩ := halt_relaunches (L := L) hshell hlt hfree loc esp ebx
    have hact : k'.task.currentActiveProcess = (procs g.kernel).active :=
      congrArg ProcView.active hv
    have hcur' : k'.task.currentProcess = (procs g.kernel).current := congrArg ProcView.current hv
    refine ⟨k', hh, ?_, ?_⟩
    · rw [hact]
      have hb := h.origin.base (procs g.kernel).active (hcb ▸ hp)
      rw [← hcb, show g.hist.origin (procs g.kernel).current = .base t from ho] at hb
      injection hb with hb
      exact hb.symm
    · rw [hcur', hv, ProcView.alloc_present, Function.update_self]

/-- An `execute` before the third shell is up gives its program a base pid. -/
theorem early_exec {g' : Traced} {a : Act} (h : TracedInv g) (hs : ShellStep L img g a g')
    (hearly : ¬ Timely g a) : ¬ HaltAgrees L img g' := by
  intro hagree
  cases a with
  | tick loc esp => exact hearly trivial
  | halt loc esp ebx => exact hearly trivial
  | execute loc esp ptr cmd =>
      simp only [Timely, Classical.not_imp, not_forall] at hearly
      obtain ⟨hptr, t, ht⟩ := hearly
      rcases h.staged with ⟨j, hj⟩ | ⟨c, hc⟩
      · have hn := hj.firstFree_iff.mpr rfl
        obtain ⟨hv, ho⟩ := shellStep_exec hs hptr hn
        have hp : (procs g'.kernel).present (j.val + 1) = true := by
          rw [hv, ProcView.alloc_present, Function.update_self]
        obtain ⟨u, hu⟩ := (hagree.agree _ hp).mp (by omega)
        rw [ho] at hu
        cases hu
      · exact ht (hc.queued_ne_zero t)

end TracedInv

theorem tracedInv_boot {g : Traced} (h : Starting 0 (procs g.kernel)) : TracedInv g := by
  have hnone : ∀ p, (procs g.kernel).present p ≠ true := by
    intro p hp
    have := (h.present p).mp hp
    have h0 : ((0 : Term) : Nat) = 0 := rfl
    omega
  exact ⟨.inl ⟨0, h⟩, fun t ht => absurd ht (hnone _), fun p hp => absurd hp (hnone p)⟩

theorem tracedInv_run {L : Layout} {img : Image} {g0 g : Traced} {as : List Act}
    (h0 : Starting 0 (procs g0.kernel)) (h : Run (Guarded (ShellStep L img) Timely) g0 as g) :
    TracedInv g :=
  h.invariant (tracedInv_boot h0) (fun _ _ _ hs hi => tracedInv_step hs.2 hs.1 hi)

/--
**The test in `halt` means "base shell" exactly as long as nothing is executed
early.** From an empty table, a run in which every `execute` waits for the third
shell meets only states in which `halt` treats every process as what it was
started as; and a run that meets only such states has no early `execute`.
-/
theorem halt_agrees_iff_timely {L : Layout} {img : Image} (hshell : ShellLoads img) {g0 : Traced}
    (h0 : Starting 0 (procs g0.kernel)) (as : List Act) (g : Traced) :
    HaltAgrees L img g0 ∧
      (Run (fun g a g' => ShellStep L img g a g' ∧ HaltAgrees L img g') g0 as g ↔
        Run (Guarded (ShellStep L img) Timely) g0 as g) := by
  refine ⟨(tracedInv_boot h0).haltAgrees hshell, ?_, ?_⟩
  · intro h
    induction h with
    | nil => exact .nil
    | snoc _ hs ih =>
        refine .snoc ih ⟨?_, hs.1⟩
        by_contra hearly
        exact (tracedInv_run h0 ih).early_exec hs.1 hearly hs.2
  · intro h
    induction h with
    | nil => exact .nil
    | snoc hr hs ih =>
        exact .snoc ih ⟨hs.2, (tracedInv_run h0 (.snoc hr hs)).haltAgrees hshell⟩

/-- The machine at boot, with nothing on record. -/
def bootTraced : Traced := ⟨.zero, ⟨fun _ => .base 0, fun _ => 0, 1⟩⟩

/-- The first tick of a machine with a shell on its disk. -/
theorem bootTraced_tick : ∃ k, nextTask someLayout shellDisk someLocals 0 .zero = some k ∧
    Starting 1 (procs k) ∧ ShellStep someLayout shellDisk bootTraced (.tick someLocals 0)
      ⟨k, bootTraced.hist.start 1 (.base 1)⟩ := by
  obtain ⟨k, h⟩ := starting_tick_runs (L := someLayout) shellDisk_loads starting_zero someLocals 0
  have s1 : Starting 1 (procs k) := starting_tick starting_zero (by decide) h
  have hcur : k.task.currentProcess = 1 := s1.current
  have hact : k.task.currentActiveProcess = 1 := s1.active
  have hstep := ShellStep.launch (g := bootTraced) rfl h
  rw [hcur, hact] at hstep
  exact ⟨k, h, s1, hstep⟩

theorem shellDisk_command : CommandLoads shellDisk someLocals execstring := by
  obtain ⟨n, hfit, hload⟩ := shellDisk_loads
  exact ⟨n, (hload someLocals).1, hfit, (hload someLocals).2⟩

/-- A launch, as a step of the record. -/
theorem shellStep_launch {g : Traced} {j : Term} (h : Starting j (procs g.kernel)) :
    ∃ g', nextTask someLayout shellDisk someLocals 0 g.kernel = some g'.kernel ∧
      Guarded (ShellStep someLayout shellDisk) Timely g (.tick someLocals 0) g' := by
  obtain ⟨k', hk⟩ := starting_tick_runs (L := someLayout) shellDisk_loads h someLocals 0
  exact ⟨⟨k', _⟩, hk, trivial, .launch h.next_zero hk⟩

/-- With the three shells up, the next program gets pid `4`. -/
theorem firstFree_four {k k' : Kernel} (s2 : Starting 2 (procs k))
    (h : nextTask someLayout shellDisk someLocals 0 k = some k') :
    FirstFree (procs k').present 4 := by
  obtain ⟨m, ha, hm, hv⟩ := tick_move h
  rw [s2.tick hm ha] at hv
  have hpres : ∀ p, (procs k').present p = true ↔ 1 ≤ p ∧ p ≤ 3 := by
    intro p
    rw [hv]
    exact s2.enqueue_present p
  refine ⟨by decide, by decide, ?_, fun p h1 h2 => (hpres p).mpr ⟨h1, by omega⟩⟩
  rw [← Bool.not_eq_true, hpres]
  omega

/-- Three shells; the last of them executes a program, which halts. -/
theorem halt_agrees_after_a_program : ∃ g,
    Run (Guarded (ShellStep someLayout shellDisk) Timely) bootTraced
        [.tick someLocals 0, .tick someLocals 0, .tick someLocals 0,
          .execute someLocals 0 0x08000000 execstring, .halt someLocals 0 7] g ∧
      Run (fun g a g' => ShellStep someLayout shellDisk g a g' ∧
          HaltAgrees someLayout shellDisk g') bootTraced
        [.tick someLocals 0, .tick someLocals 0, .tick someLocals 0,
          .execute someLocals 0 0x08000000 execstring, .halt someLocals 0 7] g := by
  have s0 : Starting 0 (procs bootTraced.kernel) := starting_zero
  obtain ⟨g1, h1, t1⟩ := shellStep_launch s0
  have s1 := starting_tick s0 (by decide) h1
  obtain ⟨g2, h2, t2⟩ := shellStep_launch s1
  have s2 := starting_tick s1 (by decide) h2
  obtain ⟨g3, h3, t3⟩ := shellStep_launch s2
  obtain ⟨ch, hch⟩ := starting_third_tick s2 h3
  have hcur3 : g3.kernel.task.currentProcess ≠ 0 := by
    have hq := hch.queued_ne_zero (procs g3.kernel).active
    rwa [Chains.queued_active] at hq
  rcases execute_spec someLayout shellDisk someLocals 0 0x08000000 execstring g3.kernel
    with ⟨hptr, _⟩ | ⟨_, r, k4, hex, hout⟩
  · exact absurd hptr (by decide)
  · obtain ⟨n, hn, hfit, hcode⟩ := shellDisk_command
    obtain ⟨hv, hr⟩ := hout.of_loads hn hfit (firstFree_four s2 h3)
    rw [if_neg hcode] at hr
    subst hr
    have hcur4 : k4.task.currentProcess = 4 := congrArg ProcView.current hv
    have t4 : Guarded (ShellStep someLayout shellDisk) Timely g3
        (.execute someLocals 0 0x08000000 execstring) ⟨k4, _⟩ :=
      ⟨fun _ => hch.queued_ne_zero, .exec hcur3 shellDisk_command hex⟩
    have hrun4 := (((Run.one t1).snoc t2).snoc t3).snoc t4
    -- the program was executed, so its `halt` goes back
    have hne : k4.task.currentProcess ≠ 0 := by
      rw [hcur4]
      decide
    obtain ⟨esp', k5, hhalt, -⟩ := ((tracedInv_run s0 hrun4).haltAgrees shellDisk_loads).returns _ _
      hne (Function.update_self ..) someLocals 0 7
    have hrun := hrun4.snoc (⟨trivial, .leave hne hhalt⟩ :
      Guarded (ShellStep someLayout shellDisk) Timely _ (.halt someLocals 0 7) _)
    exact ⟨_, hrun, (halt_agrees_iff_timely shellDisk_loads starting_zero _ _).2.mpr hrun⟩

/--
One tick starts the shell of terminal `1` as pid `1`; it executes a program, which
becomes pid `2`. The program's `halt` starts a shell instead of going back to `1`.
-/
theorem early_execute_does_not_return : ∃ g k',
    Run (ShellStep someLayout shellDisk) bootTraced
        [.tick someLocals 0, .execute someLocals 0 0x08000000 execstring] g ∧
      g.kernel.task.currentProcess = 2 ∧ g.hist.origin 2 = .exec 1 1 ∧
      halt someLayout shellDisk someLocals 0 0 g.kernel = some (.relaunched, k') ∧
      ¬ HaltAgrees someLayout shellDisk g := by
  obtain ⟨k1, h1, s1, hstep1⟩ := bootTraced_tick
  have hcur : k1.task.currentProcess = 1 := s1.current
  rcases execute_spec someLayout shellDisk someLocals 0 0x08000000 execstring k1
    with ⟨hptr, _⟩ | ⟨_, r, k2, hex, hout⟩
  · exact absurd hptr (by decide)
  · obtain ⟨n, hn, hfit, hcode⟩ := shellDisk_command
    obtain ⟨hv, hr⟩ := hout.of_loads hn hfit (s1.firstFree_iff.mpr rfl)
    rw [if_neg hcode] at hr
    subst hr
    have hcur2 : k2.task.currentProcess = 2 := congrArg ProcView.current hv
    have hstep2 : ShellStep someLayout shellDisk ⟨k1, bootTraced.hist.start 1 (.base 1)⟩
        (.execute someLocals 0 0x08000000 execstring)
        ⟨k2, (bootTraced.hist.start 1 (.base 1)).start 2 (.exec 1 1)⟩ := by
      have := ShellStep.exec (L := someLayout) (g := ⟨k1, bootTraced.hist.start 1 (.base 1)⟩)
        (by rw [hcur]; decide) shellDisk_command hex
      rw [hcur2, hcur] at this
      exact this
    have hfree : FirstFree (procs k2).release.present 2 := by
      rw [show procs k2 = (procs k1).alloc 2 from hv]
      refine ⟨by decide, by decide, ?_, fun m hm1 hm2 => ?_⟩
      · show Function.update (Function.update (procs k1).present 2 true) 2 false 2 = false
        exact Function.update_self ..
      obtain rfl : m = 1 := by omega
      show Function.update (Function.update (procs k1).present 2 true) 2 false 1 = true
      rw [Function.update_of_ne (by decide), Function.update_of_ne (by decide)]
      exact (s1.present 1).mpr ⟨by decide, by decide⟩
    have hlt : (procs k2).current < 4 := by
      show k2.task.currentProcess < 4
      rw [hcur2]; decide
    obtain ⟨k', hh, _⟩ :=
      halt_relaunches (L := someLayout) shellDisk_loads hlt hfree someLocals 0 0
    refine ⟨_, k', (Run.one hstep1).append (Run.one hstep2), hcur2, rfl, hh, ?_⟩
    intro hagree
    have hp : (procs k2).present 2 = true := by
      rw [hv, ProcView.alloc_present]
      exact Function.update_self ..
    obtain ⟨t, ht⟩ := (hagree.agree 2 hp).mp (by decide)
    cases ht

end Zbiggie.Proof
