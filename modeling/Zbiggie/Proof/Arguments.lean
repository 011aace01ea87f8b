import Zbiggie.Proof.Delivery
import Zbiggie.Proof.Editing
import Zbiggie.Proof.FdTable
import Zbiggie.Proof.LoadExec
import Zbiggie.Proof.ProcStep

/-!
# The arguments of a command, from `execute` to `getargs`

The arguments are copied twice: by the loader into the PCB of the new process, and by
`getargs` from there into a buffer of the process. In between they stay what they are,
whatever the processes, the keyboard and the terminals do, as long as the process does
not halt: `ArgsKept` is that, one operation at a time, and `args_kept` over a run.

The second copy is bounded by the size of the buffer. Whether the arguments were cut
off there is decided by comparing that size with the result of `strncpy`, as if it
were a count. It is the address of the buffer, which is larger than any size.
-/

namespace Zbiggie.Proof

open Zbiggie Machine

/-! ## What leaves the arguments alone -/

/-- The process in PCB `p` is there if it was, with the arguments it had. -/
structure ArgsKept (p : Nat) (k k' : Kernel) : Prop where
  present : (k'.task.pcb p).present = (k.task.pcb p).present
  cmdstring : (k'.task.pcb p).cmdstring = (k.task.pcb p).cmdstring

namespace ArgsKept

variable {p : Nat} {k k' k'' : Kernel}

theorem of_pcb (h : k'.task.pcb p = k.task.pcb p) : ArgsKept p k k' :=
  ⟨congrArg Pcb.present h, congrArg Pcb.cmdstring h⟩

theorem refl (p : Nat) (k : Kernel) : ArgsKept p k k := of_pcb rfl

theorem trans (h : ArgsKept p k k') (h' : ArgsKept p k' k'') : ArgsKept p k k'' :=
  ⟨h'.present.trans h.present, h'.cmdstring.trans h.cmdstring⟩

theorem setPcb_of_ne {n : Nat} (hp : p ≠ n) (k : Kernel) (x : Pcb) : ArgsKept p k (k.setPcb n x) :=
  of_pcb (Function.update_of_ne hp _ _)

/-- A PCB rewritten with the same arguments. -/
theorem setPcb_of_eq {n : Nat} {x : Pcb} (h1 : x.present = (k.task.pcb n).present)
    (h2 : x.cmdstring = (k.task.pcb n).cmdstring) : ArgsKept p k (k.setPcb n x) := by
  by_cases hp : p = n
  · subst hp
    constructor
    · rw [Kernel.setPcb_pcb, Function.update_self, h1]
    · rw [Kernel.setPcb_pcb, Function.update_self, h2]
  · exact setPcb_of_ne hp k x

theorem saveEsp (n esp : Nat) (k : Kernel) : ArgsKept p k (saveEsp n esp k) :=
  setPcb_of_eq rfl rfl

theorem setFile (k : Kernel) (i : Fin 8) (f : File) : ArgsKept p k (setFile k i f) :=
  setPcb_of_eq rfl rfl

/-- Nothing the line editor stores is a PCB. -/
theorem frame (p : Nat) : EditFrame (ArgsKept p) where
  refl := refl p
  trans := trans
  setLine := fun _ _ _ _ => of_pcb rfl
  setCurPos := fun _ _ _ => of_pcb rfl
  setCurSize := fun _ _ _ => of_pcb rfl
  setPrevSize := fun _ _ _ => of_pcb rfl
  setWaitForNl := fun _ _ _ => of_pcb rfl
  setWrite := fun _ _ _ _ => of_pcb rfl
  histUp := fun t k => of_pcb (by obtain ⟨_, he⟩ := browsed_histUp t k; rw [he])
  histDown := fun _ _ => of_pcb rfl
  shows := fun h => of_pcb (by rw [h.task])

theorem switchTo (L : Layout) (u : Term) (k : Kernel) : ArgsKept p k (switchTo L u k) := by
  have hcontext : ∀ (n : Nat) (k : Kernel),
      (termSwitch (switchContext n k)).task.pcb = k.task.pcb := fun _ _ => rfl
  have hpage : ∀ (k : Kernel) (q : Paging), ({ k with page := q } : Kernel).task = k.task :=
    fun _ _ => rfl
  refine of_pcb (congrFun ?_ p)
  unfold Zbiggie.switchTo switchVideo
  split
  · rfl
  · rw [hcontext, kmemcpy_task, hpage, kmemcpy_task]

theorem keyHandler (L : Layout) (inp : Byte) (k : Kernel) : ArgsKept p k (keyHandler L inp k) :=
  (frame p).keyHandler (fun _ _ => of_pcb rfl) (switchTo L) inp k

theorem termWrite (L : Layout) (buf : List Byte) (k : Kernel) : ArgsKept p k (termWrite L buf k) :=
  of_pcb (by rw [(Shows.termWrite (L := L) rfl buf).task])

theorem termReadStep (L : Layout) (t : Term) (r : Reader) (k : Kernel) :
    ArgsKept p k (termReadStep L t r k).2 :=
  of_pcb (by rw [termReadStep_task])

/-! The system calls. -/

theorem getNewFd (k : Kernel) : ArgsKept p k (getNewFd k).2 := by
  unfold Zbiggie.getNewFd
  split
  · exact refl p k
  · exact setFile k _ _

theorem freeFd (fd : Int) (k : Kernel) : ArgsKept p k (freeFd fd k).2 := by
  unfold Zbiggie.freeFd
  split
  · dsimp only
    split
    · exact setFile k _ _
    · exact refl p k
  · exact refl p k

theorem syscallClose (fd : Int) (k : Kernel) : ArgsKept p k (syscallClose fd k).2 := by
  unfold Zbiggie.syscallClose
  split
  · exact refl p k
  · exact freeFd fd k

theorem syscallOpen {img : Image} {d : Dentry} {ptr : Word} {name : List Byte} {v : Int}
    (h : syscallOpen img d ptr name k = some (v, k')) : ArgsKept p k k' := by
  unfold Zbiggie.syscallOpen at h
  have hnew := getNewFd (p := p) k
  split at h
  · cases h
    exact refl p k
  · split at h
    · rename_i k1 heq
      cases h
      rw [heq] at hnew
      exact hnew
    · rename_i fd k1 heq
      rw [heq] at hnew
      split at h
      · cases h
      · split at h
        · cases h
          exact hnew.trans ((setFile _ _ _).trans (freeFd _ _))
        · cases h
          exact hnew.trans (setFile _ _ _)

theorem callRun {img : Image} {d : Dentry} {dev : DeviceRead} {r : Regs} {c : Call} {v : Int}
    (h : c.run img d dev r k = some (v, k')) : ArgsKept p k k' := by
  cases c with
  | returns w =>
      cases h
      exact refl p k
  | kread fd buf n =>
      obtain ⟨x, _, hx⟩ := Option.map_eq_some_iff.mp h
      cases hx
      exact (setFile k fd _).trans (of_pcb rfl)
  | kwrite fd buf n =>
      obtain ⟨x, _, hx⟩ := Option.map_eq_some_iff.mp h
      cases hx
      exact refl p k
  | strncpy buf n =>
      cases h
      exact of_pcb rfl

theorem fdCall {img : Image} {c : FdCall} {v : Int} (h : c.run img k = some (v, k')) :
    ArgsKept p k k' := by
  cases c with
  | openFile d ptr name => exact syscallOpen h
  | close fd =>
      have hk' : (Zbiggie.syscallClose fd.toInt k).2 = k' := congrArg Prod.snd (Option.some.inj h)
      rw [← hk']
      exact syscallClose fd.toInt k
  | read d dev r => exact callRun h
  | write d dev r => exact callRun h

/-! Processes. -/

/-- A load takes a PCB of its own. -/
theorem newProcess {L : Layout} {n : Nat} (hp : p ≠ n) (k : Kernel) :
    ArgsKept p k (newProcess L n k) :=
  (setPcb_of_ne hp k _).trans (of_pcb rfl)

theorem loadBody {img : Image} {loc : ExecLocals} {f : File} {buf args : Mem} {r : Loaded}
    (h : loadBody img loc f buf args k = some (r, k')) (hp : p ≠ k.task.currentProcess) :
    ArgsKept p k k' := by
  unfold Zbiggie.loadBody at h
  dsimp only at h
  split at h
  · cases h
  · split at h
    · cases h
      exact of_pcb rfl
    · cases h
      exact of_pcb (Function.update_of_ne hp _ _)

theorem kloadExecToMem {L : Layout} {img : Image} {loc : ExecLocals} {cmd : List Byte} {r : Loaded}
    (h : kloadExecToMem L img loc cmd k = some (r, k')) (hp : (k.task.pcb p).present = true) :
    ArgsKept p k k' := by
  unfold Zbiggie.kloadExecToMem at h
  split at h
  · cases h
  · cases h
    exact refl p k
  · rw [setupNewProcess_eq] at h
    cases hf : findFreePcb k with
    | none =>
        rw [hf] at h
        cases h
        exact refl p k
    | some n =>
        rw [hf] at h
        -- the slot that was free is not the one of a living process
        have hne : p ≠ n := by
          rintro rfl
          have hfree : (k.task.pcb p).present = false := (findFreePcb_some hf).2.2.1
          rw [hp] at hfree
          cases hfree
        exact (newProcess hne k).trans (loadBody h hne)

theorem enter {caller esp : Nat} {out : Option (Loaded × Kernel)} {r : Exec}
    (hout : ∀ l k1, out = some (l, k1) → ArgsKept p k k1)
    (h : enter caller esp out = some (r, k')) : ArgsKept p k k' := by
  rcases out with _ | ⟨l, k1⟩
  · cases h
  · have hk1 := hout l k1 rfl
    cases l with
    | faulted =>
        cases h
        exact hk1
    | returned v =>
        simp only [Zbiggie.enter] at h
        split at h
        · cases h
          exact hk1
        · split at h
          · cases h
            exact hk1
          · cases h
            exact hk1.trans (saveEsp caller esp k1)

theorem execute {L : Layout} {img : Image} {loc : ExecLocals} {esp : Nat} {ptr : Word}
    {cmd : List Byte} {r : Exec} (h : execute L img loc esp ptr cmd k = some (r, k'))
    (hp : (k.task.pcb p).present = true) : ArgsKept p k k' := by
  unfold Zbiggie.execute Zbiggie.loadExecToMem at h
  split at h
  · cases h
    exact refl p k
  · have hsave : ArgsKept p k (saveHist cmd k) := of_pcb rfl
    exact enter (fun l k1 hl => hsave.trans (kloadExecToMem hl (hsave.present.trans hp))) h

theorem launched {L : Layout} {img : Image} {loc : ExecLocals} {esp : Nat}
    (h : launched (launchNewShell L img loc esp k) = some k') (hp : (k.task.pcb p).present = true) :
    ArgsKept p k k' := by
  unfold Zbiggie.launched at h
  split at h
  · rename_i v k1 hl
    cases h
    exact enter (fun l k1 hl => kloadExecToMem hl hp) hl
  · cases h

theorem freeCurrentPcb (hp : p ≠ k.task.currentProcess) : ArgsKept p k (freeCurrentPcb k) := by
  unfold Zbiggie.freeCurrentPcb
  rw [closeLoop_spec k maxFiles (Nat.le_refl 8)]
  exact (setPcb_of_ne hp k _).trans (setPcb_of_ne hp _ _)

theorem halt {L : Layout} {img : Image} {loc : ExecLocals} {esp : Nat} {ebx : Word} {r : Halted}
    (h : halt L img loc esp ebx k = some (r, k')) (hp : (k.task.pcb p).present = true)
    (hne : p ≠ k.task.currentProcess) : ArgsKept p k k' := by
  have hfree := freeCurrentPcb hne
  unfold Zbiggie.halt at h
  dsimp only at h
  split at h
  · obtain ⟨k1, hk1, heq⟩ := Option.map_eq_some_iff.mp h
    cases heq
    exact hfree.trans (launched hk1 (hfree.present.trans hp))
  · cases h
    exact hfree.trans (of_pcb rfl)

theorem nextTask {L : Layout} {img : Image} {loc : ExecLocals} {esp : Nat}
    (h : nextTask L img loc esp k = some k') (hp : (k.task.pcb p).present = true) :
    ArgsKept p k k' := by
  have hqueue : ArgsKept p k (saveQueue k) := of_pcb rfl
  have hnext : ∀ k : Kernel, ArgsKept p k (incrCurrentActiveProcess k) := fun _ => of_pcb rfl
  have hsaved := (hqueue.trans (saveEsp (saveQueue k).task.currentProcess esp _)).trans (hnext _)
  unfold Zbiggie.nextTask at h
  dsimp only at h
  split at h
  · exact hsaved.trans (launched h (hsaved.present.trans hp))
  · cases h
    exact hsaved.trans (of_pcb rfl)

end ArgsKept

/-! ## While the process lives -/

/-- What can happen to the machine, with the inputs each operation takes. -/
inductive LifeAct where
  /-- A tick, an `execute` or a `halt`. -/
  | proc (a : Act)
  /-- A call on a file descriptor. -/
  | fd (c : FdCall)
  | getargs (d : Dentry) (dev : DeviceRead) (r : Regs)
  | key (inp : Byte)
  | write (buf : List Byte)
  | readCall (t : Term) (n : Int) (buf : Mem)
  | readStep (t : Term) (r : Reader)

def lifeStep (L : Layout) (img : Image) (k : Kernel) (a : LifeAct) (k' : Kernel) : Prop :=
  match a with
  | .proc a => procStep L img k a k'
  | .fd c => ∃ v, c.run img k = some (v, k')
  | .getargs d dev r => ∃ v, (Zbiggie.getargs r).run img d dev r k = some (v, k')
  | .key inp => k' = keyHandler L inp k
  | .write buf => k' = termWrite L buf k
  | .readCall t n buf => k' = (termReadCall t n buf k).2
  | .readStep t r => k' = (termReadStep L t r k).2

/-- Not the end of process `p`. -/
def SparesProcess (p : Nat) (k : Kernel) : LifeAct → Prop
  | .proc (.halt ..) => p ≠ k.task.currentProcess
  | _ => True

/-- **One operation** leaves a process that it does not end, and its arguments. -/
theorem argsKept_step {L : Layout} {img : Image} {p : Nat} {k k' : Kernel} {a : LifeAct}
    (hp : (k.task.pcb p).present = true) (hspare : SparesProcess p k a)
    (h : lifeStep L img k a k') : ArgsKept p k k' := by
  cases a with
  | proc a =>
      cases a with
      | tick loc esp => exact ArgsKept.nextTask h hp
      | execute loc esp ptr cmd =>
          obtain ⟨r, hr⟩ := h
          exact ArgsKept.execute hr hp
      | halt loc esp ebx =>
          obtain ⟨r, hr⟩ := h
          exact ArgsKept.halt hr hp hspare
  | fd c =>
      obtain ⟨v, hv⟩ := h
      exact ArgsKept.fdCall hv
  | getargs d dev r =>
      obtain ⟨v, hv⟩ := h
      exact ArgsKept.callRun hv
  | key inp =>
      cases h
      exact ArgsKept.keyHandler L inp k
  | write buf =>
      cases h
      exact ArgsKept.termWrite L buf k
  | readCall t n buf =>
      cases h
      exact (ArgsKept.frame p).setWaitForNl k t true
  | readStep t r =>
      cases h
      exact ArgsKept.termReadStep L t r k

/-- **A run** in which the process does not halt leaves it its arguments. -/
theorem args_kept {L : Layout} {img : Image} {p : Nat} {k k' : Kernel} {as : List LifeAct}
    (hp : (k.task.pcb p).present = true)
    (h : Run (Guarded (lifeStep L img) (SparesProcess p)) k as k') : ArgsKept p k k' := by
  refine Run.invariant (I := ArgsKept p k) (.refl p k) ?_ h
  intro s a t hs hkept
  exact hkept.trans (argsKept_step (hkept.present.trans hp) hs.1 hs.2)

/-! ## The first copy -/

theorem loadBody_arguments {img : Image} {loc : ExecLocals} {f : File} {buf args : Mem} {v : Word}
    {k k' : Kernel} (h : loadBody img loc f buf args k = some (.returned v, k')) :
    k'.task.currentProcess = k.task.currentProcess ∧
      (k'.task.pcb k.task.currentProcess).present
        = (k.task.pcb k.task.currentProcess).present ∧
      (k'.task.pcb k.task.currentProcess).cmdstring
        = strncpy (k.task.pcb k.task.currentProcess).cmdstring args bufSize := by
  unfold loadBody at h
  dsimp only at h
  split at h
  · cases h
  · split at h
    · cases h
    · cases h
      exact ⟨rfl, by simp, by simp⟩

/-- A load that returned anything but the two failure codes made a process. -/
theorem kload_arguments {L : Layout} {img : Image} {loc : ExecLocals} {cmd : List Byte} {v : Word}
    {k k' : Kernel} (h : kloadExecToMem L img loc cmd k = some (.returned v, k')) (h0 : v ≠ -1)
    (h1 : v ≠ 1) : (k'.task.pcb k'.task.currentProcess).present = true ∧
      ∃ dest, (k'.task.pcb k'.task.currentProcess).cmdstring
        = strncpy dest (execArgs loc cmd) bufSize := by
  unfold kloadExecToMem at h
  rcases loadHeader_cases img loc cmd with ⟨hl, _⟩ | ⟨n, _, hl⟩
  · rw [hl] at h
    cases h
    exact absurd rfl h0
  · rw [hl] at h
    dsimp only at h
    rw [setupNewProcess_eq] at h
    cases hf : findFreePcb k with
    | none =>
        rw [hf] at h
        cases h
        exact absurd rfl h1
    | some pid =>
        rw [hf] at h
        obtain ⟨hcur, hpres, hargs⟩ := loadBody_arguments h
        have hpid : (newProcess L pid k).task.pcb pid = startedPcb k.task.currentProcess :=
          Function.update_self ..
        rw [hcur]
        refine ⟨hpres.trans ?_, _, hargs⟩
        rw [show (newProcess L pid k).task.currentProcess = pid from rfl, hpid]
        rfl

/-- **After an `execute` that succeeded**, the current process has the arguments. -/
theorem execute_arguments {L : Layout} {img : Image} {loc : ExecLocals} {esp : Nat}
    {ptr entry : Word} {cmd : List Byte} {k k' : Kernel} (hcmd : cmd.length ≤ bufSize)
    (h : execute L img loc esp ptr cmd k = some (.entered entry, k')) :
    (k'.task.pcb k'.task.currentProcess).present = true ∧
      ∀ j, j < bufSize →
        (k'.task.pcb k'.task.currentProcess).cmdstring j = cstr (argPart cmd) j := by
  unfold execute loadExecToMem at h
  split at h
  · cases h
  · cases hload : kloadExecToMem L img loc cmd (saveHist cmd k) with
    | none =>
        rw [hload] at h
        cases h
    | some out =>
        obtain ⟨l, k1⟩ := out
        rw [hload] at h
        cases l with
        | faulted => cases h
        | returned v =>
            simp only [enter] at h
            split at h
            · cases h
            · rename_i h0
              split at h
              · cases h
              · rename_i h1
                cases h
                -- what is saved after the load is a stack pointer, into a block
                obtain ⟨hpres, dest, hargs⟩ := kload_arguments hload h0 h1
                have hesp := ArgsKept.saveEsp (p := k1.task.currentProcess) k.task.currentProcess
                  esp k1
                refine ⟨hesp.present.trans hpres, ?_⟩
                intro j hj
                rw [← strncpy_execArgs hcmd loc dest hj, ← hargs]
                exact congrFun hesp.cmdstring j

/-! ## The second copy -/

section Getargs

variable {r : Regs} {k : Kernel}

theorem getargs_of_userRange (hbuf : UserRange r.ebx r.ecx.toNat) :
    getargs r = .strncpy r.ebx (BitVec.ofNat 32 (Min.min r.ecx.toNat bufSize)) := by
  have h1 : offset132M = 138412032 := rfl
  have h2 : bufSize = 128 := rfl
  have hn : r.ecx.toInt = r.ecx.toNat := BitVec.toInt_eq_toNat_of_lt (by
    have := hbuf.2
    omega)
  have hmin : min r.ecx.toInt bufSize = ((Min.min r.ecx.toNat bufSize : Nat) : Int) := by
    unfold min
    rw [hn]
    split <;> omega
  unfold getargs
  rw [if_neg hbuf.accepted_word, hmin, BitVec.ofInt_natCast]

/-- The address of a buffer is no count of bytes in it. -/
theorem getargsReturn_of_userRange (hbuf : UserRange r.ebx r.ecx.toNat) : getargsReturn r = 0 := by
  obtain ⟨hlo, hhi⟩ := hbuf
  have h1 : offset128M = 134217728 := rfl
  have h2 : offset132M = 138412032 := rfl
  have hp : r.ebx.toInt = r.ebx.toNat := BitVec.toInt_eq_toNat_of_lt (by omega)
  have hn : r.ecx.toInt = r.ecx.toNat := BitVec.toInt_eq_toNat_of_lt (by omega)
  unfold getargsReturn
  rw [if_neg (by omega)]

/-- **`getargs` on a buffer of the process** returns `0`, with as much of the string as fits. -/
theorem getargs_run (img : Image) (d : Dentry) (dev : DeviceRead) {a : List Byte} (ha : 0 ∉ a)
    (hargs : ∀ j, j < bufSize → k.currentPcb.cmdstring j = cstr a j)
    (hbuf : UserRange r.ebx r.ecx.toNat) :
    ∃ k', (getargs r).run img d dev r k = some (0, k') ∧
      ∀ j, j < r.ecx.toNat → j < bufSize →
        k'.ram (userPhys k.task.currentProcess (r.ebx.toNat + j)) = cstr a j := by
  have h2 : bufSize = 128 := rfl
  -- the count handed on fits a word, and the copy stays in the page of the program
  have hcount : (BitVec.ofNat 32 (Min.min r.ecx.toNat bufSize)).toNat
      = Min.min r.ecx.toNat bufSize := by
    rw [BitVec.toNat_ofNat]
    omega
  rw [getargs_of_userRange hbuf]
  dsimp only [Call.run]
  rw [getargsReturn_of_userRange hbuf]
  refine ⟨_, rfl, ?_⟩
  intro j hj hj'
  have haddr : userPhys k.task.currentProcess (r.ebx.toNat + j)
      = userPhys k.task.currentProcess r.ebx.toNat + j := by
    have := hbuf.1
    unfold userPhys
    omega
  show memcpy k.ram _ _ _ _ = _
  rw [haddr, memcpy_apply, hcount, if_pos (by omega), strncpy_apply, if_pos (by omega),
    upToNul_of_reads ha fun i hi _ => hargs i (by omega)]
  unfold cstr
  rw [Nat.add_sub_cancel_left, List.getD_eq_getElem?_getD, List.getElem?_take_of_lt (by omega),
    List.getD_eq_getElem?_getD]

end Getargs

/-! ## Both -/

/-- What `getargs` is for: all of `a` and its terminator, or `-1`. -/
def GetargsMeets (img : Image) (d : Dentry) (dev : DeviceRead) (r : Regs) (k : Kernel)
    (a : List Byte) : Prop :=
  ∃ v k', (getargs r).run img d dev r k = some (v, k') ∧
    (a.length + 1 ≤ r.ecx.toNat → v = 0 ∧ ∀ j, j ≤ a.length →
      k'.ram (userPhys k.task.currentProcess (r.ebx.toNat + j)) = cstr a j) ∧
    (r.ecx.toNat < a.length + 1 → v = -1)

/--
**When the arguments come back.** After any command of fewer than 128 bytes that was
executed, at any time in the life of the process it started: `getargs` on a buffer of
the process does what it is for exactly when the arguments fit the buffer. When they do
not, it cuts them off and reports success.
-/
theorem getargs_meets_iff {L : Layout} {img : Image} {loc : ExecLocals} {esp : Nat}
    {ptr entry : Word} {cmd : List Byte} {k k₁ k₂ : Kernel} {as : List LifeAct}
    (hcmd : cmd.length < 128) (hexec : execute L img loc esp ptr cmd k = some (.entered entry, k₁))
    (hrun : Run (Guarded (lifeStep L img) (SparesProcess k₁.task.currentProcess)) k₁ as k₂)
    (hcur : k₂.task.currentProcess = k₁.task.currentProcess) (d : Dentry) (dev : DeviceRead)
    {r : Regs} (hbuf : UserRange r.ebx r.ecx.toNat) :
    GetargsMeets img d dev r k₂ (argPart cmd) ↔ (argPart cmd).length + 1 ≤ r.ecx.toNat := by
  have hlen := argPart_length_le cmd
  obtain ⟨hpres, hargs⟩ := execute_arguments (Nat.le_of_lt hcmd) hexec
  have hkept := args_kept hpres hrun
  -- from the first copy to the second, through the run
  have hstring : ∀ j, j < bufSize → k₂.currentPcb.cmdstring j = cstr (argPart cmd) j := by
    intro j hj
    unfold Kernel.currentPcb
    rw [hcur, hkept.cmdstring]
    exact hargs j hj
  obtain ⟨k', hget, hread⟩ := getargs_run img d dev (zero_not_mem_argPart cmd) hstring hbuf
  constructor
  · rintro ⟨v, k'', hv, _, hshort⟩
    -- a buffer that is too small still gets a `0` for an answer
    by_contra hlt
    rw [hget] at hv
    cases hv
    exact absurd (hshort (by omega)) (by decide)
  · intro hfit
    refine ⟨0, k', hget, fun _ => ⟨rfl, fun j hj => hread j (by omega) ?_⟩,
      fun h => absurd h (by omega)⟩
    show j < 128
    omega

/-- The process "a b" started by the shell of terminal `0`. -/
theorem execute_ab : ∃ k', execute someLayout (oneFile [0x61] (headerOnly 0x40)) someLocals 0
    0x08000000 [0x61, 0x20, 0x62] (newProcess someLayout 1 .zero) = some (.entered 0x40, k') := by
  have hn : HeaderOf (oneFile [0x61] (headerOnly 0x40)) someLocals [0x61, 0x20, 0x62] 0 :=
    ⟨0, by decide, by decide, by decide, by decide⟩
  have hfit : BodyFits (oneFile [0x61] (headerOnly 0x40)) 0 := by
    unfold BodyFits
    decide
  have hfree : FirstFree (procs (newProcess someLayout 1 .zero)).present 2 := by
    refine ⟨by decide, by decide, by decide, ?_⟩
    intro m h1 h2
    obtain rfl : m = 1 := by omega
    decide
  rcases execute_spec someLayout (oneFile [0x61] (headerOnly 0x40)) someLocals 0 0x08000000
    [0x61, 0x20, 0x62] (newProcess someLayout 1 .zero) with ⟨hptr, _⟩ | ⟨_, r, k', hex, hout⟩
  · exact absurd hptr (by decide)
  · obtain ⟨_, hr⟩ := hout.of_loads hn hfit hfree
    rw [if_neg (by decide)] at hr
    subst hr
    exact ⟨k', hex⟩

/-- Registers for `getargs` into the first `n` bytes of the program page. -/
def argRegs (n : Word) : Regs := ⟨7, 0x08000000, n, 0⟩

/-- It gets its "b" into two bytes. -/
theorem getargs_meets_ab : ∃ k₁ : Kernel, execute someLayout (oneFile [0x61] (headerOnly 0x40))
      someLocals 0 0x08000000 [0x61, 0x20, 0x62] (newProcess someLayout 1 .zero)
        = some (.entered 0x40, k₁) ∧
    GetargsMeets (oneFile [0x61] (headerOnly 0x40)) someLocals.d ⟨0, fun _ => 0⟩ (argRegs 2) k₁
      (argPart [0x61, 0x20, 0x62]) := by
  obtain ⟨k₁, hexec⟩ := execute_ab
  exact ⟨k₁, hexec, (getargs_meets_iff (by decide) hexec .nil rfl _ _
    ⟨by decide, by decide⟩).mpr (by decide)⟩

/-- And into one, where it does not fit, it is told that it did. -/
theorem getargs_truncates_ab : ∃ k₁ k₂ : Kernel, execute someLayout
      (oneFile [0x61] (headerOnly 0x40)) someLocals 0 0x08000000 [0x61, 0x20, 0x62]
        (newProcess someLayout 1 .zero) = some (.entered 0x40, k₁) ∧
    UserRange (argRegs 1).ebx (argRegs 1).ecx.toNat ∧ argPart [0x61, 0x20, 0x62] = [0x62] ∧
    (getargs (argRegs 1)).run (oneFile [0x61] (headerOnly 0x40)) someLocals.d ⟨0, fun _ => 0⟩
      (argRegs 1) k₁ = some (0, k₂) ∧
    ¬ GetargsMeets (oneFile [0x61] (headerOnly 0x40)) someLocals.d ⟨0, fun _ => 0⟩ (argRegs 1) k₁
      (argPart [0x61, 0x20, 0x62]) := by
  obtain ⟨k₁, hexec⟩ := execute_ab
  have hrange : UserRange (argRegs 1).ebx (argRegs 1).ecx.toNat := ⟨by decide, by decide⟩
  obtain ⟨k₂, hget, _⟩ := getargs_run (oneFile [0x61] (headerOnly 0x40)) someLocals.d
    ⟨0, fun _ => 0⟩ (zero_not_mem_argPart [0x61, 0x20, 0x62])
    (execute_arguments (by decide) hexec).2 hrange
  refine ⟨k₁, k₂, hexec, hrange, by decide, hget, ?_⟩
  rintro ⟨v, k', hv, _, hshort⟩
  rw [hget] at hv
  cases hv
  exact absurd (hshort (by decide)) (by decide)

end Zbiggie.Proof
