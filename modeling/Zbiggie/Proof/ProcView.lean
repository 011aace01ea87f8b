import Zbiggie.Kernel.Syscall

/-!
# The process table

The scheduler, `execute` and `halt` touch a great deal of the machine, but they
decide everything from a few fields: the run queue, the current process, and each
PCB's `present`, `parent` and file table. `ProcView` is that part, together with
the page directory and the stack pointer a context switch selects.

Three moves on a view are enough to say what each operation does to it:

* `alloc n` — process `n` set up as a child of the current one, and entered;
* `switch p` — the context of `p` selected;
* `release` — the current process's PCB given back;
* `enqueue` — the current process noted in its run-queue slot, the next slot active.

The second half of this file proves that the kernel's operations are those moves.
-/

namespace Zbiggie.Proof

open Zbiggie Machine

/-- What the process-management code can tell about a machine. -/
@[ext] structure ProcView where
  processes : Term → Nat
  current : Nat
  active : Term
  present : Nat → Bool
  parent : Nat → Nat
  files : Nat → Fin 8 → File
  cr3 : Nat
  tssEsp0 : Nat

/-- The view of a machine. -/
def procs (k : Kernel) : ProcView where
  processes := k.task.processes
  current := k.task.currentProcess
  active := k.task.currentActiveProcess
  present := fun p => (k.task.pcb p).present
  parent := fun p => (k.task.pcb p).parent
  files := fun p => (k.task.pcb p).f
  cr3 := k.page.cr3
  tssEsp0 := k.task.tssEsp0

/-- The file table of a process that was just set up. -/
def stdFiles : Fin 8 → File := fun i =>
  if i = 0 then ⟨.stdin, 0, 0, 1⟩ else if i = 1 then ⟨.stdout, 0, 0, 1⟩ else .zero

/-- `n` is the first free PCB. -/
def FirstFree (present : Nat → Bool) (n : Nat) : Prop :=
  1 ≤ n ∧ n ≤ maxPid ∧ present n = false ∧ ∀ m, 1 ≤ m → m < n → present m = true

/-- Every PCB is taken. -/
def Full (present : Nat → Bool) : Prop := ∀ m, 1 ≤ m → m ≤ maxPid → present m = true

theorem FirstFree.unique {present : Nat → Bool} {m n : Nat}
    (hm : FirstFree present m) (hn : FirstFree present n) : m = n := by
  rcases Nat.lt_trichotomy m n with h | h | h
  · have := hn.2.2.2 m hm.1 h
    rw [hm.2.2.1] at this; cases this
  · exact h
  · have := hm.2.2.2 n hn.1 h
    rw [hn.2.2.1] at this; cases this

/-- What `close(i)` leaves of slot `i`: the standard descriptors and unused slots stay. -/
def closeSlot (i : Fin 8) (f : File) : File := if 2 ≤ i.val ∧ f.inUse then f.clear else f

namespace ProcView

/-- `switch_context(pid)`. -/
def switch (v : ProcView) (pid : Nat) : ProcView :=
  { v with current := pid, cr3 := pid, tssEsp0 := offset8M - pid * offset8K }

/-- `setup_new_process` on the PCB `n`. -/
def alloc (v : ProcView) (n : Nat) : ProcView :=
  switch { v with
    present := Function.update v.present n true
    parent := Function.update v.parent n v.current
    files := Function.update v.files n stdFiles } n

/-- `free_current_pcb`, which leaves the descriptors `0` and `1` as they are. -/
def release (v : ProcView) : ProcView :=
  { v with
    present := Function.update v.present v.current false
    files := Function.update v.files v.current fun i => closeSlot i (v.files v.current i) }

/-- `save_queue` and `incr_current_active_process`. -/
def enqueue (v : ProcView) : ProcView :=
  { v with
    processes := Function.update v.processes v.active v.current
    active := v.active + 1 }

@[simp] theorem switch_current (v : ProcView) (p : Nat) : (v.switch p).current = p := rfl
@[simp] theorem switch_processes (v : ProcView) (p : Nat) :
    (v.switch p).processes = v.processes := rfl
@[simp] theorem switch_active (v : ProcView) (p : Nat) : (v.switch p).active = v.active := rfl
@[simp] theorem switch_present (v : ProcView) (p : Nat) : (v.switch p).present = v.present := rfl
@[simp] theorem switch_parent (v : ProcView) (p : Nat) : (v.switch p).parent = v.parent := rfl

@[simp] theorem alloc_current (v : ProcView) (n : Nat) : (v.alloc n).current = n := rfl
@[simp] theorem alloc_processes (v : ProcView) (n : Nat) :
    (v.alloc n).processes = v.processes := rfl
@[simp] theorem alloc_active (v : ProcView) (n : Nat) : (v.alloc n).active = v.active := rfl
@[simp] theorem alloc_present (v : ProcView) (n : Nat) :
    (v.alloc n).present = Function.update v.present n true := rfl
@[simp] theorem alloc_parent (v : ProcView) (n : Nat) :
    (v.alloc n).parent = Function.update v.parent n v.current := rfl

@[simp] theorem release_current (v : ProcView) : v.release.current = v.current := rfl
@[simp] theorem release_processes (v : ProcView) : v.release.processes = v.processes := rfl
@[simp] theorem release_active (v : ProcView) : v.release.active = v.active := rfl
@[simp] theorem release_present (v : ProcView) :
    v.release.present = Function.update v.present v.current false := rfl
@[simp] theorem release_parent (v : ProcView) : v.release.parent = v.parent := rfl

@[simp] theorem enqueue_current (v : ProcView) : v.enqueue.current = v.current := rfl
@[simp] theorem enqueue_processes (v : ProcView) :
    v.enqueue.processes = Function.update v.processes v.active v.current := rfl
@[simp] theorem enqueue_active (v : ProcView) : v.enqueue.active = v.active + 1 := rfl
@[simp] theorem enqueue_present (v : ProcView) : v.enqueue.present = v.present := rfl
@[simp] theorem enqueue_parent (v : ProcView) : v.enqueue.parent = v.parent := rfl

end ProcView

/-! ## `find_free_pcb` -/

/--
The scan stops at the first free PCB, or past the last one. The induction is on
the increments left; `i + fuel` stays one past the last PCB.
-/
theorem findFreeLoop_spec (k : Kernel) : ∀ (fuel i : Nat), i + fuel = maxPid + 1 →
    i ≤ findFreeLoop k fuel i ∧ findFreeLoop k fuel i ≤ maxPid + 1 ∧
      (∀ m, i ≤ m → m < findFreeLoop k fuel i → (k.task.pcb m).present = true) ∧
      (findFreeLoop k fuel i ≤ maxPid → (k.task.pcb (findFreeLoop k fuel i)).present = false) := by
  intro fuel
  induction fuel with
  | zero =>
      intro i hi
      simp only [findFreeLoop]
      exact ⟨Nat.le_refl _, by omega, fun m h1 h2 => by omega, fun h => by omega⟩
  | succ fuel ih =>
      intro i hi
      rw [findFreeLoop]
      split
      · rename_i hp
        obtain ⟨h1, h2, h3, h4⟩ := ih (i + 1) (by omega)
        refine ⟨by omega, h2, ?_, h4⟩
        intro m hm1 hm2
        rcases Nat.eq_or_lt_of_le hm1 with he | hlt
        · rw [← he]; exact hp.1
        · exact h3 m hlt hm2
      · rename_i hp
        have hi' : i ≤ maxPid := by omega
        have hfree : (k.task.pcb i).present = false := by
          cases h : (k.task.pcb i).present with
          | false => rfl
          | true => exact absurd ⟨h, hi'⟩ hp
        exact ⟨Nat.le_refl _, by omega, fun m h1 h2 => by omega, fun _ => hfree⟩

theorem findFreePcb_some {k : Kernel} {n : Nat} (h : findFreePcb k = some n) :
    FirstFree (procs k).present n := by
  obtain ⟨h1, h2, h3, h4⟩ := findFreeLoop_spec k maxPid 1 (by simp [maxPid])
  simp only [findFreePcb] at h
  split at h
  · cases h
  · rename_i hle
    cases h
    exact ⟨h1, by omega, h4 (by omega), h3⟩

theorem findFreePcb_none {k : Kernel} (h : findFreePcb k = none) : Full (procs k).present := by
  obtain ⟨h1, h2, h3, h4⟩ := findFreeLoop_spec k maxPid 1 (by simp [maxPid])
  simp only [findFreePcb] at h
  split at h
  · rename_i hgt
    exact fun m hm1 hm2 => h3 m hm1 (by omega)
  · cases h

/-! ## Setting up a process -/

/-- The PCB `setup_new_process` leaves. -/
def startedPcb (parent : Nat) : Pcb := { Pcb.fresh parent with f := stdFiles }

/-- The two standard descriptors of a fresh PCB, opened one after the other. -/
theorem openStd_fresh {k : Kernel} {p : Nat} (h : k.currentPcb = .fresh p) :
    openStd .stdout (openStd .stdin k) = k.setPcb k.task.currentProcess (startedPcb p) := by
  have hcur : k.task.pcb k.task.currentProcess = .fresh p := h
  have h0 : firstFree (Pcb.fresh p).f (List.finRange 8) = some 0 := by
    show firstFree (fun _ => File.zero) (List.finRange 8) = some 0
    decide
  have hz : File.zero.claim = ⟨.null, 0, 0, 1⟩ := by decide
  have e1 : openStd .stdin k = k.setPcb k.task.currentProcess
      { Pcb.fresh p with f := Function.update (fun _ => File.zero) 0 ⟨.stdin, 0, 0, 1⟩ } := by
    simp only [openStd, getNewFd, setFile, Kernel.currentPcb, hcur, h0, Kernel.setPcb,
      Function.update_self, Function.update_idem]
    rw [show (Pcb.fresh p).f = fun _ => File.zero from rfl, hz]
  have h1 : firstFree (Function.update (fun _ => File.zero) 0 ⟨.stdin, 0, 0, 1⟩)
      (List.finRange 8) = some 1 := by decide
  have e2 : (Function.update (Function.update (fun _ => File.zero) (0 : Fin 8) ⟨.stdin, 0, 0, 1⟩)
      1 ⟨.stdout, 0, 0, 1⟩) = stdFiles := by
    funext i; revert i; decide
  rw [e1]
  simp only [openStd, getNewFd, setFile, Kernel.currentPcb, Kernel.setPcb,
    Function.update_self, Function.update_idem, h1]
  rw [show startedPcb p = { Pcb.fresh p with f := stdFiles } from rfl, ← e2,
    Function.update_of_ne (by decide), hz]

/-- `setup_new_process` on PCB `n`, as one update of the machine. -/
def newProcess (L : Layout) (n : Nat) (k : Kernel) : Kernel :=
  switchContext n (initPd L n (k.setPcb n (startedPcb k.task.currentProcess)))

theorem setupNewProcess_eq (L : Layout) (k : Kernel) :
    setupNewProcess L k = (findFreePcb k).map (fun n => newProcess L n k) := by
  unfold setupNewProcess
  cases findFreePcb k with
  | none => rfl
  | some n =>
      simp only [Option.map_some]
      rw [openStd_fresh (p := k.task.currentProcess)]
      · simp only [newProcess, switchContext, setVmemTable, setCr3, initPd, Kernel.setPcb,
          Function.update_idem]
        rfl
      · simp [Kernel.currentPcb, switchContext, setVmemTable, setCr3, initPd, Kernel.setPcb]

theorem procs_switchContext (pid : Nat) (k : Kernel) :
    procs (switchContext pid k) = (procs k).switch pid := rfl

/-- **Setting up a process is `alloc`.** -/
theorem procs_newProcess (L : Layout) (n : Nat) (k : Kernel) :
    procs (newProcess L n k) = (procs k).alloc n := by
  unfold newProcess
  rw [procs_switchContext]
  simp only [procs, initPd, Kernel.setPcb, ProcView.alloc, ProcView.switch]
  congr 1 <;> funext p <;> by_cases hp : p = n <;> simp [hp, startedPcb, Pcb.fresh]

/-! ## Releasing a process -/

theorem setFile_eq (k : Kernel) (i : Fin 8) (f : File) :
    setFile k i f = k.setPcb k.task.currentProcess
      { k.currentPcb with f := Function.update k.currentPcb.f i f } := rfl

/-- Rewriting the current PCB's table to itself changes nothing. -/
theorem setPcb_currentPcb (k : Kernel) : k.setPcb k.task.currentProcess k.currentPcb = k := by
  simp [Kernel.setPcb, Kernel.currentPcb]

/-- **`close`, as a function of the slot.** -/
theorem syscallClose_slot (k : Kernel) (i : Fin 8) :
    (syscallClose (i.val : Int) k).2 = setFile k i (closeSlot i (k.currentPcb.f i)) := by
  have hi := i.isLt
  have hsame : setFile k i (k.currentPcb.f i) = k := by
    rw [setFile_eq, Function.update_eq_self]; exact setPcb_currentPcb k
  unfold syscallClose getFile closeSlot
  rw [dif_pos ⟨by omega, by omega⟩]
  simp only [Int.toNat_natCast, Fin.eta]
  by_cases hu : (k.currentPcb.f i).inUse
  · rw [if_pos hu]
    simp only [freeFd]
    by_cases h2 : 2 ≤ i.val
    · rw [dif_pos ⟨by omega, by omega⟩]
      simp [h2, hu]
    · rw [dif_neg (by omega), if_neg (fun h => h2 h.1), hsame]
  · rw [if_neg hu, if_neg (fun h => hu h.2), hsame]

/-- A file table after `close` of every descriptor below `n`. -/
def closedBelow (n : Nat) (f : Fin 8 → File) : Fin 8 → File := fun i =>
  if i.val < n then closeSlot i (f i) else f i

theorem closedBelow_succ {n : Nat} (hn : n < 8) (f : Fin 8 → File) :
    Function.update (closedBelow n f) ⟨n, hn⟩ (closeSlot ⟨n, hn⟩ (f ⟨n, hn⟩))
      = closedBelow (n + 1) f := by
  funext i
  unfold closedBelow
  by_cases hi : i = ⟨n, hn⟩
  · rw [hi, Function.update_self, if_pos (Nat.lt_succ_self n)]
  · have hne : i.val ≠ n := fun h => hi (Fin.ext h)
    rw [Function.update_of_ne hi]
    by_cases hlt : i.val < n
    · rw [if_pos hlt, if_pos (by omega)]
    · rw [if_neg hlt, if_neg (by omega)]

/-- The loop of `free_current_pcb` closes each slot once. -/
theorem closeLoop_spec (k : Kernel) : ∀ n, n ≤ 8 →
    forLoop n (fun i k => (syscallClose i k).2) k
      = k.setPcb k.task.currentProcess { k.currentPcb with f := closedBelow n k.currentPcb.f } := by
  intro n
  induction n with
  | zero => intro _; exact (setPcb_currentPcb k).symm
  | succ n ih =>
      intro hn
      have hslot : ∀ k' : Kernel, (syscallClose n k').2
          = setFile k' ⟨n, hn⟩ (closeSlot ⟨n, hn⟩ (k'.currentPcb.f ⟨n, hn⟩)) :=
        fun k' => syscallClose_slot k' ⟨n, hn⟩
      have hn' : closedBelow n k.currentPcb.f ⟨n, hn⟩ = k.currentPcb.f ⟨n, hn⟩ :=
        if_neg (Nat.lt_irrefl n)
      rw [forLoop_succ, ih (by omega), hslot, ← closedBelow_succ hn]
      simp only [setFile, Kernel.setPcb, Kernel.currentPcb, Function.update_self,
        Function.update_idem] at hn' ⊢
      rw [hn']

/-- **Freeing the current PCB is `release`.** -/
theorem procs_freeCurrentPcb (k : Kernel) : procs (freeCurrentPcb k) = (procs k).release := by
  unfold freeCurrentPcb
  rw [closeLoop_spec k maxFiles (by simp [maxFiles])]
  simp only [procs, ProcView.release, Kernel.setPcb, Kernel.currentPcb]
  congr 1
  · funext p
    by_cases hp : p = k.task.currentProcess <;> simp [hp]
  · funext p
    by_cases hp : p = k.task.currentProcess <;> simp [hp]
  · funext p i
    have h8 : i.val < maxFiles := i.isLt
    by_cases hp : p = k.task.currentProcess <;> simp [hp, closedBelow, h8]

end Zbiggie.Proof
