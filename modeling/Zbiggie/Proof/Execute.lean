import Zbiggie.Proof.Loader

/-!
# What `execute` does to the process table

`execute` and the shell launcher come to one of three things: nothing happened to
the process table, or the first free PCB was taken and entered, or it was taken
and the load did not go through after all. The last case is where failure stops
being atomic: the caller is told `-1`, and the current process is no longer the
caller.
-/

namespace Zbiggie.Proof

open Zbiggie Machine

/-- The word the loader reads back from offset 24 of the program it has loaded. -/
def entryWord (img : Image) (loc : ExecLocals) (n : Word) : Word :=
  loadWord (headerBuf img loc n) 24

/-- The two entry addresses that `execute` takes for an error of the loader. -/
def IsFailCode (v : Word) : Prop := v = -1 ∨ v = 1

instance (v : Word) : Decidable (IsFailCode v) := inferInstanceAs (Decidable (_ ∨ _))

/-- **The loader, from any state.** It fails before touching the process table, or allocates. -/
theorem kloadExecToMem_cases (L : Layout) (img : Image) (loc : ExecLocals) (cmd : List Byte)
    (k : Kernel) :
    (kloadExecToMem L img loc cmd k = some (.returned (-1), k) ∧ ∀ n, ¬ HeaderOf img loc cmd n) ∨
    (kloadExecToMem L img loc cmd k = some (.returned 1, k) ∧ Full (procs k).present) ∨
    ∃ n pid k', HeaderOf img loc cmd n ∧ FirstFree (procs k).present pid ∧
      procs k' = (procs k).alloc pid ∧
      ((BodyFits img n ∧
          kloadExecToMem L img loc cmd k = some (.returned (entryWord img loc n), k')) ∨
        (¬ BodyFits img n ∧ kloadExecToMem L img loc cmd k = some (.faulted, k'))) := by
  unfold kloadExecToMem
  rcases loadHeader_cases img loc cmd with ⟨hfail, hno⟩ | ⟨n, hn, hload⟩
  · left
    rw [hfail]
    exact ⟨rfl, hno⟩
  · right
    rw [hload]
    dsimp only
    rw [setupNewProcess_eq]
    cases hfree : findFreePcb k with
    | none =>
        left
        exact ⟨rfl, findFreePcb_none hfree⟩
    | some pid =>
        right
        obtain ⟨k', hload, hk⟩ := loadBody_spec img loc n (headerBuf img loc n)
          (execArgs loc cmd) (newProcess L pid k)
        exact ⟨n, pid, k', hn, findFreePcb_some hfree, by rw [hload.procs, procs_newProcess], hk⟩

theorem procs_saveEsp (pid esp : Nat) (k : Kernel) : procs (saveEsp pid esp k) = procs k := by
  simp only [procs, saveEsp, Kernel.setPcb]
  congr 1 <;> funext p <;> by_cases hp : p = pid <;> simp [hp]

/-- The ways an `execute`, or a shell launch, can end; `v` is the table it started from. -/
inductive ExecOutcome (img : Image) (loc : ExecLocals) (cmd : List Byte) (v : ProcView) :
    Exec → ProcView → Prop where
  /-- No such program. -/
  | missing : (∀ n, ¬ HeaderOf img loc cmd n) → ExecOutcome img loc cmd v .failed v
  /-- No PCB. -/
  | full : Full v.present → ExecOutcome img loc cmd v .failed v
  /-- The program is loaded and entered. -/
  | entered {n : Word} {pid : Nat} : HeaderOf img loc cmd n → FirstFree v.present pid →
      BodyFits img n → ¬ IsFailCode (entryWord img loc n) →
      ExecOutcome img loc cmd v (.entered (entryWord img loc n)) (v.alloc pid)
  /-- The program is loaded, and its entry address reads as an error. -/
  | misread {n : Word} {pid : Nat} : HeaderOf img loc cmd n → FirstFree v.present pid →
      BodyFits img n → IsFailCode (entryWord img loc n) →
      ExecOutcome img loc cmd v .failed (v.alloc pid)
  /-- The program does not fit its page. -/
  | faulted {n : Word} {pid : Nat} : HeaderOf img loc cmd n → FirstFree v.present pid →
      ¬ BodyFits img n → ExecOutcome img loc cmd v .faulted (v.alloc pid)

/-- The tail of `execute` on top of a load. -/
theorem enter_kload_spec (L : Layout) (img : Image) (loc : ExecLocals) (caller esp : Nat)
    (cmd : List Byte) (k : Kernel) :
    ∃ r k', enter caller esp (kloadExecToMem L img loc cmd k) = some (r, k') ∧
      ExecOutcome img loc cmd (procs k) r (procs k') := by
  rcases kloadExecToMem_cases L img loc cmd k with
    ⟨hl, hno⟩ | ⟨hl, hfull⟩ | ⟨n, pid, k', hn, hfree, hp, ⟨hfit, hl⟩ | ⟨hfit, hl⟩⟩
  · exact ⟨.failed, k, by rw [hl]; rfl, .missing hno⟩
  · exact ⟨.failed, k, by rw [hl]; rfl, .full hfull⟩
  · rw [hl]
    by_cases hcode : IsFailCode (entryWord img loc n)
    · refine ⟨.failed, k', ?_, hp ▸ .misread hn hfree hfit hcode⟩
      simp only [enter]
      split
      · rfl
      · rw [if_pos (by rcases hcode with h | h <;> [contradiction; exact h])]
    · refine ⟨.entered (entryWord img loc n), saveEsp caller esp k', ?_, ?_⟩
      · simp only [enter]
        rw [if_neg (fun h => hcode (.inl h)), if_neg (fun h => hcode (.inr h))]
      · rw [procs_saveEsp, hp]
        exact .entered hn hfree hfit hcode
  · exact ⟨.faulted, k', by rw [hl]; rfl, hp ▸ .faulted hn hfree hfit⟩

/-- **`execute` always comes to an end, and in one of these ways.** -/
theorem execute_spec (L : Layout) (img : Image) (loc : ExecLocals) (esp : Nat) (ptr : Word)
    (cmd : List Byte) (k : Kernel) :
    (usrPtrOk ptr (BitVec.ofNat 32 cmd.length) = 0 ∧
        execute L img loc esp ptr cmd k = some (.failed, k)) ∨
      (usrPtrOk ptr (BitVec.ofNat 32 cmd.length) ≠ 0 ∧
        ∃ r k', execute L img loc esp ptr cmd k = some (r, k') ∧
          ExecOutcome img loc cmd (procs k) r (procs k')) := by
  unfold execute loadExecToMem
  by_cases hptr : usrPtrOk ptr (BitVec.ofNat 32 cmd.length) = 0
  · left
    exact ⟨hptr, if_pos hptr⟩
  · right
    rw [if_neg hptr]
    exact ⟨hptr, enter_kload_spec L img loc k.task.currentProcess esp cmd (saveHist cmd k)⟩

theorem launchNewShell_spec (L : Layout) (img : Image) (loc : ExecLocals) (esp : Nat)
    (k : Kernel) :
    ∃ r k', launchNewShell L img loc esp k = some (r, k') ∧
      ExecOutcome img loc execstring (procs k) r (procs k') :=
  enter_kload_spec L img loc k.task.currentProcess esp execstring k

theorem FirstFree.not_full {present : Nat → Bool} {n : Nat} (h : FirstFree present n) :
    ¬ Full present := by
  intro hf
  have := hf n h.1 h.2.1
  rw [h.2.2.1] at this; cases this

/-- A program that loads, given a free PCB: only the entry word is left to decide. -/
theorem ExecOutcome.of_loads {img : Image} {loc : ExecLocals} {cmd : List Byte} {v v' : ProcView}
    {r : Exec} {n : Word} {pid : Nat} (h : ExecOutcome img loc cmd v r v')
    (hn : HeaderOf img loc cmd n) (hfit : BodyFits img n) (hfree : FirstFree v.present pid) :
    v' = v.alloc pid ∧
      r = if IsFailCode (entryWord img loc n) then .failed else .entered (entryWord img loc n) := by
  cases h with
  | missing hno => exact absurd hn (hno n)
  | full hf => exact absurd hf hfree.not_full
  | entered hm hp _ hc => cases hm.unique hn; exact ⟨by rw [hp.unique hfree], (if_neg hc).symm⟩
  | misread hm hp _ hc => cases hm.unique hn; exact ⟨by rw [hp.unique hfree], (if_pos hc).symm⟩
  | faulted hm _ hne => cases hm.unique hn; exact absurd hfit hne

/-! ## Failure -/

/-- Taking a free PCB shows. -/
theorem alloc_ne {v : ProcView} {n : Nat} (h : v.present n = false) : v.alloc n ≠ v := by
  intro he
  have hp : (v.alloc n).present n = v.present n := by rw [he]
  rw [ProcView.alloc_present, Function.update_self, h] at hp
  cases hp

/--
The command names a loadable program whose entry word is one of the loader's error
codes, and there is a PCB to load it into.
-/
def EntryReadsAsFailure (img : Image) (loc : ExecLocals) (cmd : List Byte)
    (present : Nat → Bool) : Prop :=
  ¬ Full present ∧ ∃ n, HeaderOf img loc cmd n ∧ BodyFits img n ∧ IsFailCode (entryWord img loc n)

/--
**When a failed `execute` is atomic.** If the call answers `-1`, the process table,
the selected page directory and `tss.esp0` are as before the call — except that a
loadable program whose entry word is `-1` or `1`, given a free PCB, is set up as
the current process and then reported as not loaded.
-/
theorem execute_failure_atomic_iff (L : Layout) (img : Image) (loc : ExecLocals) (esp : Nat)
    (ptr : Word) (cmd : List Byte) (k : Kernel) :
    (∀ k', execute L img loc esp ptr cmd k = some (.failed, k') → procs k' = procs k) ↔
      ¬ (usrPtrOk ptr (BitVec.ofNat 32 cmd.length) ≠ 0 ∧
          EntryReadsAsFailure img loc cmd (procs k).present) := by
  rcases execute_spec L img loc esp ptr cmd k with ⟨hptr, hex⟩ | ⟨hptr, r, k', hex, hout⟩
  · rw [hex]
    simp only [hptr, ne_eq, not_true_eq_false, false_and, not_false_eq_true, iff_true]
    intro k' hk
    cases hk
    rfl
  · rw [hex]
    constructor
    · rintro hatomic ⟨_, hroom, n, hn, hfit, hcode⟩
      generalize hv : procs k' = v' at hout
      cases hout with
      | missing hno => exact hno n hn
      | full hf => exact hroom hf
      | entered hm _ _ hne =>
          rw [hm.unique hn] at hne
          exact hne hcode
      | misread _ hfree _ _ =>
          have := hatomic k' rfl
          rw [hv] at this
          exact alloc_ne hfree.2.2.1 this
      | faulted hm _ hne =>
          rw [hm.unique hn] at hne
          exact hne hfit
    · intro hcond k'' hk
      cases hk
      generalize hv : procs k' = v' at hout
      cases hout with
      | missing _ => rfl
      | full _ => rfl
      | misread hn hfree hfit hcode => exact absurd ⟨hptr, hfree.not_full, _, hn, hfit, hcode⟩ hcond

/-! ## An image on which it is not -/

/-- Page tables at two addresses inside the kernel's 4M. -/
def someLayout : Layout where
  lowMemoryTable := 0x401000
  videoTable := 0x402000
  low_aligned := by decide
  video_aligned := by decide
  ne := by decide

/-- Locals that happen to be zero. -/
def someLocals : ExecLocals where
  f := .zero
  exec := fun _ => 0
  args := fun _ => 0
  buf := fun _ => 0
  d := ⟨fun _ => 0, 0, 0, fun _ => 0⟩
  dentry := ⟨fun _ => 0, 0, 0, fun _ => 0⟩

/-- A disk with one regular file, of at most 255 bytes. -/
def oneFile (name data : List Byte) : Image where
  bytes := fun a =>
    if a = 0 ∨ a = 4 then 1
    else if 64 ≤ a ∧ a < 96 then name.getD (a - 64) 0
    else if a = 96 then 2
    else if a = 4096 then BitVec.ofNat 8 data.length
    else if 8192 ≤ a then data.getD (a - 8192) 0
    else 0

/-- A program that is nothing but a header with this entry word's low byte. -/
def headerOnly (entry : Byte) : List Byte :=
  [0x7F, 0x45, 0x4C, 0x46] ++ List.replicate 20 0 ++ [entry, 0, 0, 0]

/--
The shell in terminal `0` executes a program whose entry word is `1`: the answer
is `-1`, and the current process is the one that was reported as not loaded.
-/
theorem execute_fails_in_new_process :
    let k := newProcess someLayout 1 .zero
    ∃ k', execute someLayout (oneFile [0x61] (headerOnly 1)) someLocals 0 0x08000000 [0x61] k
        = some (.failed, k') ∧
      k.task.currentProcess = 1 ∧ k'.task.currentProcess = 2 ∧ procs k' ≠ procs k := by
  intro k
  have hn : HeaderOf (oneFile [0x61] (headerOnly 1)) someLocals [0x61] 0 :=
    ⟨0, by decide, by decide, by decide, by decide⟩
  have hfit : BodyFits (oneFile [0x61] (headerOnly 1)) 0 := by
    unfold BodyFits; decide
  have hfree : FirstFree (procs k).present 2 := by
    refine ⟨by decide, by decide, by decide, ?_⟩
    intro m h1 h2
    obtain rfl : m = 1 := by omega
    decide
  rcases execute_spec someLayout (oneFile [0x61] (headerOnly 1)) someLocals 0 0x08000000 [0x61] k
    with ⟨hptr, _⟩ | ⟨_, r, k', hex, hout⟩
  · exact absurd hptr (by decide)
  · obtain ⟨hv, hr⟩ := hout.of_loads hn hfit hfree
    rw [if_pos (by decide)] at hr
    subst hr
    refine ⟨k', hex, rfl, ?_, ?_⟩
    · exact congrArg ProcView.current hv
    · rw [hv]
      exact alloc_ne hfree.2.2.1

end Zbiggie.Proof
