import Zbiggie.Proof.ProcStep
import Zbiggie.Proof.PageTables

/-!
# What a change of process leaves alone

A tick, an `execute` and a `halt` change the process table, the selected directory,
the low video entry and the program page of a process being loaded. They do not
touch a screen. This file says so for the whole machine, where `ProcStep` only
spoke of the process table: every one of them amounts to some bookkeeping that
memory and page tables do not see (`Plain`), followed by nothing, by one
`switch_context`, or by a new process (`Started`).
-/

namespace Zbiggie.Proof

open Zbiggie Machine

/-! ## Bookkeeping -/

/-- `p` is a process the table can lead to: running, selected, queued or a parent. -/
def Refers (v : ProcView) (p : Nat) : Prop :=
  p = v.current ∨ p = v.cr3 ∨ (∃ t, p = v.processes t) ∨ ∃ q, p = v.parent q

theorem refers_switch {v : ProcView} {p q : Nat} (h : Refers (v.switch p) q) :
    q = p ∨ Refers v q := by
  rcases h with h | h | h | h
  · exact .inl h
  · exact .inl h
  · exact .inr (.inr (.inr (.inl h)))
  · exact .inr (.inr (.inr (.inr h)))

theorem refers_alloc {v : ProcView} {n q : Nat} (h : Refers (v.alloc n) q) :
    q = n ∨ Refers v q := by
  rcases h with h | h | h | ⟨r, h⟩
  · exact .inl h
  · exact .inl h
  · exact .inr (.inr (.inr (.inl h)))
  · right
    by_cases hr : r = n
    · subst hr
      rw [ProcView.alloc_parent, Function.update_self] at h
      exact .inl h
    · rw [ProcView.alloc_parent, Function.update_of_ne hr] at h
      exact .inr (.inr (.inr ⟨r, h⟩))

theorem refers_enqueue {v : ProcView} {q : Nat} (h : Refers v.enqueue q) : Refers v q := by
  rcases h with h | h | ⟨t, h⟩ | h
  · exact .inl h
  · exact .inr (.inl h)
  · by_cases ht : t = v.active
    · subst ht
      rw [ProcView.enqueue_processes, Function.update_self] at h
      exact .inl h
    · rw [ProcView.enqueue_processes, Function.update_of_ne ht] at h
      exact .inr (.inr (.inl ⟨t, h⟩))
  · exact .inr (.inr (.inr h))

/-- Of the terminals' variables, only the history may have changed. -/
structure TermKept (k k' : Kernel) : Prop where
  buffer : k'.term.buffer = k.term.buffer
  curPos : k'.term.curPos = k.term.curPos
  curSize : k'.term.curSize = k.term.curSize
  writeX : k'.term.writeX = k.term.writeX
  writeY : k'.term.writeY = k.term.writeY
  waitForNl : k'.term.waitForNl = k.term.waitForNl

theorem TermKept.of_term {k k' : Kernel} (h : k'.term = k.term) : TermKept k k' := by
  constructor <;> rw [h]

theorem TermKept.trans {k k' k'' : Kernel} (h : TermKept k k') (h' : TermKept k' k'') :
    TermKept k k'' :=
  ⟨h'.buffer.trans h.buffer, h'.curPos.trans h.curPos, h'.curSize.trans h.curSize,
    h'.writeX.trans h.writeX, h'.writeY.trans h.writeY, h'.waitForNl.trans h.waitForNl⟩

/-- Page tables, memory, cursors and lines are the same, and the table leads nowhere new. -/
structure Plain (k k' : Kernel) : Prop where
  page : k'.page = k.page
  ram : k'.ram = k.ram
  screen : k'.screen = k.screen
  keys : k'.keys = k.keys
  term : TermKept k k'
  refers : ∀ p, Refers (procs k') p → Refers (procs k) p

theorem Plain.refl (k : Kernel) : Plain k k :=
  ⟨rfl, rfl, rfl, rfl, .of_term rfl, fun _ h => h⟩

theorem plain_tick (esp : Nat) (k : Kernel) :
    Plain k (incrCurrentActiveProcess (saveEsp k.task.currentProcess esp (saveQueue k))) :=
  ⟨rfl, rfl, rfl, rfl, .of_term rfl, fun p h => refers_enqueue (by rwa [procs_tick] at h)⟩

theorem plain_saveHist (cmd : List Byte) (k : Kernel) : Plain k (saveHist cmd k) :=
  ⟨rfl, rfl, rfl, rfl, ⟨rfl, rfl, rfl, rfl, rfl, rfl⟩, fun _ h => h⟩

theorem plain_freeCurrentPcb (k : Kernel) : Plain k (freeCurrentPcb k) := by
  have hrefers : ∀ p, Refers (procs (freeCurrentPcb k)) p → Refers (procs k) p := by
    intro p h
    rw [procs_freeCurrentPcb] at h
    exact h
  unfold freeCurrentPcb at hrefers ⊢
  rw [closeLoop_spec k maxFiles (by simp [maxFiles])] at hrefers ⊢
  exact ⟨rfl, rfl, rfl, rfl, .of_term rfl, hrefers⟩

/-! ## A new process -/

/-- Process `n` has been set up and its program is, or was being, loaded. -/
structure Started (L : Layout) (n : Nat) (k k' : Kernel) : Prop where
  table : procs k' = (procs k).alloc n
  page : k'.page = (newProcess L n k).page
  screen : k'.screen = k.screen
  keys : k'.keys = k.keys
  term : TermKept k k'
  ram : ∀ a, a < (n + 1) * offset4M ∨ (n + 2) * offset4M ≤ a → k'.ram a = k.ram a

theorem kloadExecToMem_started {L : Layout} {img : Image} {loc : ExecLocals} {cmd : List Byte}
    {k k' : Kernel} {r : Loaded} (h : kloadExecToMem L img loc cmd k = some (r, k')) :
    k' = k ∨ ∃ n, FirstFree (procs k).present n ∧ Started L n k k' := by
  unfold kloadExecToMem at h
  rcases loadHeader_cases img loc cmd with ⟨hfail, _⟩ | ⟨m, _, hload⟩
  · rw [hfail] at h
    cases h
    exact .inl rfl
  · rw [hload, setupNewProcess_eq] at h
    dsimp only at h
    cases hfree : findFreePcb k with
    | none =>
        rw [hfree] at h
        cases h
        exact .inl rfl
    | some n =>
        rw [hfree] at h
        obtain ⟨k1, hk1, hbody⟩ := loadBody_spec img loc m (headerBuf img loc m)
          (execArgs loc cmd) (newProcess L n k)
        have hk : k' = k1 := by
          simp only [Option.map_some] at h
          rcases hbody with ⟨_, hb⟩ | ⟨_, hb⟩ <;> · rw [hb] at h; cases h; rfl
        subst hk
        refine .inr ⟨n, findFreePcb_some hfree, ?_, hk1.page, hk1.screen, ?_, .of_term ?_, hk1.ram⟩
        · rw [hk1.procs, procs_newProcess]
        · rw [hk1.keys]; rfl
        · rw [hk1.term]; rfl

theorem Started.saveEsp {L : Layout} {n : Nat} {k k' : Kernel} (h : Started L n k k')
    (pid esp : Nat) : Started L n k (saveEsp pid esp k') :=
  ⟨(procs_saveEsp pid esp k').trans h.table, h.page, h.screen, h.keys,
    h.term.trans (.of_term rfl), h.ram⟩

theorem enter_started {L : Layout} {img : Image} {loc : ExecLocals} {caller esp : Nat}
    {cmd : List Byte} {k k' : Kernel} {r : Exec}
    (h : enter caller esp (kloadExecToMem L img loc cmd k) = some (r, k')) :
    (k' = k ∧ r = .failed) ∨ ∃ n, FirstFree (procs k).present n ∧ Started L n k k' := by
  rcases kloadExecToMem_cases L img loc cmd k with
    ⟨hl, _⟩ | ⟨hl, _⟩ | ⟨m, n, k1, _, hfree, _, ⟨_, hl⟩ | ⟨_, hl⟩⟩
  · rw [hl] at h
    cases h
    exact .inl ⟨rfl, rfl⟩
  · rw [hl] at h
    cases h
    exact .inl ⟨rfl, rfl⟩
  · right
    rcases kloadExecToMem_started hl with rfl | ⟨n', hn', hs⟩
    · rename_i hp
      exact absurd hp.symm (alloc_ne hfree.2.2.1)
    · refine ⟨n', hn', ?_⟩
      rw [hl] at h
      simp only [enter] at h
      split at h
      · cases h; exact hs
      · split at h
        · cases h; exact hs
        · cases h; exact hs.saveEsp caller esp
  · right
    rcases kloadExecToMem_started hl with rfl | ⟨n', hn', hs⟩
    · rename_i hp
      exact absurd hp.symm (alloc_ne hfree.2.2.1)
    · rw [hl] at h
      cases h
      exact ⟨n', hn', hs⟩

/-! ## The three operations -/

/-- What an operation comes to: nothing, or bookkeeping and one change of context. -/
inductive Resched (L : Layout) (k k' : Kernel) : Prop where
  | same : Plain k k' → procs k' = procs k → Resched L k k'
  | switched {k1 : Kernel} {p : Nat} : Plain k k1 → Refers (procs k) p → k' = switchContext p k1 →
      Resched L k k'
  | started {k1 : Kernel} {n : Nat} : Plain k k1 → 1 ≤ n → n ≤ maxPid → Started L n k1 k' →
      Resched L k k'

theorem launched_resched {L : Layout} {img : Image} {loc : ExecLocals} {esp : Nat}
    {k k1 k' : Kernel} (hp : Plain k k1)
    (h : launched (launchNewShell L img loc esp k1) = some k') : Resched L k k' := by
  obtain ⟨r, k2, hl, _⟩ := launchNewShell_spec L img loc esp k1
  rw [hl] at h
  cases r with
  | failed => cases h
  | faulted => cases h
  | entered e =>
      cases h
      rcases enter_started hl with ⟨_, hr⟩ | ⟨n, hn, hs⟩
      · cases hr
      · exact .started hp hn.1 hn.2.1 hs

/-- **Every process-table operation is bookkeeping and at most one change of context.** -/
theorem procStep_resched {L : Layout} {img : Image} {k k' : Kernel} {a : Act}
    (h : procStep L img k a k') : Resched L k k' := by
  cases a with
  | tick loc esp =>
      rw [procStep, nextTask_eq] at h
      split at h
      · exact launched_resched (plain_tick esp k) h
      · cases h
        exact .switched (plain_tick esp k) (.inr (.inr (.inl ⟨_, rfl⟩))) rfl
  | execute loc esp ptr cmd =>
      obtain ⟨r, h⟩ := h
      unfold execute loadExecToMem at h
      split at h
      · cases h
        exact .same (.refl k) rfl
      · rcases enter_started h with ⟨rfl, _⟩ | ⟨n, hn, hs⟩
        · exact .same (plain_saveHist cmd k) rfl
        · exact .started (plain_saveHist cmd k) hn.1 hn.2.1 hs
  | halt loc esp ebx =>
      obtain ⟨r, h⟩ := h
      rw [halt_eq] at h
      split at h
      · obtain ⟨k1, hl, hk⟩ := Option.map_eq_some_iff.mp h
        cases hk
        exact launched_resched (plain_freeCurrentPcb k) hl
      · cases h
        exact .switched (plain_freeCurrentPcb k) (.inr (.inr (.inr ⟨_, rfl⟩))) rfl

theorem Resched.termKept {L : Layout} {k k' : Kernel} (h : Resched L k k') : TermKept k k' := by
  cases h with
  | same hp _ => exact hp.term
  | switched hp _ he => subst he; exact hp.term.trans (.of_term rfl)
  | started hp _ _ hs => exact hp.term.trans hs.term

theorem Resched.keys {L : Layout} {k k' : Kernel} (h : Resched L k k') : k'.keys = k.keys := by
  cases h with
  | same hp _ => exact hp.keys
  | switched hp _ he => subst he; exact hp.keys
  | started hp _ _ hs => exact hs.keys.trans hp.keys

/-- The terminal on display stays on display. -/
theorem Resched.currentTerminal {L : Layout} {k k' : Kernel} (h : Resched L k k') :
    k'.page.currentTerminal = k.page.currentTerminal := by
  cases h with
  | same hp _ => rw [hp.page]
  | @switched k1 p hp _ he =>
      subst he
      show k1.page.currentTerminal = _
      rw [hp.page]
  | @started k1 n hp _ _ hs =>
      rw [hs.page]
      show k1.page.currentTerminal = _
      rw [hp.page]

end Zbiggie.Proof
