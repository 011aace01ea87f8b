import Zbiggie.Proof.Parked

/-!
# Saved contexts and the stacks they lie in

A process that waits in the run queue is a stack pointer in its PCB. If two of
them point into one stack, resuming either writes over the other.

What keeps them apart is ownership (`Proof/Parked`): a terminal's code stays on
stacks of its own chain, and the chains have no process in common. Code leaves its
chain's stacks in three places, all behind the `sti` of `switch_context`: in
`next_task` and in `halt` until `%esp` is loaded, and in a shell launched by
`next_task` until its `iret`. The chains themselves run into each other if
`setup_new_process` claims a PCB that another terminal has claimed, or is still
halting in, since `find_free_pcb` looked at it, or if a program takes a base shell's
number. A run in which none of this happens keeps every two contexts apart.
-/

namespace Zbiggie.Proof

open Zbiggie Machine

/-- Terminal `t` waits in the run queue. -/
def Cpu.Queued (m : Cpu) (t : Term) : Prop := m.v.processes t ≠ 0 ∧ t ≠ m.v.active

/-- The contexts saved for the waiting terminals lie in pairwise different kernel stacks. -/
def SavedApart (m : Cpu) : Prop :=
  ∀ t u, t ≠ u → m.Queued t → m.Queued u →
    ∃ a b, m.esp (m.v.processes t) = some a ∧ m.esp (m.v.processes u) = some b ∧
      a.stack ≠ b.stack

/-- The kernel is on a stack that is not the current process's to save. -/
def Pc.astray : Pc → Bool
  | .switched => true
  | .fetched _ => true
  | .left _ => true
  | .load .launch _ => true
  | .save .launch _ => true
  | .enter .launch => true
  | _ => false

/-- The PCB about to be claimed. -/
def Pc.claims : Pc → Option Nat
  | .claim _ _ n => some n
  | _ => none

/--
The condition on a step. No tick while the kernel is on a stack it is leaving; a
PCB is claimed only while it is free and nobody's current process; and nothing is
executed before every other terminal has its shell.
-/
def Calm (m : Cpu) : Ev → Prop
  | .tick => m.pc.astray = false
  | .execute => ∀ t, t ≠ m.v.active → m.v.processes t ≠ 0
  | .run =>
      ∀ n ∈ m.pc.claims, m.v.present n = false ∧ ∀ t, t ≠ m.v.active → m.v.processes t ≠ n
  | _ => True

/-! ## The timer -/

theorem Cpu.interrupt_v (m : Cpu) : m.interrupt.v = m.v := by
  unfold Cpu.interrupt
  split <;> rfl

theorem Cpu.interrupt_esp (m : Cpu) : m.interrupt.esp = m.esp := by
  unfold Cpu.interrupt
  split <;> rfl

/-- `tss.esp0` names the stack of the current process. -/
theorem entry_eq {cur : Nat} (h : cur ≤ maxPid) :
    (offset8M - (offset8M - cur * offset8K)) / offset8K = cur := by
  simp only [maxPid, offset8M, offset4M, offset8K, offset4K] at *
  omega

section Interrupted

variable {m : Cpu} {c : Term → List Nat}

/-- Away from the two ends and the stacks being left, running code stands on its chain. -/
theorem Running.standing {pc : Pc} (h : Running m c pc) (hmask : pc.masked = false)
    (hcalm : pc.astray = false) (hidle : pc ≠ .idle) (huser : pc ≠ .user) (hres : pc ≠ .resume) :
    m.sp ∈ upFrom m.v.current (c m.v.active) ∧
      Standing m.v c m.v.active m.v.current m.sp pc := by
  cases pc with
  | find who p i =>
      cases who with
      | launch => cases hmask
      | _ => exact h
  | claim who p n =>
      cases who with
      | launch => cases hmask
      | _ => exact h
  | switch who p n =>
      cases who with
      | launch => cases hmask
      | _ => exact h
  | load who p =>
      cases who with
      | launch => cases hcalm
      | _ => exact h
  | save who p =>
      cases who with
      | launch => cases hcalm
      | _ => exact h
  | enter who =>
      cases who with
      | launch => cases hcalm
      | _ => exact h
  | idle => exact absurd rfl hidle
  | user => exact absurd rfl huser
  | resume => exact absurd rfl hres
  | left q => cases hcalm
  | switched => cases hcalm
  | fetched q => cases hcalm
  | _ => exact h

/-- The converse: code that stands on its chain is running code. -/
theorem Standing.running {pc : Pc} (hσ : m.sp ∈ upFrom m.v.current (c m.v.active))
    (h : Standing m.v c m.v.active m.v.current m.sp pc) : Running m c pc := by
  cases pc with
  | find who p i =>
      cases who with
      | launch => exact h.elim
      | _ => exact ⟨hσ, h⟩
  | claim who p n =>
      cases who with
      | launch => exact h.elim
      | _ => exact ⟨hσ, h⟩
  | switch who p n =>
      cases who with
      | launch => exact h.elim
      | _ => exact ⟨hσ, h⟩
  | load who p =>
      cases who with
      | launch => exact h.elim
      | _ => exact ⟨hσ, h⟩
  | save who p =>
      cases who with
      | launch => exact h.elim
      | _ => exact ⟨hσ, h⟩
  | enter who =>
      cases who with
      | launch => exact h.elim
      | _ => exact ⟨hσ, h⟩
  | user => exact h
  | exec => exact ⟨hσ, h⟩
  | call => exact ⟨hσ, h⟩
  | halt => exact ⟨hσ, h⟩
  | freed => exact ⟨hσ, h⟩
  | parent q => exact ⟨hσ, h⟩
  | ret => exact ⟨hσ, h⟩
  | _ => exact h.elim

/-- Where an interrupt puts its frame, and what the frame holds. -/
theorem Laid.interrupt (h : Laid m c) (hrun : Running m c m.pc) (hmask : m.pc.masked = false)
    (hcalm : m.pc.astray = false) (hidle : m.pc ≠ .idle) :
    ∃ fs, m.interrupt.kstack = Function.update m.kstack m.interrupt.sp (.intr m.pc :: fs) ∧
      m.interrupt.sp ∈ upFrom m.v.current (c m.v.active) ∧
      Resumable (Standing m.v c m.v.active m.v.current m.interrupt.sp) (.intr m.pc :: fs) := by
  by_cases huser : m.pc = .user
  · have hi : m.interrupt = m.trapIn [.intr .user] := if_pos huser
    rw [huser] at hrun
    obtain ⟨l, hl⟩ := List.head?_eq_some_iff.mp hrun.1
    have hmem : m.v.current ∈ c m.v.active := hl ▸ List.mem_cons_self
    have hsp : (m.trapIn [.intr .user]).sp = m.v.current := by
      show (offset8M - m.v.tssEsp0) / offset8K = m.v.current
      rw [h.tss]
      exact entry_eq ((h.own _).range _ hmem).2
    refine ⟨[], ?_, ?_, ?_⟩
    · rw [hi, huser]; rfl
    · rw [hi, hsp]; exact mem_upFrom_head hrun.1 hmem
    · rw [huser]; exact hrun
  · have hi : m.interrupt = m.push [.intr m.pc] := if_neg huser
    have hsp : m.interrupt.sp = m.sp := by rw [hi]; rfl
    refine ⟨m.kstack m.sp, by rw [hi]; rfl, ?_⟩
    rw [hsp]
    by_cases hres : m.pc = .resume
    · rw [hres] at hrun ⊢
      exact hrun
    · obtain ⟨hσ, hs⟩ := hrun.standing hmask hcalm hidle huser hres
      exact ⟨hσ, Resumable.intr (.inr ⟨hres, hs⟩)⟩

/-- `next_task` saves the interrupted process where it should. -/
theorem Laid.park (h : Laid m c) (hrun : Running m c m.pc) (hmask : m.pc.masked = false)
    (hcalm : m.pc.astray = false) (hidle : m.pc ≠ .idle) :
    Laid (m.interrupt.saveEsp m.v.current) c ∧
      Parked (m.interrupt.saveEsp m.v.current) c m.v.active m.v.current := by
  obtain ⟨fs, hk, hσ, hr⟩ := h.interrupt hrun hmask hcalm hidle
  have hself : m.interrupt.kstack m.interrupt.sp = .intr m.pc :: fs := by
    rw [hk, Function.update_self]
  constructor
  · refine h.stay ?_ ?_ ?_
    · show m.interrupt.v = _
      rw [m.interrupt_v]
      show m.v = { m.v with files := m.interrupt.v.files }
      rw [m.interrupt_v]
    · intro x
      show Function.update m.interrupt.esp m.v.current _ x = _ ∨ _
      by_cases hx : x = m.v.current
      · subst hx
        refine .inr ⟨self_mem_of_mem_upFrom hσ, m.interrupt.here, ?_, hσ⟩
        exact Function.update_self _ _ _
      · exact .inl (by rw [Function.update_of_ne hx, m.interrupt_esp])
    · intro x hx
      show m.interrupt.kstack x = m.kstack x
      have hne : x ≠ m.interrupt.sp := fun he => hx (he ▸ mem_of_mem_upFrom hσ)
      rw [hk, Function.update_of_ne hne]
  · refine ⟨m.interrupt.sp, Function.update_self _ _ _, hσ, ?_⟩
    show Resumable (Standing m.interrupt.v c _ _ _) (m.interrupt.kstack m.interrupt.sp)
    rw [m.interrupt_v, hself]
    exact hr

end Interrupted

/-- With no chain at all there is little to check. -/
theorem Laid.of_nil {m : Cpu} {c : Term → List Nat} (hc : ∀ t, c t = [])
    (htss : m.v.tssEsp0 = offset8M - m.v.current * offset8K)
    (hpres : ∀ p, m.v.present p = false) (hproc : ∀ t, t ≠ m.v.active → m.v.processes t = 0) :
    Laid m c where
  tss := htss
  own := fun t => by
    constructor <;> simp [hc t]
  disjoint := fun t u _ p hp => by
    rw [hc t] at hp
    exact absurd hp List.not_mem_nil
  present := fun p hp => by
    rw [hpres p] at hp
    cases hp
  waiting := fun t ht => .inl ⟨hc t, hproc t ht⟩

section Timer

variable {m : Cpu} {c : Term → List Nat}

/-- No parked process is process `0`. -/
theorem Parked.ne_zero (h : Laid m c) {t : Term} {cur : Nat} (hp : Parked m c t cur) :
    cur ≠ 0 := by
  obtain ⟨σ, _, hσ, _⟩ := hp
  have := (h.own t).range cur (self_mem_of_mem_upFrom hσ)
  omega

/-- What the tick saves, the boot context included. -/
theorem Laid.park_or_boot (h : Laid m c) (hrun : Running m c m.pc) (hmask : m.pc.masked = false)
    (hcalm : m.pc.astray = false) :
    Laid (m.interrupt.saveEsp m.v.current) c ∧
      ((c m.v.active = [] ∧ m.v.current = 0 ∧ m.v.active = 0) ∨
        Parked (m.interrupt.saveEsp m.v.current) c m.v.active m.v.current) := by
  by_cases hidle : m.pc = .idle
  · rw [hidle] at hrun
    obtain ⟨h0, ha, hc⟩ := hrun
    refine ⟨Laid.of_nil hc ?_ ?_ ?_, .inl ⟨hc _, h0, ha⟩⟩
    · show m.interrupt.v.tssEsp0 = offset8M - m.interrupt.v.current * offset8K
      rw [m.interrupt_v]; exact h.tss
    · intro p
      show m.interrupt.v.present p = false
      rw [m.interrupt_v, ← Bool.not_eq_true]
      intro hp
      obtain ⟨t, ht⟩ := h.present p hp
      rw [hc t] at ht
      exact List.not_mem_nil ht
    · intro t ht
      have ht' : t ≠ m.interrupt.v.active := ht
      rw [m.interrupt_v] at ht'
      show m.interrupt.v.processes t = 0
      rw [m.interrupt_v]
      rcases h.waiting t ht' with hw | hw
      · exact hw.2
      · obtain ⟨σ, _, hσ, _⟩ := hw
        rw [hc t] at hσ
        exact absurd (mem_of_mem_upFrom hσ) List.not_mem_nil
  · obtain ⟨h1, h2⟩ := h.park hrun hmask hcalm hidle
    exact ⟨h1, .inr h2⟩

/-- The tick, with the interrupt and the store into the PCB as one state. -/
theorem Cpu.tick_eq (m : Cpu) :
    m.tick =
      if m.v.processes (m.v.active + 1) = 0 then
        { m.interrupt.saveEsp m.v.current with
          v := m.v.enqueue, pc := .find .launch m.v.current 1 }
      else
        { m.interrupt.saveEsp m.v.current with
          v := m.v.enqueue.switch (m.v.processes (m.v.active + 1)), pc := .switched } := by
  simp only [Cpu.tick, Cpu.saveEsp, m.interrupt_v, ProcView.enqueue_processes,
    ProcView.enqueue_active, ProcView.enqueue_current, Function.update_of_ne (succ_ne m.v.active),
    Cpu.jump]

/-- The shells before the next terminal's are there. -/
theorem Laid.before_next (h : Laid m c) (hne : c m.v.active ≠ []) {u : Term}
    (hu : basePid u < basePid (m.v.active + 1)) : c u ≠ [] := by
  have hall : ∀ a u : Term, basePid u < basePid (a + 1) → u = a ∨ basePid u < basePid a := by
    decide
  rcases hall m.v.active u hu with rfl | hlt
  · exact hne
  · exact (h.own _).before hne u hlt

/-- **A tick.** -/
theorem stacksInv_tick (h : StacksInv m) (hmask : m.pc.masked = false)
    (hcalm : m.pc.astray = false) : StacksInv m.tick := by
  obtain ⟨c, hL, hR⟩ := h
  obtain ⟨h1, hpark⟩ := hL.park_or_boot hR hmask hcalm
  have hv : (m.interrupt.saveEsp m.v.current).v = m.v := m.interrupt_v
  have hpark' : (c m.v.active = [] ∧ m.v.current = 0) ∨
      Parked (m.interrupt.saveEsp m.v.current) c m.v.active m.v.current :=
    hpark.imp_left fun hb => ⟨hb.1, hb.2.1⟩
  rw [m.tick_eq]
  generalize hm1 : m.interrupt.saveEsp m.v.current = m1 at h1 hpark hpark' hv
  have hesp : m1.esp m.v.current = some m1.here := by
    rw [← hm1]; exact Function.update_self _ _ _
  have hwait := h1.waiting (m1.v.active + 1) (succ_ne _)
  rw [← hv] at hpark hpark' hesp ⊢
  split
  · -- an empty slot: the terminal's first shell is still to be launched
    rename_i h0
    rw [h0] at hwait
    have hc : c (m1.v.active + 1) = [] := by
      rcases hwait with hw | hw
      · exact hw.1
      · exact absurd rfl (hw.ne_zero h1)
    refine ⟨c, h1.hand hpark' rfl rfl rfl rfl rfl rfl h1.tss (.inl hc), ?_⟩
    refine ⟨⟨hc, rfl, hesp, ?_, ?_⟩, Nat.le_refl 1, ?_⟩
    · -- the process left behind is the boot context or on the chain of the terminal before
      have hpos : ∀ t, basePid t ≠ 0 := by decide
      rcases hpark with ⟨_, hb, _⟩ | ⟨σ, _, hσ, _⟩
      · rw [hb]; exact (hpos _).symm
      · intro he
        have hlt : m1.v.current < 4 := he ▸ basePid_lt _
        have he' := h1.eq_basePid (self_mem_of_mem_upFrom hσ) hlt
        exact succ_ne _ (basePid_injective (he.symm.trans he'))
    · intro u hu
      rcases hpark with ⟨_, _, ha⟩ | ⟨σ, _, hσ, _⟩
      · have hnone : ∀ u : Term, ¬ basePid u < basePid (0 + 1) := by decide
        have hu' : basePid u < basePid (m1.v.active + 1) := hu
        rw [ha] at hu'
        exact absurd hu' (hnone u)
      · exact h1.before_next (List.ne_nil_of_mem (mem_of_mem_upFrom hσ)) hu
    · have hpos : ∀ t, 1 ≤ basePid t := by decide
      exact hpos _
  · -- a process to go on with, parked when its terminal was left
    rename_i h0
    refine ⟨c, h1.hand hpark' rfl rfl rfl rfl rfl rfl rfl (.inr rfl), ?_⟩
    have hp := hwait.resolve_left fun hw => h0 hw.2
    exact hp.frame rfl id (fun _ _ => rfl) (fun _ _ => rfl) (fun _ _ => rfl)

end Timer

/-! ## The kernel going on -/

section Kernel

variable {m m' : Cpu} {c : Term → List Nat}

theorem Laid.jump (h : Laid m c) (pc : Pc) : Laid (m.jump pc) c :=
  h.stay rfl (fun _ => .inl rfl) (fun _ _ => rfl)

/-- Code on its chain has its chain's process as the current one. -/
theorem Laid.present_all (h : Laid m c) (hp : m.v.present m.v.current = true) :
    ∀ p ∈ c m.v.active, m.v.present p = true := by
  intro p hmem
  rcases (h.own _).kept p hmem with hq | hq
  · exact hq
  · rw [Chains.queued_active] at hq
    exact hq ▸ hp

/-- The next shell's own pid is not taken. -/
theorem Laid.base_free (h : Laid m c) (he : c m.v.active = []) :
    m.v.present (basePid m.v.active) = false := by
  rw [← Bool.not_eq_true]
  intro hp
  obtain ⟨t, ht⟩ := h.present _ hp
  have hta := basePid_injective (h.eq_basePid ht (basePid_lt _))
  rw [← hta, he] at ht
  exact List.not_mem_nil ht

/-- One round of the scan. -/
theorem stacksInv_find {who : Caller} {p i : Nat} (h : StacksInv m) (hpc : m.pc = .find who p i)
    (hs : m.run = some m') : StacksInv m' := by
  obtain ⟨c, hL, hR⟩ := h
  simp only [Cpu.run, hpc] at hs
  rw [hpc] at hR
  split at hs
  · -- the scan goes on; a base shell's own pid is free and is not passed over
    rename_i hi
    cases hs
    refine ⟨c, hL.jump _, ?_⟩
    cases who with
    | execute =>
        obtain ⟨hσ, h1, h2, h3, h4, _⟩ := hR
        exact ⟨hσ, h1, h2, h3, h4, Nat.succ_pos i⟩
    | relaunch =>
        obtain ⟨hσ, h1, h2, h3, _, h5⟩ := hR
        have hne : i ≠ m.v.current := by
          rintro rfl
          rw [h3] at hi
          cases hi.1
        exact ⟨hσ, h1, h2, h3, Nat.succ_pos i, Nat.lt_of_le_of_ne h5 hne⟩
    | launch =>
        obtain ⟨hl, _, h5⟩ := hR
        have hne : i ≠ basePid m.v.active := by
          rintro rfl
          rw [hL.base_free hl.empty] at hi
          cases hi.1
        exact ⟨⟨hl.empty, hl.current, hl.saved, hl.ne_base, hl.before⟩, Nat.succ_pos i,
          Nat.lt_of_le_of_ne h5 hne⟩
  · split at hs
    · -- found, and not claimed yet
      rename_i hi
      cases hs
      refine ⟨c, hL.jump _, ?_⟩
      cases who with
      | execute =>
          obtain ⟨hσ, h1, h2, h3, h4, h5⟩ := hR
          exact ⟨hσ, h1, h2, h3, h4, h5, hi⟩
      | relaunch => exact hR
      | launch =>
          obtain ⟨hl, h5⟩ := hR
          exact ⟨⟨hl.empty, hl.current, hl.saved, hl.ne_base, hl.before⟩, h5⟩
    · -- none left, which only an `execute` has somebody to tell
      split at hs
      · rename_i hwho
        subst hwho
        cases hs
        obtain ⟨hσ, h1, h2, _⟩ := hR
        exact ⟨c, hL.jump _, hσ, h1, h2⟩
      · cases hs

/-- A free base pid belongs to the terminal that asks for it: the others' shells hold theirs. -/
theorem Laid.claimed_base (h : Laid m c) {n : Nat} (h1 : 1 ≤ n) (hn : n ≤ basePid m.v.active)
    (hbefore : ∀ u, basePid u < basePid m.v.active → c u ≠ [])
    (hfree : ∀ t, t ≠ m.v.active → n ∉ c t) : n = basePid m.v.active := by
  have h4 := basePid_lt m.v.active
  obtain ⟨u, rfl⟩ := exists_basePid h1 (by omega)
  by_contra hne
  have hua : u ≠ m.v.active := fun he => hne (he ▸ rfl)
  exact hfree u hua (h.base_mem (hbefore u (by omega)))

/-- An `execute` claims: its process goes on top of the caller's chain. -/
theorem stacksInv_claim_execute {p n : Nat} (hL : Laid m c)
    (hR : Running m c (.claim .execute p n)) (hpc : m.pc = .claim .execute p n)
    (hfree : m.v.present n = false) (hother : ∀ t, t ≠ m.v.active → n ∉ c t)
    (hs : m.run = some m') : StacksInv m' := by
  simp only [Cpu.run, hpc, Option.some.injEq] at hs
  subst hs
  obtain ⟨hσ, h1, h2, hb, rfl, h5⟩ := hR
  have hne : n ≠ m.v.current := by
    rintro rfl
    rw [hfree] at h2
    cases h2
  have hnone : ∀ t, n ∉ c t := fun t => by
    by_cases ht : t = m.v.active
    · subst ht
      exact hL.not_mem_of_free hfree (by rw [Chains.queued_active]; exact hne)
    · exact hother t ht
  -- the base pids are on their terminals' chains, so none of them is free
  have h4 : 4 ≤ n := by
    by_contra hlt
    obtain ⟨u, rfl⟩ := exists_basePid h5.1 (by omega)
    exact hnone u (hL.base_mem (hb u))
  obtain ⟨l, hl⟩ := List.head?_eq_some_iff.mp h1
  have hself := Function.update_self m.v.active (n :: c m.v.active) c
  refine ⟨_, hL.push h5 hnone ?_ ?_ (fun u _ => hb u) (hL.present_all h2), ?_, rfl, ?_, ?_, ?_⟩
  · obtain ⟨top, hc⟩ := (hL.own _).linked (hb m.v.active)
    have htop : top = m.v.current := Option.some.inj (hc.head?_eq.symm.trans h1)
    refine .link h4 ?_
    rw [ProcView.claim_parent, Function.update_self, ← htop]
    exact hc.congr fun q hq _ => Function.update_of_ne (fun he => hnone _ (he ▸ hq)) _ _
  · rw [hl, List.getLast?_cons_cons, ← hl]
    exact (hL.own _).base (hb _)
  · show m.sp ∈ upFrom m.v.current (Function.update c m.v.active _ m.v.active)
    rw [hself, upFrom_cons_of_ne hne]
    exact hσ
  · exact ⟨l, hself.trans (by rw [hl]; rfl)⟩
  · exact (Function.update_of_ne (Ne.symm hne) _ _).trans h2
  · exact Function.update_self n true m.v.present

/-- A `halt` of a base shell claims: it gets back the PCB it has just given up. -/
theorem stacksInv_claim_relaunch {p n : Nat} (hL : Laid m c)
    (hR : Running m c (.claim .relaunch p n)) (hpc : m.pc = .claim .relaunch p n)
    (hother : ∀ t, t ≠ m.v.active → n ∉ c t) (hs : m.run = some m') : StacksInv m' := by
  simp only [Cpu.run, hpc, Option.some.injEq] at hs
  subst hs
  obtain ⟨hσ, rfl, hc, h3, h4, h5⟩ := hR
  have hne : c m.v.active ≠ [] := by rw [hc]; exact List.cons_ne_nil _ _
  have hlt : m.v.current < 4 ∧ m.v.current = basePid m.v.active := by
    have hb := (hL.own m.v.active).base hne
    rw [hc, List.getLast?_singleton, Option.some.injEq] at hb
    exact ⟨hb ▸ basePid_lt _, hb⟩
  have hn : n = m.v.current := (hL.claimed_base h4 (hlt.2 ▸ h5) ((hL.own _).before hne)
    hother).trans hlt.2.symm
  subst hn
  have hp : (m.v.claim m.v.current).present m.v.current = true := by
    rw [ProcView.claim_present, Function.update_self]
  exact ⟨c, hL.reclaim hc hlt.1, hσ, rfl, rfl, hc, hp⟩

/-- A tick that launches claims the base pid of its terminal. -/
theorem stacksInv_claim_launch {p n : Nat} (hL : Laid m c)
    (hR : Running m c (.claim .launch p n)) (hpc : m.pc = .claim .launch p n)
    (hother : ∀ t, t ≠ m.v.active → n ∉ c t) (hs : m.run = some m') : StacksInv m' := by
  simp only [Cpu.run, hpc, Option.some.injEq] at hs
  subst hs
  obtain ⟨hl, h4, h5⟩ := hR
  have hn := hL.claimed_base h4 h5 hl.before hother
  have hnone : ∀ t, n ∉ c t := fun t => by
    by_cases ht : t = m.v.active
    · subst ht; rw [hl.empty]; exact List.not_mem_nil
    · exact hother t ht
  have hlt := basePid_lt m.v.active
  have hself := Function.update_self m.v.active (n :: c m.v.active) c
  refine ⟨_, hL.push ⟨h4, by simp only [maxPid]; omega⟩ hnone ?_ ?_ hl.before ?_, ?_, ?_, ?_⟩
  · rw [hl.empty]; exact .base h4 (by omega)
  · rw [hl.empty, List.getLast?_singleton, hn]
  · rw [hl.empty]; exact fun p hp => absurd hp List.not_mem_nil
  · exact hself.trans (by rw [hl.empty])
  · exact Function.update_self n true m.v.present
  · refine (Function.update_of_ne ?_ _ _).trans hl.saved
    rw [hn]
    exact hl.ne_base

/-- **Claiming a PCB.** -/
theorem stacksInv_claim {who : Caller} {p n : Nat} (h : StacksInv m) (hpc : m.pc = .claim who p n)
    (hfree : m.v.present n = false) (hproc : ∀ t, t ≠ m.v.active → m.v.processes t ≠ n)
    (hs : m.run = some m') : StacksInv m' := by
  obtain ⟨c, hL, hR⟩ := h
  rw [hpc] at hR
  have hother : ∀ t, t ≠ m.v.active → n ∉ c t := fun t ht =>
    hL.not_mem_of_free hfree (by rw [queued, if_neg ht]; exact (hproc t ht).symm)
  cases who with
  | execute => exact stacksInv_claim_execute hL hR hpc hfree hother hs
  | relaunch => exact stacksInv_claim_relaunch hL hR hpc hother hs
  | launch => exact stacksInv_claim_launch hL hR hpc hother hs

/-- `switch_context` to the new process. -/
theorem stacksInv_switch {who : Caller} {p n : Nat} (h : StacksInv m) (hpc : m.pc = .switch who p n)
    (hs : m.run = some m') : StacksInv m' := by
  obtain ⟨c, hL, hR⟩ := h
  simp only [Cpu.run, hpc, Option.some.injEq] at hs
  subst hs
  rw [hpc] at hR
  cases who with
  | execute =>
      obtain ⟨hσ, rfl, ⟨l, hl⟩, h3, h4⟩ := hR
      have hhead : (c m.v.active).head? = some n := by rw [hl]; rfl
      have hmem : m.v.current ∈ c m.v.active := self_mem_of_mem_upFrom hσ
      exact ⟨c, hL.switch (hL.present_all h3), mem_upFrom_head hhead (mem_of_mem_upFrom hσ), hhead,
        h4, hmem, hσ⟩
  | relaunch =>
      obtain ⟨hσ, rfl, rfl, hc, h4⟩ := hR
      have hhead : (c m.v.active).head? = some m.v.current := by rw [hc]; rfl
      exact ⟨c, hL.switch (hL.present_all h4), hσ, hhead, h4, self_mem_of_mem_upFrom hσ, hσ⟩
  | launch =>
      obtain ⟨hc, h2, h3⟩ := hR
      refine ⟨c, hL.switch ?_, hc, h2, h3⟩
      intro q hq
      rw [hc] at hq
      rwa [List.mem_singleton.mp hq]

/-- The files opened and the program loaded, then its caller's stack pointer saved. -/
theorem stacksInv_load {who : Caller} {p : Nat} (h : StacksInv m) (hpc : m.pc = .load who p)
    (hs : m.run = some m') : StacksInv m' := by
  obtain ⟨c, hL, hR⟩ := h
  simp only [Cpu.run, hpc, Option.some.injEq] at hs
  subst hs
  rw [hpc] at hR
  refine ⟨c, hL.stay rfl (fun _ => .inl rfl) (fun _ _ => rfl), ?_⟩
  cases who <;> exact hR

theorem stacksInv_save {who : Caller} {p : Nat} (h : StacksInv m) (hpc : m.pc = .save who p)
    (hs : m.run = some m') : StacksInv m' := by
  obtain ⟨c, hL, hR⟩ := h
  simp only [Cpu.run, hpc, Option.some.injEq] at hs
  subst hs
  rw [hpc] at hR
  have hsave : ∀ x, p ∈ c m.v.active → m.sp ∈ upFrom p (c m.v.active) →
      (m.saveEsp p).esp x = m.esp x ∨ (x ∈ c m.v.active ∧
        ∃ s, (m.saveEsp p).esp x = some s ∧ s.stack ∈ upFrom x (c m.v.active)) := by
    intro x hp hσ
    by_cases hx : x = p
    · subst hx
      exact .inr ⟨hp, m.here, Function.update_self _ _ _, hσ⟩
    · exact .inl (Function.update_of_ne hx _ _)
  cases who with
  | launch =>
      obtain ⟨hc, h2, h3⟩ := hR
      have hid : (m.saveEsp p).esp = m.esp := by
        show Function.update m.esp p (some m.here) = m.esp
        rw [← h3, Function.update_eq_self]
      refine ⟨c, hL.stay rfl (fun x => .inl ?_) (fun _ _ => rfl), hc, h2⟩
      exact congrFun hid x
  | execute =>
      obtain ⟨hσ, h1, h2, h3, h4⟩ := hR
      exact ⟨c, hL.stay rfl (fun x => hsave x h3 h4) (fun _ _ => rfl), hσ, h1, h2⟩
  | relaunch =>
      obtain ⟨hσ, h1, h2, h3, h4⟩ := hR
      exact ⟨c, hL.stay rfl (fun x => hsave x h3 h4) (fun _ _ => rfl), hσ, h1, h2⟩

/-- `halt`: the PCB freed, and what the pid decides. -/
theorem stacksInv_halt (h : StacksInv m) (hpc : m.pc = .halt) (hs : m.run = some m') :
    StacksInv m' := by
  obtain ⟨c, hL, hR⟩ := h
  simp only [Cpu.run, hpc, Option.some.injEq] at hs
  subst hs
  rw [hpc] at hR
  obtain ⟨hσ, h1, _⟩ := hR
  have hp : m.v.release.present m.v.current = false := by
    rw [ProcView.release_present, Function.update_self]
  exact ⟨c, hL.release (self_mem_of_mem_upFrom hσ), hσ, h1, hp⟩

theorem stacksInv_freed (h : StacksInv m) (hpc : m.pc = .freed) (hs : m.run = some m') :
    StacksInv m' := by
  obtain ⟨c, hL, hR⟩ := h
  simp only [Cpu.run, hpc] at hs
  rw [hpc] at hR
  obtain ⟨hσ, h1, h2⟩ := hR
  split at hs
  · rename_i h4
    cases hs
    have hrange := (hL.own _).range _ (self_mem_of_mem_upFrom hσ)
    exact ⟨c, hL.jump _, hσ, rfl, (hL.eq_singleton h1 h4).1, h2, Nat.le_refl 1, hrange.1⟩
  · rename_i h4
    cases hs
    exact ⟨c, hL.jump _, hσ, hL.eq_cons_parent h1 (Nat.not_lt.mp h4), h2⟩

theorem stacksInv_parent {q : Nat} (h : StacksInv m) (hpc : m.pc = .parent q)
    (hs : m.run = some m') : StacksInv m' := by
  obtain ⟨c, hL, hR⟩ := h
  simp only [Cpu.run, hpc, Option.some.injEq] at hs
  subst hs
  rw [hpc] at hR
  obtain ⟨_, ⟨l, hl⟩, h2⟩ := hR
  have hself := Function.update_self m.v.active (q :: l) c
  have hq : q ∈ c m.v.active := hl ▸ List.mem_cons_of_mem _ List.mem_cons_self
  have hne : q ≠ m.v.current := by
    have hnd := (hL.own m.v.active).nodup
    rw [hl] at hnd
    rintro rfl
    exact (List.nodup_cons.mp hnd).1 List.mem_cons_self
  refine ⟨_, hL.pop hl h2, rfl, ?_, ?_⟩
  · show (Function.update c m.v.active (q :: l) m.v.active).head? = some q
    rw [hself]
    rfl
  · refine ((hL.own _).kept q hq).resolve_right ?_
    rwa [Chains.queued_active]

/-- Loading a stack pointer that was saved on the active chain. -/
theorem Laid.loadEsp (h : Laid m c) {q : Nat} {pc : Pc} (hq : q ∈ c m.v.active)
    (hs : m.loadEsp q pc = some m') :
    ∃ s, m.esp q = some s ∧ s.depth ≤ (m.kstack s.stack).length ∧
      m'.v = m.v ∧ m'.sp = s.stack ∧ m'.pc = pc ∧ s.stack ∈ upFrom q (c m.v.active) ∧
      m'.kstack s.stack
        = (m.kstack s.stack).drop ((m.kstack s.stack).length - s.depth) ∧
      Laid m' c := by
  unfold Cpu.loadEsp at hs
  cases he : m.esp q with
  | none => rw [he] at hs; cases hs
  | some s =>
      rw [he] at hs
      dsimp only at hs
      split at hs
      · rename_i hd
        cases hs
        have hσ := (h.own _).saved q s hq he
        refine ⟨s, rfl, hd, rfl, rfl, rfl, hσ, Function.update_self _ _ _,
          h.stay rfl (fun _ => .inl rfl) (fun x hx => Function.update_of_ne ?_ _ _)⟩
        exact fun hx' => hx (hx' ▸ mem_of_mem_upFrom hσ)
      · cases hs

theorem stacksInv_left {q : Nat} (h : StacksInv m) (hpc : m.pc = .left q)
    (hs : m.run = some m') : StacksInv m' := by
  obtain ⟨c, hL, hR⟩ := h
  simp only [Cpu.run, hpc] at hs
  rw [hpc] at hR
  obtain ⟨rfl, h1, h2⟩ := hR
  obtain ⟨l, hl⟩ := List.head?_eq_some_iff.mp h1
  obtain ⟨s, _, _, hv, hsp, hpc', hσ, _, hL'⟩ := hL.loadEsp (hl ▸ List.mem_cons_self) hs
  refine ⟨c, hL', ?_⟩
  rw [hpc']
  exact ⟨by rw [hsp, hv]; exact hσ, by rw [hv]; exact h1, by rw [hv]; exact h2⟩

/-- `next_task` takes up the stack of the process it switched to. -/
theorem stacksInv_fetched {q : Nat} (h : StacksInv m) (hpc : m.pc = .fetched q)
    (hs : m.run = some m') : StacksInv m' := by
  obtain ⟨c, hL, hR⟩ := h
  simp only [Cpu.run, hpc] at hs
  rw [hpc] at hR
  obtain ⟨rfl, σ, he, hσ, hr⟩ := hR
  obtain ⟨s, he', _, hv, hsp, hpc', _, hk, hL'⟩ :=
    hL.loadEsp (self_mem_of_mem_upFrom hσ) hs
  rw [he] at he'
  cases he'
  -- nothing was pushed on that stack since
  rw [Nat.sub_self, List.drop_zero] at hk
  refine ⟨c, hL', ?_⟩
  rw [hpc']
  exact ⟨by rw [hsp, hv]; exact hσ, by rw [hsp, hv, hk]; exact hr⟩

/-- A change to the stack in use, when that is one of the active chain's. -/
theorem Laid.restack (h : Laid m c) (hσ : m.sp ∈ upFrom m.v.current (c m.v.active))
    (fs : List Frame) (pc : Pc) :
    Laid { m with kstack := Function.update m.kstack m.sp fs, pc := pc } c := by
  refine h.stay rfl (fun _ => .inl rfl) (fun x hx => Function.update_of_ne ?_ _ _)
  rintro rfl
  exact hx (mem_of_mem_upFrom hσ)

theorem stacksInv_ret (h : StacksInv m) (hpc : m.pc = .ret) (hs : m.run = some m') :
    StacksInv m' := by
  obtain ⟨c, hL, hR⟩ := h
  simp only [Cpu.run, hpc] at hs
  rw [hpc] at hR
  obtain ⟨hσ, h1, h2⟩ := hR
  split at hs
  · cases hs
    exact ⟨c, hL.restack hσ _ _, h1, h2⟩
  · cases hs

/-- `popal`, `sti`, `iret`: back to whatever was interrupted. -/
theorem stacksInv_resume (h : StacksInv m) (hpc : m.pc = .resume) (hs : m.run = some m') :
    StacksInv m' := by
  obtain ⟨c, hL, hR⟩ := h
  simp only [Cpu.run, hpc] at hs
  rw [hpc] at hR
  obtain ⟨hσ, hr⟩ := hR
  split at hs
  · rename_i pc fs hk
    cases hs
    rw [hk] at hr
    refine ⟨c, hL.restack hσ _ _, ?_⟩
    by_cases hres : pc = .resume
    · subst hres
      refine ⟨hσ, ?_⟩
      show Resumable _ (Function.update m.kstack m.sp fs m.sp)
      rw [Function.update_self]
      exact hr
    · have hst : Standing m.v c m.v.active m.v.current m.sp pc := by
        cases pc with
        | resume => exact absurd rfl hres
        | _ => exact hr
      exact Standing.running (m := { m with kstack := Function.update m.kstack m.sp fs, pc := pc })
        hσ hst
  · cases hs

/-- **The kernel going on.** -/
theorem stacksInv_run (h : StacksInv m) (hcalm : Calm m .run) (hs : m.run = some m') :
    StacksInv m' := by
  cases hpc : m.pc with
  | idle => simp [Cpu.run, hpc] at hs
  | user => simp [Cpu.run, hpc] at hs
  | call =>
      obtain ⟨c, hL, hR⟩ := h
      simp only [Cpu.run, hpc, Option.some.injEq] at hs
      subst hs
      rw [hpc] at hR
      exact ⟨c, hL.jump _, hR⟩
  -- where nothing is pushed or popped the stacks are as they were
  | exec =>
      obtain ⟨c, hL, hR⟩ := h
      simp only [Cpu.run, hpc, Option.some.injEq] at hs
      subst hs
      rw [hpc] at hR
      obtain ⟨hσ, h1, h2, h3⟩ := hR
      exact ⟨c, hL.jump _, hσ, h1, h2, h3, rfl, Nat.le_refl 1⟩
  | find who p i => exact stacksInv_find h hpc hs
  | claim who p n =>
      obtain ⟨h1, h2⟩ := hcalm n (by rw [hpc]; rfl)
      exact stacksInv_claim h hpc h1 h2 hs
  | switch who p n => exact stacksInv_switch h hpc hs
  | load who p => exact stacksInv_load h hpc hs
  | save who p => exact stacksInv_save h hpc hs
  | enter who =>
      obtain ⟨c, hL, hR⟩ := h
      simp only [Cpu.run, hpc, Option.some.injEq] at hs
      subst hs
      rw [hpc] at hR
      refine ⟨c, hL.jump _, ?_⟩
      cases who with
      | launch => exact ⟨congrArg List.head? hR.1, hR.2⟩
      | _ => exact hR.2
  | halt => exact stacksInv_halt h hpc hs
  | freed => exact stacksInv_freed h hpc hs
  | parent q => exact stacksInv_parent h hpc hs
  | left q => exact stacksInv_left h hpc hs
  | ret => exact stacksInv_ret h hpc hs
  | switched =>
      obtain ⟨c, hL, hR⟩ := h
      simp only [Cpu.run, hpc, Option.some.injEq] at hs
      subst hs
      rw [hpc] at hR
      exact ⟨c, hL.jump _, rfl, hR⟩
  | fetched q => exact stacksInv_fetched h hpc hs
  | resume => exact stacksInv_resume h hpc hs

/-- A system call from user mode: onto the stack of the process, from its base. -/
theorem Laid.trapIn (h : Laid m c) (hR : Running m c .user) (fs : List Frame) (pc : Pc) :
    Laid ((m.trapIn fs).jump pc) c ∧
      ((m.trapIn fs).jump pc).sp ∈ upFrom m.v.current (c m.v.active) := by
  obtain ⟨l, hl⟩ := List.head?_eq_some_iff.mp hR.1
  have hmem : m.v.current ∈ c m.v.active := hl ▸ List.mem_cons_self
  have hsp : (offset8M - m.v.tssEsp0) / offset8K = m.v.current := by
    rw [h.tss]
    exact entry_eq ((h.own _).range _ hmem).2
  constructor
  · refine h.stay rfl (fun _ => .inl rfl) (fun x hx => Function.update_of_ne ?_ _ _)
    rw [hsp]
    exact fun he => hx (he ▸ hmem)
  · show (offset8M - m.v.tssEsp0) / offset8K ∈ _
    rw [hsp]
    exact mem_upFrom_head hR.1 hmem

/-- **Every step that meets the condition keeps the invariant.** -/
theorem stacksInv_step {e : Ev} (h : StacksInv m) (hcalm : Calm m e) (hs : m.next e = some m') :
    StacksInv m' := by
  cases e with
  | tick =>
      simp only [Cpu.next] at hs
      split at hs
      · cases hs
      · rename_i hmask
        cases hs
        exact stacksInv_tick h (Bool.not_eq_true _ ▸ hmask) hcalm
  | execute =>
      simp only [Cpu.next] at hs
      split at hs
      · rename_i hpc
        cases hs
        obtain ⟨c, hL, hR⟩ := h
        rw [hpc] at hR
        obtain ⟨hL', hσ⟩ := hL.trapIn hR [.call, .trap] .exec
        refine ⟨c, hL', hσ, hR.1, hR.2, ?_⟩
        intro t
        -- an `execute` in calm leaves no terminal without a process
        by_cases ht : t = m.v.active
        · subst ht
          obtain ⟨l, hl⟩ := List.head?_eq_some_iff.mp hR.1
          rw [hl]
          exact List.cons_ne_nil _ _
        · rcases hL.waiting t ht with hw | ⟨σ, _, hσ, _⟩
          · exact absurd hw.2 (hcalm t ht)
          · exact List.ne_nil_of_mem (mem_of_mem_upFrom hσ)
      · cases hs
  | halt =>
      simp only [Cpu.next] at hs
      split at hs
      · rename_i hpc
        cases hs
        obtain ⟨c, hL, hR⟩ := h
        rw [hpc] at hR
        obtain ⟨hL', hσ⟩ := hL.trapIn hR [.call, .trap] .halt
        exact ⟨c, hL', hσ, hR⟩
      · cases hs
  | call =>
      simp only [Cpu.next] at hs
      split at hs
      · rename_i hpc
        cases hs
        obtain ⟨c, hL, hR⟩ := h
        rw [hpc] at hR
        obtain ⟨hL', hσ⟩ := hL.trapIn hR [.call, .trap] .call
        exact ⟨c, hL', hσ, hR⟩
      · cases hs
  | run => exact stacksInv_run h hcalm hs
  | fail =>
      obtain ⟨c, hL, hR⟩ := h
      simp only [Cpu.next] at hs
      split at hs
      · rename_i hpc
        cases hs
        rw [hpc] at hR
        exact ⟨c, hL.jump _, hR.1, hR.2.1, hR.2.2.1⟩
      · rename_i hpc
        cases hs
        rw [hpc] at hR
        exact ⟨c, hL.jump _, hR.1, hR.2.1, hR.2.2.1⟩
      · cases hs
  | fault =>
      obtain ⟨c, hL, hR⟩ := h
      simp only [Cpu.next] at hs
      split at hs
      · rename_i hpc
        cases hs
        rw [hpc] at hR
        exact ⟨c, hL.restack hR.1 _ _, hR.1, hR.2.1, hR.2.2.1⟩
      · cases hs

end Kernel

/-! ## Contexts stay apart -/

theorem stacksInv_boot {v : ProcView} (h : Starting 0 v) : StacksInv (Cpu.boot v) := by
  refine ⟨fun _ => [], Laid.of_nil (fun _ => rfl) ?_ ?_ ?_, h.current, h.active, fun _ => rfl⟩
  · show offset8M = offset8M - v.current * offset8K
    rw [h.current]
    rfl
  · intro p
    show v.present p = false
    rw [← Bool.not_eq_true, h.present]
    intro hp
    exact absurd (hp.1.trans hp.2) (by decide)
  · intro t _
    show v.processes t = 0
    rw [h.processes, if_neg (Fin.not_lt_zero t)]

/-- Parked processes of different terminals lie on different chains, so in different stacks. -/
theorem StacksInv.savedApart {m : Cpu} (h : StacksInv m) : SavedApart m := by
  obtain ⟨c, hL, _⟩ := h
  intro t u htu ⟨ht0, hta⟩ ⟨hu0, hua⟩
  obtain ⟨σ, hσe, hσ, _⟩ := (hL.waiting t hta).resolve_left fun hw => ht0 hw.2
  obtain ⟨τ, hτe, hτ, _⟩ := (hL.waiting u hua).resolve_left fun hw => hu0 hw.2
  refine ⟨_, _, hσe, hτe, ?_⟩
  intro he
  have he' : σ = τ := he
  exact hL.disjoint t u htu σ (mem_of_mem_upFrom hσ) (he' ▸ mem_of_mem_upFrom hτ)

/--
**Saved contexts never share a stack**, in any run from boot whose steps meet the
condition: with ticks anywhere else, in any system call, of any of the three
terminals.
-/
theorem saved_contexts_apart {v : ProcView} (h : Starting 0 v) {es : List Ev} {m : Cpu}
    (hrun : Run (Guarded Cpu.Step Calm) (Cpu.boot v) es m) : SavedApart m := by
  have hinv : StacksInv m := by
    refine Run.invariant (stacksInv_boot h) ?_ hrun
    rintro s e s' ⟨hcalm, hs⟩ hi
    exact stacksInv_step hi hcalm hs
  exact hinv.savedApart

instance instDecidableCalm (m : Cpu) : (e : Ev) → Decidable (Calm m e)
  | .tick => inferInstanceAs (Decidable (_ = _))
  | .execute => inferInstanceAs (Decidable (∀ t, t ≠ m.v.active → m.v.processes t ≠ 0))
  | .run => inferInstanceAs (Decidable (∀ n ∈ m.pc.claims,
      m.v.present n = false ∧ ∀ t, t ≠ m.v.active → m.v.processes t ≠ n))
  | .halt => .isTrue trivial
  | .call => .isTrue trivial
  | .fail => .isTrue trivial
  | .fault => .isTrue trivial

/-- A tick, and the launch of the shell with pid `n` that follows it. -/
def launchShell (n : Nat) : List Ev := .tick :: List.replicate (n + 5) .run

/-- A tick inside a system call of the first shell, and one more in the second. -/
theorem saved_contexts_apart_two : ∃ m,
    Run (Guarded Cpu.Step Calm) (Cpu.boot (procs .zero))
      (launchShell 1 ++ [.call] ++ launchShell 2 ++ [.tick]) m ∧
      m.Queued 1 ∧ m.Queued 2 ∧ SavedApart m := by
  have hsome : (replay Cpu.next Calm (Cpu.boot (procs .zero))
      (launchShell 1 ++ [.call] ++ launchShell 2 ++ [.tick])).map
        (fun m => (m.v.processes 1, m.v.processes 2, m.v.active)) = some (1, 2, 0) := by
    decide +kernel
  obtain ⟨m, hm, hq⟩ := Option.map_eq_some_iff.mp hsome
  simp only [Prod.mk.injEq] at hq
  have hrun := run_replay hm
  refine ⟨m, hrun, ⟨by rw [hq.1]; decide, by rw [hq.2.2]; decide⟩,
    ⟨by rw [hq.2.1]; decide, by rw [hq.2.2]; decide⟩, saved_contexts_apart starting_zero hrun⟩

/--
**Two contexts in one stack.** The three shells are up, and a tick comes while
`next_task` is still on the stack of the process it switched from: the process it
was about to resume is saved there too.
-/
theorem tick_while_switching_shares_stack : ∃ m,
    Run Cpu.Step (Cpu.boot (procs .zero))
      (launchShell 1 ++ launchShell 2 ++ launchShell 3 ++ [.tick, .tick]) m ∧
      m.Queued 0 ∧ m.Queued 1 ∧
      m.esp (m.v.processes 0) = some ⟨3, 1⟩ ∧ m.esp (m.v.processes 1) = some ⟨3, 2⟩ ∧
      ¬ SavedApart m := by
  have hsome : ((Cpu.boot (procs .zero)).exec
      (launchShell 1 ++ launchShell 2 ++ launchShell 3 ++ [.tick, .tick])).map
        (fun m => (m.v.processes 0, m.v.processes 1, m.v.active,
          m.esp (m.v.processes 0), m.esp (m.v.processes 1)))
      = some (3, 1, 2, some ⟨3, 1⟩, some ⟨3, 2⟩) := by
    decide +kernel
  obtain ⟨m, hm, hq⟩ := Option.map_eq_some_iff.mp hsome
  simp only [Prod.mk.injEq] at hq
  obtain ⟨h0, h1, ha, he0, he1⟩ := hq
  have hq0 : m.Queued 0 := ⟨by rw [h0]; decide, by rw [ha]; decide⟩
  have hq1 : m.Queued 1 := ⟨by rw [h1]; decide, by rw [ha]; decide⟩
  refine ⟨m, Cpu.run_exec hm, hq0, hq1, he0, he1, ?_⟩
  intro hap
  obtain ⟨a, b, hea, heb, hne⟩ := hap 0 1 (by decide) hq0 hq1
  rw [he0] at hea
  rw [he1] at heb
  cases hea
  cases heb
  exact hne rfl

end Zbiggie.Proof
