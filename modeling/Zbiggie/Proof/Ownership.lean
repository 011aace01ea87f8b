import Zbiggie.Proof.Stacks

/-!
# Who owns a pid

`find_free_pcb` reads `present` and returns; `setup_new_process` sets it later. In
between the pid is chosen and looks free. `halt` clears `present` first and leaves
the process afterwards. In between the pid looks free and is somebody's current
process. A tick in either place lets another terminal's `find_free_pcb` return the
pid a second time.

Nothing else does. If no tick falls into one of the two places, what was free when
it was read is free when it is claimed, and a waiting terminal's process always has
its PCB; so every claim meets what `Proof/Stacks` asks of one, and the chains stay
apart.
-/

namespace Zbiggie.Proof

open Zbiggie Machine

/--
The pid current in terminal `t`, `0` for none: a terminal being given its first shell
has none.
-/
def Cpu.currentIn (m : Cpu) (t : Term) : Nat :=
  if t = m.v.active then (if m.pc.masked then 0 else m.v.current) else m.v.processes t

/-- The code a context resumes. -/
def interrupted : List Frame → Option Pc
  | .intr .resume :: fs => interrupted fs
  | .intr pc :: _ => some pc
  | _ => none

/-- The pid that was chosen for a process that is not entered yet. -/
def Pc.chosen : Pc → Option Nat
  | .claim _ _ n => some n
  | .switch _ _ n => some n
  | _ => none

/-- The code terminal `t` will go on with, if it waits. -/
def Cpu.suspended (m : Cpu) (t : Term) : Option Pc :=
  (m.esp (m.v.processes t)).bind fun s =>
    interrupted ((m.kstack s.stack).drop ((m.kstack s.stack).length - s.depth))

/-- **No pid is owned twice.** -/
structure OwnedOnce (m : Cpu) : Prop where
  /-- The terminals' current processes are different. -/
  distinct : ∀ t u, t ≠ u → m.currentIn t ≠ 0 → m.currentIn t ≠ m.currentIn u
  /-- A PCB about to be overwritten is free. -/
  dead : ∀ n ∈ m.pc.claims, m.v.present n = false
  /-- It is no other terminal's current process. -/
  left : ∀ n ∈ m.pc.claims, ∀ t, t ≠ m.v.active → m.currentIn t ≠ n
  /-- No other terminal has chosen it and is setting it up. -/
  unchosen : ∀ n ∈ m.pc.claims, ∀ t, m.Queued t → ∀ pc ∈ m.suspended t, pc.chosen ≠ some n

/--
A pid is chosen and not claimed, or freed and not left. The scan for a halting
shell's new PCB belongs to the second kind.
-/
def Pc.exposed : Pc → Bool
  | .claim _ _ _ => true
  | .freed => true
  | .parent _ => true
  | .find .relaunch _ _ => true
  | _ => false

/--
The condition on a step. No tick between the read that finds a PCB free and the
store that claims it, none between `free_current_pcb` and the switch or the claim
that follows; and nothing is executed before every other terminal has its shell. A
tick behind the `sti` of `switch_context`, before the stack is switched, is not
considered here.
-/
def Careful (m : Cpu) : Ev → Prop
  | .tick => m.pc.astray = false ∧ m.pc.exposed = false
  | .execute => ∀ t, t ≠ m.v.active → m.v.processes t ≠ 0
  | _ => True

/-- What the condition adds to the layout of the stacks. -/
structure OwnInv (m : Cpu) : Prop where
  laid : StacksInv m
  /-- No interrupted code is in one of the two places. -/
  frames : ∀ σ pc, Frame.intr pc ∈ m.kstack σ → pc.exposed = false
  /-- What is about to be claimed is still free. -/
  fresh : ∀ n ∈ m.pc.claims, m.v.present n = false

/-! ## Contexts out of the two places -/

theorem Resumable.interrupted {S : Pc → Prop} : ∀ {fs : List Frame}, Resumable S fs →
    ∃ pc, interrupted fs = some pc ∧ S pc ∧ Frame.intr pc ∈ fs
  | [], h => h.elim
  | .call :: _, h => h.elim
  | .trap :: _, h => h.elim
  | .intr pc :: fs, h => by
      cases pc with
      | resume =>
          have h' : Resumable S fs := h
          obtain ⟨pc, hi, hs, hmem⟩ := h'.interrupted
          exact ⟨pc, hi, hs, List.mem_cons_of_mem _ hmem⟩
      | _ => exact ⟨_, rfl, h, List.mem_cons_self⟩

/-- Code that stands on its chain has its PCB, except on the way out of `halt`. -/
theorem Standing.present {v : ProcView} {c : Term → List Nat} {t : Term} {cur σ : Nat} {pc : Pc}
    (h : Standing v c t cur σ pc) (he : pc.exposed = false) : v.present cur = true := by
  cases pc with
  | find who p i =>
      cases who with
      | execute => exact h.2.1
      | relaunch => cases he
      | launch => exact h.elim
  | switch who p n =>
      cases who with
      | execute => exact h.2.2.1
      | relaunch => exact h.2.2.2
      | launch => exact h.elim
  | load who p =>
      cases who with
      | launch => exact h.elim
      | _ => exact h.2.1
  | save who p =>
      cases who with
      | launch => exact h.elim
      | _ => exact h.2.1
  | enter who =>
      cases who with
      | launch => exact h.elim
      | _ => exact h.2
  | exec => exact h.2.1
  | user => exact h.2
  | call => exact h.2
  | halt => exact h.2
  | ret => exact h.2
  | claim who p n => cases he
  | freed => cases he
  | parent q => cases he
  | _ => exact h.elim

section Owned

variable {m m' : Cpu} {c : Term → List Nat}

/-- A parked process has its PCB, and the pid its code has chosen has one too. -/
theorem Parked.present (hf : ∀ σ pc, Frame.intr pc ∈ m.kstack σ → pc.exposed = false) {t : Term}
    (hp : Parked m c t (m.v.processes t)) :
    m.v.present (m.v.processes t) = true ∧
      ∀ pc ∈ m.suspended t, ∀ n, pc.chosen = some n → m.v.present n = true := by
  obtain ⟨σ, he, _, hr⟩ := hp
  obtain ⟨pc, hi, hs, hmem⟩ := hr.interrupted
  have hex := hf σ pc hmem
  refine ⟨hs.present hex, ?_⟩
  intro pc' hpc' n hn
  have hsus : m.suspended t = some pc := by
    unfold Cpu.suspended
    rw [he, Option.bind_some, Nat.sub_self, List.drop_zero]
    exact hi
  rw [hsus] at hpc'
  cases hpc'
  -- a chosen pid that is not claimed would be an exposed one
  cases pc with
  | claim who p n' => cases hex
  | switch who p n' =>
      cases hn
      cases who with
      | execute => exact hs.2.2.2
      | relaunch =>
          obtain ⟨_, rfl, _, h4⟩ := hs
          exact h4
      | launch => exact hs.elim
  | _ => cases hn

/-- A claim is made by code that knows a pid from `1` on. -/
theorem Running.claims_pos {n : Nat} (hR : Running m c m.pc) (hn : n ∈ m.pc.claims) : 1 ≤ n := by
  cases hpc : m.pc with
  | claim who p k =>
      rw [hpc] at hR hn
      cases hn
      cases who with
      | execute => exact hR.2.2.2.2.2.1
      | relaunch => exact hR.2.2.2.2.1
      | launch => exact hR.2.1
  | _ =>
      rw [hpc] at hn
      cases hn

/-- No waiting terminal has a pid that is about to be claimed. -/
theorem OwnInv.claim (h : OwnInv m) {n : Nat} (hn : n ∈ m.pc.claims) {t : Term}
    (ht : t ≠ m.v.active) : m.v.processes t ≠ n := by
  obtain ⟨c, hL, hR⟩ := h.laid
  intro he
  rcases hL.waiting t ht with ⟨_, h0⟩ | hp
  · have hpos := hR.claims_pos hn
    omega
  · have hpres := (hp.present h.frames).1
    rw [he, h.fresh n hn] at hpres
    cases hpres

/-- The condition, with the invariant, is the one under which contexts stay apart. -/
theorem OwnInv.calm (h : OwnInv m) {e : Ev} (hc : Careful m e) : Calm m e := by
  cases e with
  | tick => exact hc.1
  | execute => exact hc
  | run => exact fun n hn => ⟨h.fresh n hn, fun t ht => h.claim hn ht⟩
  | _ => trivial

/-! ## One step -/

/-- A stack cut down to some of its frames has no new ones. -/
theorem mem_of_mem_restack {s σ : Nat} {fs : List Frame} {f : Frame}
    (hsub : ∀ g ∈ fs, g ∈ m.kstack s) (h : f ∈ Function.update m.kstack s fs σ) :
    f ∈ m.kstack σ := by
  by_cases hσ : σ = s
  · subst hσ
    rw [Function.update_self] at h
    exact hsub f h
  · rwa [Function.update_of_ne hσ] at h

/-- What the kernel going on can do to frames, and how it can come to a claim. -/
structure Goes (m m' : Cpu) : Prop where
  frames : ∀ σ f, f ∈ m'.kstack σ → f ∈ m.kstack σ
  /-- By a scan that has just found the PCB free, or in a resumed context. -/
  claims : ∀ n ∈ m'.pc.claims, (m'.v = m.v ∧ m.v.present n = false) ∨
    ∃ pc, Frame.intr pc ∈ m.kstack m.sp ∧ n ∈ pc.claims

theorem Goes.of_same (hk : m'.kstack = m.kstack) (hpc : m'.pc.claims = none) : Goes m m' where
  frames := fun σ f hf => by rwa [hk] at hf
  claims := fun n hn => by rw [hpc] at hn; cases hn

theorem Goes.of_loadEsp {p : Nat} {pc : Pc} (hs : m.loadEsp p pc = some m')
    (hpc : pc.claims = none) : Goes m m' := by
  unfold Cpu.loadEsp at hs
  split at hs
  · cases hs
  · dsimp only at hs
    split at hs
    · cases hs
      refine ⟨fun σ f hf => mem_of_mem_restack (fun g hg => List.mem_of_mem_drop hg) hf, ?_⟩
      intro n hn
      have hn' : n ∈ pc.claims := hn
      rw [hpc] at hn'
      cases hn'
    · cases hs

theorem run_goes (hs : m.run = some m') : Goes m m' := by
  cases hpc : m.pc with
  | idle => simp [Cpu.run, hpc] at hs
  | user => simp [Cpu.run, hpc] at hs
  | find who p i =>
      simp only [Cpu.run, hpc] at hs
      split at hs
      · cases hs
        exact .of_same rfl rfl
      · rename_i hi
        split at hs
        · -- the one step into a claim: the scan stopped at a PCB that is not present
          rename_i hle
          cases hs
          refine ⟨fun _ _ hf => hf, fun n hn => .inl ⟨rfl, ?_⟩⟩
          cases hn
          rw [← Bool.not_eq_true]
          exact fun hp => hi ⟨hp, hle⟩
        · split at hs
          · cases hs
            exact .of_same rfl rfl
          · cases hs
  | freed =>
      simp only [Cpu.run, hpc] at hs
      split at hs
      · cases hs
        exact .of_same rfl rfl
      · cases hs
        exact .of_same rfl rfl
  | left q =>
      simp only [Cpu.run, hpc] at hs
      exact .of_loadEsp hs rfl
  | fetched q =>
      simp only [Cpu.run, hpc] at hs
      exact .of_loadEsp hs rfl
  | ret =>
      simp only [Cpu.run, hpc] at hs
      split at hs
      · rename_i fs hk
        cases hs
        refine ⟨fun σ f hf => mem_of_mem_restack ?_ hf, fun n hn => by cases hn⟩
        intro g hg
        rw [hk]
        exact List.mem_cons_of_mem _ hg
      · cases hs
  | resume =>
      simp only [Cpu.run, hpc] at hs
      split at hs
      · -- interrupted code goes on where it was, a claim included
        rename_i pc fs hk
        cases hs
        refine ⟨fun σ f hf => mem_of_mem_restack ?_ hf, fun n hn => .inr ⟨pc, ?_, hn⟩⟩
        · intro g hg
          rw [hk]
          exact List.mem_cons_of_mem _ hg
        · rw [hk]
          exact List.mem_cons_self
      · cases hs
  | _ =>
      simp only [Cpu.run, hpc, Option.some.injEq] at hs
      subst hs
      exact .of_same rfl rfl

/-- Neither a tick nor a system call comes to a claim at once. -/
theorem tick_claims (m : Cpu) : m.tick.pc.claims = none := by
  rw [m.tick_eq]
  split <;> rfl

/-- A tick adds one frame, for the code it interrupted. -/
theorem tick_frames {σ : Nat} {f : Frame} (h : f ∈ m.tick.kstack σ) :
    f = .intr m.pc ∨ f ∈ m.kstack σ := by
  have hk : m.tick.kstack = m.interrupt.kstack := by
    rw [m.tick_eq]
    split <;> rfl
  rw [hk] at h
  unfold Cpu.interrupt at h
  split at h
  · rename_i hu
    have h' : f ∈ Function.update m.kstack ((offset8M - m.v.tssEsp0) / offset8K)
        [.intr .user] σ := h
    by_cases hσ : σ = (offset8M - m.v.tssEsp0) / offset8K
    · subst hσ
      rw [Function.update_self] at h'
      exact .inl (hu ▸ List.mem_singleton.mp h')
    · rw [Function.update_of_ne hσ] at h'
      exact .inr h'
  · have h' : f ∈ Function.update m.kstack m.sp ([.intr m.pc] ++ m.kstack m.sp) σ := h
    by_cases hσ : σ = m.sp
    · subst hσ
      rw [Function.update_self] at h'
      exact List.mem_cons.mp h'
    · rw [Function.update_of_ne hσ] at h'
      exact .inr h'

/-- A system call or a fault puts no interrupt frame on a stack. -/
theorem mem_of_mem_push {s σ : Nat} {fs : List Frame} {pc : Pc} (hno : Frame.intr pc ∉ fs)
    {old : List Frame} (hold : ∀ g ∈ old, g ∈ m.kstack s)
    (h : Frame.intr pc ∈ Function.update m.kstack s (fs ++ old) σ) :
    Frame.intr pc ∈ m.kstack σ := by
  by_cases hσ : σ = s
  · subst hσ
    rw [Function.update_self] at h
    exact hold _ ((List.mem_append.mp h).resolve_left hno)
  · rwa [Function.update_of_ne hσ] at h

/-- A system call from user mode. -/
theorem OwnInv.trapIn (h : OwnInv m) {pc : Pc} (hpc : pc.claims = none)
    (hinv : StacksInv ((m.trapIn [.call, .trap]).jump pc)) :
    OwnInv ((m.trapIn [.call, .trap]).jump pc) where
  laid := hinv
  frames := fun σ q hq => by
    have hq' : Frame.intr q ∈ Function.update m.kstack ((offset8M - m.v.tssEsp0) / offset8K)
        ([.call, .trap] ++ []) σ := hq
    exact h.frames σ q (mem_of_mem_push (by simp) (fun _ hg => absurd hg List.not_mem_nil) hq')
  fresh := fun n hn => by
    have hn' : n ∈ pc.claims := hn
    rw [hpc] at hn'
    cases hn'

/-- **Every step that meets the condition keeps the invariant.** -/
theorem ownInv_step {e : Ev} (h : OwnInv m) (hc : Careful m e) (hs : m.next e = some m') :
    OwnInv m' := by
  have hinv : StacksInv m' := stacksInv_step h.laid (h.calm hc) hs
  cases e with
  | tick =>
      simp only [Cpu.next] at hs
      split at hs
      · cases hs
      · cases hs
        refine ⟨hinv, ?_, ?_⟩
        · intro σ pc hpc
          rcases tick_frames hpc with he | hold
          · cases he
            exact hc.2
          · exact h.frames σ pc hold
        · intro n hn
          rw [tick_claims] at hn
          cases hn
  | execute =>
      simp only [Cpu.next] at hs
      split at hs
      · cases hs
        exact h.trapIn rfl hinv
      · cases hs
  | halt =>
      simp only [Cpu.next] at hs
      split at hs
      · cases hs
        exact h.trapIn rfl hinv
      · cases hs
  | call =>
      simp only [Cpu.next] at hs
      split at hs
      · cases hs
        exact h.trapIn rfl hinv
      · cases hs
  | run =>
      have hg := run_goes hs
      refine ⟨hinv, fun σ pc hpc => h.frames σ pc (hg.frames σ _ hpc), ?_⟩
      intro n hn
      rcases hg.claims n hn with ⟨hv, hfree⟩ | ⟨pc, hpc, hn'⟩
      · rw [hv]
        exact hfree
      · -- interrupted code is never at a claim
        have hex := h.frames m.sp pc hpc
        cases pc with
        | claim who p k => cases hex
        | _ => cases hn'
  | fail =>
      simp only [Cpu.next] at hs
      split at hs
      · cases hs
        exact ⟨hinv, h.frames, fun n hn => by cases hn⟩
      · cases hs
        exact ⟨hinv, h.frames, fun n hn => by cases hn⟩
      · cases hs
  | fault =>
      simp only [Cpu.next] at hs
      split at hs
      · cases hs
        refine ⟨hinv, fun σ pc hpc => h.frames σ pc ?_, fun n hn => by cases hn⟩
        exact mem_of_mem_push (by simp) (fun _ hg => hg) hpc
      · cases hs

/-! ## Every pid has one owner -/

/-- A terminal that has a process has it on its chain. -/
theorem Running.current_mem (hR : Running m c m.pc) (hmask : m.pc.masked = false)
    (hidle : m.pc ≠ .idle) : m.v.current ∈ c m.v.active := by
  have hhead : (c m.v.active).head? = some m.v.current → m.v.current ∈ c m.v.active := by
    intro hh
    obtain ⟨l, hl⟩ := List.head?_eq_some_iff.mp hh
    exact hl ▸ List.mem_cons_self
  by_cases hastray : m.pc.astray = true
  · -- on a stack not its own to save, each place says which chain the process is on
    cases hpc : m.pc with
    | switched =>
        rw [hpc] at hR
        obtain ⟨σ, _, hσ, _⟩ := hR
        exact self_mem_of_mem_upFrom hσ
    | fetched q =>
        rw [hpc] at hR
        obtain ⟨_, σ, _, hσ, _⟩ := hR
        exact self_mem_of_mem_upFrom hσ
    | left q =>
        rw [hpc] at hR
        exact hhead hR.2.1
    | load who p =>
        rw [hpc] at hR hastray
        cases who with
        | launch => exact hR.1 ▸ List.mem_cons_self
        | _ => cases hastray
    | save who p =>
        rw [hpc] at hR hastray
        cases who with
        | launch => exact hR.1 ▸ List.mem_cons_self
        | _ => cases hastray
    | enter who =>
        rw [hpc] at hR hastray
        cases who with
        | launch => exact hR.1 ▸ List.mem_cons_self
        | _ => cases hastray
    | _ =>
        rw [hpc] at hastray
        cases hastray
  · by_cases huser : m.pc = .user
    · rw [huser] at hR
      exact hhead hR.1
    · by_cases hres : m.pc = .resume
      · rw [hres] at hR
        exact self_mem_of_mem_upFrom hR.1
      · have hs := hR.standing hmask (Bool.not_eq_true _ ▸ hastray) hidle huser hres
        exact self_mem_of_mem_upFrom hs.1

/-- The current process of a terminal, if it has one, is on its chain. -/
theorem Laid.currentIn_mem (hL : Laid m c) (hR : Running m c m.pc) {t : Term}
    (h0 : m.currentIn t ≠ 0) : m.currentIn t ∈ c t := by
  unfold Cpu.currentIn at h0 ⊢
  by_cases ht : t = m.v.active
  · subst ht
    rw [if_pos rfl] at h0 ⊢
    split at h0
    · exact absurd rfl h0
    · rename_i hmask
      rw [if_neg hmask]
      refine hR.current_mem (Bool.not_eq_true _ ▸ hmask) ?_
      intro hidle
      rw [hidle] at hR
      exact h0 hR.1
  · rw [if_neg ht] at h0 ⊢
    obtain ⟨σ, _, hσ, _⟩ := (hL.waiting t ht).resolve_left fun hw => h0 hw.2
    exact self_mem_of_mem_upFrom hσ

theorem OwnInv.ownedOnce (h : OwnInv m) : OwnedOnce m := by
  obtain ⟨c, hL, hR⟩ := h.laid
  refine ⟨?_, h.fresh, ?_, ?_⟩
  · intro t u htu h0 he
    have h0' : m.currentIn u ≠ 0 := he ▸ h0
    exact hL.disjoint t u htu _ (hL.currentIn_mem hR h0) (he ▸ hL.currentIn_mem hR h0')
  · intro n hn t ht
    unfold Cpu.currentIn
    rw [if_neg ht]
    exact h.claim hn ht
  · intro n hn t hq pc hpc hch
    have hp := (hL.waiting t hq.2).resolve_left fun hw => hq.1 hw.2
    have hpres := (hp.present h.frames).2 pc hpc n hch
    rw [h.fresh n hn] at hpres
    cases hpres

end Owned

theorem ownInv_boot {v : ProcView} (h : Starting 0 v) : OwnInv (Cpu.boot v) where
  laid := stacksInv_boot h
  frames := fun _ _ hpc => absurd hpc List.not_mem_nil
  fresh := fun n hn => by cases hn

/--
**No pid is ever owned twice**, in any run from boot whose steps meet the condition:
the current processes of the three terminals stay different, and what
`setup_new_process` overwrites is nobody's.
-/
theorem pids_owned_once {v : ProcView} (h : Starting 0 v) {es : List Ev} {m : Cpu}
    (hrun : Run (Guarded Cpu.Step Careful) (Cpu.boot v) es m) : OwnedOnce m := by
  have hinv : OwnInv m := by
    refine Run.invariant (ownInv_boot h) ?_ hrun
    rintro s e s' ⟨hc, hs⟩ hi
    exact ownInv_step hi hc hs
  exact hinv.ownedOnce

instance instDecidableCareful (m : Cpu) : (e : Ev) → Decidable (Careful m e)
  | .tick => inferInstanceAs (Decidable (_ ∧ _))
  | .execute => inferInstanceAs (Decidable (∀ t, t ≠ m.v.active → m.v.processes t ≠ 0))
  | .run => .isTrue trivial
  | .halt => .isTrue trivial
  | .call => .isTrue trivial
  | .fail => .isTrue trivial
  | .fault => .isTrue trivial

/-- Boot, the three shells, and `execute` in the terminal that came up last. -/
def upToExecute : List Ev :=
  launchShell 1 ++ launchShell 2 ++ launchShell 3 ++ [.execute]

/--
A tick in the scan of the first `execute`, a whole `execute` in the next terminal,
and around again: the scan goes on and finds the next PCB.
-/
theorem pids_owned_once_two : ∃ m,
    Run (Guarded Cpu.Step Careful) (Cpu.boot (procs .zero))
      (upToExecute ++ List.replicate 4 .run ++ [.tick] ++ List.replicate 3 .run ++ [.execute]
        ++ List.replicate 8 .run ++ [.tick] ++ List.replicate 3 .run ++ [.tick]
        ++ List.replicate 5 .run) m ∧
      5 ∈ m.pc.claims ∧ m.currentIn 1 = 4 ∧ OwnedOnce m := by
  have hsome : (replay Cpu.next Careful (Cpu.boot (procs .zero))
      (upToExecute ++ List.replicate 4 .run ++ [.tick] ++ List.replicate 3 .run ++ [.execute]
        ++ List.replicate 8 .run ++ [.tick] ++ List.replicate 3 .run ++ [.tick]
        ++ List.replicate 5 .run)).map
        (fun m => (m.pc.claims, m.currentIn 1)) = some (some 5, 4) := by
    decide +kernel
  obtain ⟨m, hm, hq⟩ := Option.map_eq_some_iff.mp hsome
  simp only [Prod.mk.injEq] at hq
  have hrun := run_replay hm
  exact ⟨m, hrun, hq.1, hq.2, pids_owned_once starting_zero hrun⟩

/-- No tick behind the `sti` of `switch_context`. -/
def Inland (m : Cpu) (e : Ev) : Prop := e = .tick → m.pc.astray = false

instance instDecidableInland (m : Cpu) (e : Ev) : Decidable (Inland m e) :=
  inferInstanceAs (Decidable (_ → _))

/-- A tick between the choice of pid `4` and its claim, and an `execute` in the next terminal. -/
def chosenTwice : List Ev :=
  upToExecute ++ List.replicate 5 .run ++ [.tick] ++ List.replicate 3 .run ++ [.execute]
    ++ List.replicate 10 .run ++ [.tick] ++ List.replicate 3 .run ++ [.tick]
    ++ List.replicate 3 .run

/--
**Two terminals own pid `4`.** The second `execute` found it free as well and runs
it already. When the first goes on, it overwrites the PCB, and then both terminals
have it as their current process.
-/
theorem tick_before_claim_shares_pid :
    (∃ m, Run (Guarded Cpu.Step Inland) (Cpu.boot (procs .zero)) chosenTwice m ∧
      4 ∈ m.pc.claims ∧ m.v.present 4 = true ∧ m.currentIn 1 = 4 ∧ ¬ OwnedOnce m) ∧
    ∃ m, Run (Guarded Cpu.Step Inland) (Cpu.boot (procs .zero)) (chosenTwice ++ [.run, .run]) m ∧
      m.currentIn 0 = 4 ∧ m.currentIn 1 = 4 ∧ ¬ OwnedOnce m := by
  constructor
  · have hsome : (replay Cpu.next Inland (Cpu.boot (procs .zero)) chosenTwice).map
        (fun m => (m.pc.claims, m.v.present 4, m.currentIn 1)) = some (some 4, true, 4) := by
      decide +kernel
    obtain ⟨m, hm, hq⟩ := Option.map_eq_some_iff.mp hsome
    simp only [Prod.mk.injEq] at hq
    obtain ⟨hclaim, hpres, hcur⟩ := hq
    refine ⟨m, run_replay hm, hclaim, hpres, hcur, ?_⟩
    intro ho
    rw [ho.dead 4 hclaim] at hpres
    cases hpres
  · have hsome : (replay Cpu.next Inland (Cpu.boot (procs .zero)) (chosenTwice ++ [.run, .run])).map
        (fun m => (m.currentIn 0, m.currentIn 1)) = some (4, 4) := by
      decide +kernel
    obtain ⟨m, hm, hq⟩ := Option.map_eq_some_iff.mp hsome
    simp only [Prod.mk.injEq] at hq
    obtain ⟨h0, h1⟩ := hq
    refine ⟨m, run_replay hm, h0, h1, ?_⟩
    intro ho
    exact ho.distinct 0 1 (by decide) (by rw [h0]; decide) (h0.trans h1.symm)

end Zbiggie.Proof
