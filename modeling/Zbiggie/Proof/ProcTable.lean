import Zbiggie.Machine.Piles
import Zbiggie.Proof.ProcStep

/-!
# Three chains of processes

The process table is three stacks, one per terminal. The top of terminal `t`'s
stack is the process `t` will run next — `queued v t` — and each process's parent
is the one below it, down to a base shell, which is one of `1`, `2`, `3`.

`processes[t]` alone does not say what the top is: the slot of the active terminal
is stale until the next tick. `queued` overrides it with `current_process`, and on
`queued` a tick is the identity. What is left is a push (`execute`), a pop
(`halt`) and the pop-then-push of a base shell, which lands on the pid it started
from because the other two base pids are in use.
-/

namespace Zbiggie.Proof

open Zbiggie Machine

/-- The process of terminal `t`, with the stale slot of the active one overridden. -/
def queued (v : ProcView) (t : Term) : Nat :=
  if t = v.active then v.current else v.processes t

/-- The base shell of each terminal: the timer starts terminal `1` first and `0` last. -/
def basePid : Term → Nat
  | 0 => 3
  | 1 => 1
  | 2 => 2

theorem basePid_lt (t : Term) : basePid t < 4 := by
  revert t; decide

theorem exists_basePid {p : Nat} (h1 : 1 ≤ p) (h4 : p < 4) : ∃ t, p = basePid t := by
  have hall : ∀ p : Fin 4, 1 ≤ p.val → ∃ t, p.val = basePid t := by decide
  exact hall ⟨p, h4⟩ h1

theorem basePid_injective {t u : Term} (h : basePid t = basePid u) : t = u := by
  revert t u; decide

/-- The pids met by following `parent` from `p` down to a base pid, in order. -/
inductive ParentChain (parent : Nat → Nat) : Nat → List Nat → Prop where
  | base {p : Nat} : 1 ≤ p → p < 4 → ParentChain parent p [p]
  | link {p : Nat} {ps : List Nat} : 4 ≤ p → ParentChain parent (parent p) ps →
      ParentChain parent p (p :: ps)

theorem ParentChain.head_mem {parent : Nat → Nat} {p : Nat} {ps : List Nat}
    (h : ParentChain parent p ps) : p ∈ ps := by
  cases h <;> exact List.mem_cons_self

/-- A chain depends on `parent` only at its own members that are no base pids. -/
theorem ParentChain.congr {parent parent' : Nat → Nat} {p : Nat} {ps : List Nat}
    (h : ParentChain parent p ps) (heq : ∀ q ∈ ps, 4 ≤ q → parent' q = parent q) :
    ParentChain parent' p ps := by
  induction h with
  | base h1 h2 => exact .base h1 h2
  | link h4 _ ih =>
      refine .link h4 ?_
      rw [heq _ List.mem_cons_self h4]
      exact ih (fun q hq => heq q (List.mem_cons_of_mem _ hq))

/-- In a chain without repetition the parent of a member comes strictly after its top. -/
theorem ParentChain.parent_mem {parent : Nat → Nat} {top : Nat} {ps : List Nat}
    (h : ParentChain parent top ps) (hnd : ps.Nodup) {p : Nat} (hp : p ∈ ps) (h4 : 4 ≤ p) :
    parent p ∈ ps ∧ parent p ≠ top := by
  induction h with
  | base _ _ => rw [List.mem_singleton] at hp; omega
  | @link q ps _ hps ih =>
      obtain ⟨hq, hnd'⟩ := List.nodup_cons.mp hnd
      have hin : parent p ∈ ps := by
        rcases List.mem_cons.mp hp with rfl | hp'
        · exact hps.head_mem
        · exact (ih hnd' hp').1
      exact ⟨List.mem_cons_of_mem _ hin, fun he => hq (he ▸ hin)⟩

/-- The three chains of a process table. -/
structure Chains (v : ProcView) (c : Term → List Nat) : Prop where
  /-- Terminal `t`'s chain starts at its queued process. -/
  chain : ∀ t, ParentChain v.parent (queued v t) (c t)
  /-- No pid occurs twice in a chain. -/
  nodup : ∀ t, (c t).Nodup
  /-- No pid occurs in two chains. -/
  disjoint : ∀ t u, t ≠ u → ∀ p ∈ c t, p ∉ c u
  /-- Each chain ends in its terminal's own base shell. -/
  base : ∀ t, (c t).getLast? = some (basePid t)
  /-- The present pids are those in a chain. -/
  cover : ∀ p, v.present p = true ↔ ∃ t, p ∈ c t
  /-- Pids are process numbers. -/
  range : ∀ p, v.present p = true → 1 ≤ p ∧ p ≤ maxPid

/-- **The process-table invariant.** -/
def ProcInv (v : ProcView) : Prop := ∃ c, Chains v c

namespace Chains

variable {v : ProcView} {c : Term → List Nat}

theorem queued_active (v : ProcView) : queued v v.active = v.current := if_pos rfl

theorem present_of_mem (h : Chains v c) {t : Term} {p : Nat} (hp : p ∈ c t) :
    v.present p = true := (h.cover p).mpr ⟨t, hp⟩

theorem queued_mem (h : Chains v c) (t : Term) : queued v t ∈ c t := (h.chain t).head_mem

theorem base_mem (h : Chains v c) (t : Term) : basePid t ∈ c t :=
  List.mem_of_getLast? (h.base t)

/-- The base pids are in use throughout. -/
theorem base_present (h : Chains v c) {p : Nat} (h1 : 1 ≤ p) (h2 : p < 4) :
    v.present p = true := by
  have hp : p = 1 ∨ p = 2 ∨ p = 3 := by omega
  rcases hp with rfl | rfl | rfl
  · exact h.present_of_mem (h.base_mem 1)
  · exact h.present_of_mem (h.base_mem 2)
  · exact h.present_of_mem (h.base_mem 0)

/-- A queued process that has a base pid is its terminal's own base shell, alone in its chain. -/
theorem eq_singleton (h : Chains v c) {t : Term} (hlt : queued v t < 4) :
    c t = [basePid t] ∧ queued v t = basePid t := by
  have hc := h.chain t
  have hb := h.base t
  generalize hq : queued v t = q at hc hlt
  generalize c t = ps at hc hb
  cases hc with
  | base h1 h2 =>
      simp only [List.getLast?_singleton, Option.some.injEq] at hb
      exact ⟨by rw [hb], hb⟩
  | link h4 _ => omega

/-- A queued process that has no base pid sits on the rest of its chain. -/
theorem eq_cons (h : Chains v c) {t : Term} (hge : 4 ≤ queued v t) :
    ∃ ps, c t = queued v t :: ps ∧ ParentChain v.parent (v.parent (queued v t)) ps := by
  have hc := h.chain t
  generalize queued v t = q at hc hge
  generalize c t = ps at hc
  cases hc with
  | base h1 h2 => omega
  | link _ hps => exact ⟨_, rfl, hps⟩

/-- The first free pid is not a base pid, and is in no chain. -/
theorem firstFree_not_mem (h : Chains v c) {n : Nat} (hn : FirstFree v.present n) :
    4 ≤ n ∧ ∀ t, n ∉ c t := by
  constructor
  · by_contra hlt
    have := h.base_present hn.1 (by omega)
    rw [hn.2.2.1] at this; cases this
  · intro t hmem
    have := h.present_of_mem hmem
    rw [hn.2.2.1] at this; cases this

/-- The parent of an executed process is present, and is not the one running. -/
theorem parent_present (h : Chains v c) {p : Nat} (hp : v.present p = true) (h4 : 4 ≤ p) :
    v.present (v.parent p) = true ∧ v.parent p ≠ v.current := by
  obtain ⟨t, ht⟩ := (h.cover p).mp hp
  obtain ⟨hmem, hne⟩ := (h.chain t).parent_mem (h.nodup t) ht h4
  refine ⟨h.present_of_mem hmem, ?_⟩
  intro he
  -- the running process tops the active terminal's chain, and no other holds it
  have hcur : v.current ∈ c v.active := queued_active v ▸ h.queued_mem v.active
  by_cases hta : t = v.active
  · subst hta
    rw [queued_active] at hne
    exact hne he
  · exact h.disjoint v.active t (Ne.symm hta) _ hcur (he ▸ hmem)

theorem current_present (h : Chains v c) : v.present v.current = true := by
  rw [← queued_active v]
  exact h.present_of_mem (h.queued_mem v.active)

/-- No slot of the run queue is empty. -/
theorem queued_ne_zero (h : Chains v c) (t : Term) : queued v t ≠ 0 := by
  have := h.range _ (h.present_of_mem (h.queued_mem t))
  omega

theorem next_ne_zero (h : Chains v c) : v.processes (v.active + 1) ≠ 0 := by
  have hq := h.queued_ne_zero (v.active + 1)
  rwa [queued, if_neg (succ_ne _)] at hq

/-! ### One move at a time -/

theorem apart (h : Chains v c) : Apart c := ⟨h.nodup, h.disjoint⟩

/-- A push: `execute` puts `n` on top of the active terminal's chain. -/
theorem exec (h : Chains v c) {n : Nat} (hn : FirstFree v.present n) :
    Chains (v.alloc n) (Function.update c v.active (n :: c v.active)) := by
  obtain ⟨h4, hfresh⟩ := h.firstFree_not_mem hn
  have hpar : ∀ t, ∀ q ∈ c t, 4 ≤ q → (v.alloc n).parent q = v.parent q := by
    intro t q hq _
    have hne : q ≠ n := fun he => hfresh t (he ▸ hq)
    exact Function.update_of_ne hne _ _
  have hpush : Apart (Function.update c v.active (n :: c v.active)) := h.apart.push hfresh
  constructor
  · -- the active chain gains a link, the others read the parents they read before
    rw [Function.forall_update_iff c fun t l =>
      ParentChain (v.alloc n).parent (queued (v.alloc n) t) l]
    constructor
    · have hq : queued (v.alloc n) v.active = n := queued_active (v.alloc n)
      have hcur : (v.alloc n).parent n = queued v v.active := by
        rw [queued_active]; exact Function.update_self ..
      rw [hq]
      refine .link h4 ?_
      rw [hcur]
      exact (h.chain v.active).congr (hpar v.active)
    · intro t ht
      have hq : queued (v.alloc n) t = queued v t := by
        simp [queued, ht]
      rw [hq]
      exact (h.chain t).congr (hpar t)
  · exact hpush.nodup
  · exact hpush.disjoint
  · rw [Function.forall_update_iff c fun t l => l.getLast? = some (basePid t)]
    refine ⟨?_, fun t _ => h.base t⟩
    rw [List.getLast?_cons, h.base]
    rfl
  · -- present are the old processes and `n`
    intro p
    by_cases hpn : p = n
    · subst hpn
      simp only [ProcView.alloc_present, Function.update_self, true_iff]
      exact ⟨v.active, mem_push.mpr (.inr ⟨rfl, rfl⟩)⟩
    · rw [ProcView.alloc_present, Function.update_of_ne hpn, h.cover p]
      constructor
      · rintro ⟨t, ht⟩; exact ⟨t, mem_push.mpr (.inl ht)⟩
      · rintro ⟨t, ht⟩
        rcases mem_push.mp ht with ht | ⟨_, hp⟩
        · exact ⟨t, ht⟩
        · exact absurd hp hpn
  · intro p hp
    by_cases hpn : p = n
    · subst hpn; exact ⟨hn.1, hn.2.1⟩
    · rw [ProcView.alloc_present, Function.update_of_ne hpn] at hp
      exact h.range p hp

/-- A tick changes which terminal is active, and nothing else. -/
theorem queued_resume (v : ProcView) (t : Term) :
    queued (Move.resume.apply v) t = queued v t := by
  show (if t = v.active + 1 then v.processes (v.active + 1)
    else Function.update v.processes v.active v.current t) = queued v t
  unfold queued
  by_cases h1 : t = v.active + 1
  · subst h1
    rw [if_pos rfl, if_neg (succ_ne _)]
  · rw [if_neg h1]
    by_cases h2 : t = v.active
    · subst h2; rw [if_pos rfl, Function.update_self]
    · rw [if_neg h2, Function.update_of_ne h2]

theorem resume (h : Chains v c) : Chains (Move.resume.apply v) c where
  chain := fun t => by rw [queued_resume]; exact h.chain t
  nodup := h.nodup
  disjoint := h.disjoint
  base := h.base
  cover := h.cover
  range := h.range

/-- A base shell that halts comes back under its own pid: the other two are taken. -/
theorem relaunch_same (h : Chains v c) (hlt : v.current < 4) {n : Nat} :
    FirstFree v.release.present n ↔ n = v.current := by
  have hcur1 : 1 ≤ v.current := by
    have := h.range _ (h.present_of_mem (h.queued_mem v.active))
    rw [queued_active] at this
    exact this.1
  have hother : ∀ m, 1 ≤ m → m < 4 → m ≠ v.current → v.release.present m = true := by
    intro m h1 h2 hne
    rw [ProcView.release_present, Function.update_of_ne hne]
    exact h.base_present h1 h2
  have hfree : FirstFree v.release.present v.current :=
    ⟨hcur1, by simp only [maxPid]; omega, Function.update_self .., fun m h1 h2 =>
      hother m h1 (by omega) (by omega)⟩
  constructor
  · intro hn; exact hn.unique hfree
  · rintro rfl; exact hfree

theorem relaunch (h : Chains v c) (hlt : v.current < 4) :
    Chains (v.release.alloc v.current) c := by
  have hpres : (v.release.alloc v.current).present = v.present := by
    funext p
    by_cases hp : p = v.current
    · subst hp
      simp only [ProcView.alloc_present, Function.update_self]
      rw [← queued_active v]
      exact (h.present_of_mem (h.queued_mem v.active)).symm
    · simp only [ProcView.alloc_present, ProcView.release_present, Function.update_of_ne hp]
  have hpar : ∀ q, 4 ≤ q → (v.release.alloc v.current).parent q = v.parent q := by
    intro q hq
    exact Function.update_of_ne (by omega) _ _
  exact
    { chain := fun t => (h.chain t).congr (fun q _ hq => hpar q hq)
      nodup := h.nodup
      disjoint := h.disjoint
      base := h.base
      cover := fun p => by rw [hpres]; exact h.cover p
      range := fun p hp => h.range p (by rwa [hpres] at hp) }

/-- A pop: `halt` takes the current process off the active terminal's chain. -/
theorem leave (h : Chains v c) (hge : 4 ≤ v.current) : ProcInv (Move.leave.apply v) := by
  obtain ⟨ps, hps, hchain⟩ := h.eq_cons (t := v.active) (by rw [queued_active]; exact hge)
  rw [queued_active] at hps hchain
  have hpop : Apart (Function.update c v.active ps) := h.apart.pop hps
  have hpres : ∀ p, (Move.leave.apply v).present p = true ↔ v.present p = true ∧ p ≠ v.current := by
    intro p
    show Function.update v.present v.current false p = true ↔ _
    by_cases hp : p = v.current
    · subst hp; simp
    · simp [hp]
  refine ⟨Function.update c v.active ps, ?_, hpop.nodup, hpop.disjoint, ?_, ?_, ?_⟩
  · -- the active terminal goes on with the parent, whose chain is the tail
    rw [Function.forall_update_iff c fun t l =>
      ParentChain (Move.leave.apply v).parent (queued (Move.leave.apply v) t) l]
    constructor
    · have hq : queued (Move.leave.apply v) v.active = v.parent v.current :=
        queued_active (Move.leave.apply v)
      rw [hq]
      exact hchain
    · intro t ht
      have hq : queued (Move.leave.apply v) t = queued v t := by
        show (if t = v.active then _ else v.processes t) = _
        rw [queued, if_neg ht, if_neg ht]
      rw [hq]
      exact h.chain t
  · rw [Function.forall_update_iff c fun t l => l.getLast? = some (basePid t)]
    refine ⟨?_, fun t _ => h.base t⟩
    have hb := h.base v.active
    rw [hps] at hb
    -- a chain of one is a base shell, and those do not leave
    have hne : ps ≠ [] := by
      rintro rfl
      cases hchain
    rwa [List.getLast?_cons_of_ne_nil hne] at hb
  · intro p
    rw [hpres, h.cover]
    constructor
    · rintro ⟨⟨t, ht⟩, hne⟩
      exact ⟨t, (h.apart.mem_pop hps).mpr ⟨ht, hne⟩⟩
    · rintro ⟨t, ht⟩
      obtain ⟨hmem, hne⟩ := (h.apart.mem_pop hps).mp ht
      exact ⟨⟨t, hmem⟩, hne⟩
  · intro p hp
    exact h.range p ((hpres p).mp hp).1

end Chains

/-- **The invariant is preserved by every move.** -/
theorem procInv_move {v : ProcView} {m : Move} (h : ProcInv v) (hm : m.Enabled v) :
    ProcInv (m.apply v) := by
  obtain ⟨c, hc⟩ := h
  cases m with
  | refuse => exact ⟨c, hc⟩
  | exec n => exact ⟨_, hc.exec hm⟩
  | resume => exact ⟨c, hc.resume⟩
  | launch n => exact absurd hm.1 hc.next_ne_zero
  | relaunch n =>
      obtain rfl := (hc.relaunch_same hm.1).mp hm.2
      exact ⟨c, hc.relaunch hm.1⟩
  | leave => exact hc.leave hm

/-! ## The first three ticks

Before the three base shells are there, the table is even simpler: `j` shells have
been started, the last of them is running in terminal `j`, and the slots ahead are
empty. -/

/-- The table after `j` base shells have been started and nothing has been executed. -/
structure Starting (j : Term) (v : ProcView) : Prop where
  active : v.active = j
  current : v.current = j.val
  present : ∀ p, v.present p = true ↔ 1 ≤ p ∧ p ≤ j.val
  processes : ∀ t, v.processes t = if t < j then t.val else 0

namespace Starting

variable {j : Term} {v : ProcView}

theorem next_zero (h : Starting j v) : v.processes (v.active + 1) = 0 := by
  have hwrap : ∀ j : Term, (if j + 1 < j then (j + 1).val else 0) = 0 := by decide
  rw [h.processes, h.active]
  exact hwrap j

theorem firstFree_iff (h : Starting j v) {n : Nat} :
    FirstFree v.present n ↔ n = j.val + 1 := by
  have hj := j.isLt
  have hfree : FirstFree v.present (j.val + 1) := by
    refine ⟨by omega, by simp only [maxPid]; omega, ?_,
      fun m h1 h2 => (h.present m).mpr ⟨h1, by omega⟩⟩
    rw [← Bool.not_eq_true, h.present]
    omega
  constructor
  · intro hn; exact hn.unique hfree
  · rintro rfl; exact hfree

theorem enqueue_present (h : Starting j v) (p : Nat) :
    (v.enqueue.alloc (j.val + 1)).present p = true ↔ 1 ≤ p ∧ p ≤ j.val + 1 := by
  show Function.update v.present (j.val + 1) true p = true ↔ _
  by_cases hp : p = j.val + 1
  · subst hp; simp
  · rw [Function.update_of_ne hp, h.present]
    omega

/-- The next base shell, while there is a terminal left after it. -/
theorem launch (h : Starting j v) (hj : j ≠ 2) :
    Starting (j + 1) (v.enqueue.alloc (j.val + 1)) := by
  have hsucc : ∀ j : Term, j ≠ 2 → (j + 1).val = j.val + 1 := by decide
  have hval := hsucc j hj
  have hlt : ∀ t : Term, t < j + 1 ↔ t.val < j.val + 1 := fun t => by rw [Fin.lt_def, hval]
  constructor
  · exact congrArg (· + 1) h.active
  · exact hval.symm
  · intro p; rw [h.enqueue_present, hval]
  · intro t
    show Function.update v.processes v.active v.current t = _
    rw [h.active, h.current]
    by_cases ht : t = j
    · subst ht
      rw [Function.update_self, if_pos ((hlt t).mpr (Nat.lt_succ_self _))]
    · rw [Function.update_of_ne ht, h.processes]
      have hne : t.val ≠ j.val := fun he => ht (Fin.ext he)
      by_cases htj : t < j
      · rw [if_pos htj, if_pos ((hlt t).mpr (Nat.lt_succ_of_lt htj))]
      · rw [if_neg htj, if_neg (fun h =>
          htj (Nat.lt_of_le_of_ne (Nat.le_of_lt_succ ((hlt t).mp h)) hne))]

/-- The last base shell: from here on the three chains are there. -/
theorem launch_last (h : Starting 2 v) : ProcInv (v.enqueue.alloc 3) := by
  have hpres : ∀ p, (v.enqueue.alloc 3).present p = true ↔ 1 ≤ p ∧ p ≤ 3 := h.enqueue_present
  have hq : ∀ t, queued (v.enqueue.alloc 3) t = basePid t := by
    intro t
    show (if t = v.active + 1 then 3 else Function.update v.processes v.active v.current t) = _
    rw [h.active, h.current]
    have hp := h.processes t
    revert hp
    match t with
    | 0 => intro _; rfl
    | 1 => intro hp; exact hp
    | 2 => intro _; rfl
  refine ⟨fun t => [basePid t], ?_, fun t => List.nodup_cons.mpr ⟨by simp, .nil⟩, ?_,
    fun t => rfl, ?_, ?_⟩
  · intro t
    rw [hq]
    exact .base (by revert t; decide) (by revert t; decide)
  · intro t u htu p hp hu
    rw [List.mem_singleton] at hp hu
    subst hp
    revert t u
    decide
  · intro p
    rw [hpres]
    constructor
    · rintro ⟨h1, h2⟩
      have h3 : ∀ p : Fin 4, 1 ≤ p.val → ∃ t, p.val ∈ [basePid t] := by decide
      exact h3 ⟨p, by show p < 4; exact Nat.lt_succ_of_le h2⟩ h1
    · rintro ⟨t, ht⟩
      rw [List.mem_singleton] at ht
      subst ht
      revert t; decide
  · intro p hp
    rw [hpres] at hp
    exact ⟨hp.1, Nat.le_trans hp.2 (by decide)⟩

/-- A base shell that halts early comes back under its own pid too. -/
theorem relaunch_same (h : Starting j v) (hj : j ≠ 0) {n : Nat} :
    FirstFree v.release.present n ↔ n = v.current := by
  have hj0 : 0 < j.val := Nat.pos_of_ne_zero (fun he => hj (Fin.ext he))
  have hlt := j.isLt
  have hfree : FirstFree v.release.present v.current := by
    refine ⟨by rw [h.current]; omega, by rw [h.current]; simp only [maxPid]; omega,
      Function.update_self .., ?_⟩
    intro m h1 h2
    rw [ProcView.release_present, Function.update_of_ne (by omega), h.present]
    rw [h.current] at h2
    omega
  constructor
  · intro hn; exact hn.unique hfree
  · rintro rfl; exact hfree

theorem relaunch (h : Starting j v) (hj : j ≠ 0) : Starting j (v.release.alloc v.current) where
  active := h.active
  current := h.current
  present := by
    intro p
    have hj0 : 0 < j.val := Nat.pos_of_ne_zero (fun he => hj (Fin.ext he))
    by_cases hp : p = v.current
    · subst hp
      simp only [ProcView.alloc_present, Function.update_self, true_iff]
      rw [h.current]
      omega
    · rw [ProcView.alloc_present, ProcView.release_present, Function.update_of_ne hp,
        Function.update_of_ne hp]
      exact h.present p
  processes := h.processes

/-- A tick from here launches a shell. -/
theorem tick (h : Starting j v) {m : Move} (hm : m.Enabled v) {loc : ExecLocals} {esp : Nat}
    (ha : (Act.tick loc esp).Makes m) : m = .launch (j.val + 1) := by
  cases m with
  | resume => exact absurd h.next_zero hm
  | launch n => rw [h.firstFree_iff.mp hm.2]
  | refuse => exact ha.elim
  | exec _ => exact ha.elim
  | relaunch _ => exact ha.elim
  | leave => exact ha.elim

end Starting

/-- One of the first two ticks. -/
theorem starting_tick {L : Layout} {img : Image} {loc : ExecLocals} {esp : Nat} {k k' : Kernel}
    {j : Term} (h : Starting j (procs k)) (hj : j ≠ 2) (hs : nextTask L img loc esp k = some k') :
    Starting (j + 1) (procs k') := by
  obtain ⟨m, ha, hm, hv⟩ := tick_move hs
  rw [h.tick hm ha] at hv
  rw [hv]
  exact h.launch hj

/-- The third tick. -/
theorem starting_third_tick {L : Layout} {img : Image} {loc : ExecLocals} {esp : Nat}
    {k k' : Kernel} (h : Starting 2 (procs k)) (hs : nextTask L img loc esp k = some k') :
    ProcInv (procs k') := by
  obtain ⟨m, ha, hm, hv⟩ := tick_move hs
  rw [h.tick hm ha] at hv
  rw [hv]
  exact h.launch_last

/-- The shell being on disk, those ticks go through. -/
theorem starting_tick_runs {L : Layout} {img : Image} {k : Kernel} {j : Term}
    (hshell : ShellLoads img) (h : Starting j (procs k)) (loc : ExecLocals) (esp : Nat) :
    ∃ k', nextTask L img loc esp k = some k' := by
  rw [nextTask_eq, if_pos h.next_zero]
  have hfree : FirstFree (procs (incrCurrentActiveProcess
      (saveEsp k.task.currentProcess esp (saveQueue k)))).present (j.val + 1) := by
    rw [procs_tick]
    exact h.firstFree_iff.mpr rfl
  obtain ⟨k', hl, _⟩ := launched_of_free (L := L) hshell hfree loc esp
  exact ⟨k', hl⟩

/-! ## Every reachable table -/

theorem procInv_step {L : Layout} {img : Image} {k k' : Kernel} {a : Act}
    (hs : procStep L img k a k') (h : ProcInv (procs k)) : ProcInv (procs k') := by
  obtain ⟨m, _, hm, hv⟩ := step_move hs
  rw [hv]
  exact procInv_move h hm

/-- A `halt` below pid `4` starts a shell in the first PCB that is then free. -/
theorem halt_relaunches {L : Layout} {img : Image} {k : Kernel} {n : Nat} (hshell : ShellLoads img)
    (hlt : (procs k).current < 4) (hn : FirstFree (procs k).release.present n)
    (loc : ExecLocals) (esp : Nat) (ebx : Word) :
    ∃ k', halt L img loc esp ebx k = some (.relaunched, k') ∧
      procs k' = (procs k).release.alloc n := by
  rw [← procs_freeCurrentPcb] at hn
  obtain ⟨k', hl, hv⟩ := launched_of_free (L := L) hshell hn loc esp
  refine ⟨k', ?_, ?_⟩
  · rw [halt_eq, if_pos hlt, hl]
    rfl
  · rw [hv, procs_freeCurrentPcb]

/-- No operation is ever stuck: the launches all find a PCB. -/
theorem procStep_total {L : Layout} {img : Image} {k : Kernel} (hshell : ShellLoads img)
    (h : ProcInv (procs k)) (a : Act) : ∃ k', procStep L img k a k' := by
  cases a with
  | tick loc esp =>
      obtain ⟨c, hc⟩ := h
      exact ⟨_, by rw [procStep, nextTask_eq, if_neg hc.next_ne_zero]⟩
  | execute loc esp ptr cmd =>
      rcases execute_spec L img loc esp ptr cmd k with ⟨_, hex⟩ | ⟨_, r, k', hex, _⟩
      · exact ⟨k, .failed, hex⟩
      · exact ⟨k', r, hex⟩
  | halt loc esp ebx =>
      by_cases hlt : (procs k).current < 4
      · obtain ⟨c, hc⟩ := h
        obtain ⟨k', hh, _⟩ := halt_relaunches (L := L) hshell hlt
          ((hc.relaunch_same hlt).mpr rfl) loc esp ebx
        exact ⟨k', _, hh⟩
      · exact ⟨_, _, by rw [halt_eq, if_neg hlt]⟩

/-- What the process table of a running system looks like. -/
structure TableSound (L : Layout) (img : Image) (k : Kernel) : Prop where
  /-- Each terminal has a present process. -/
  present : ∀ t, (procs k).present (queued (procs k) t) = true ∧
    1 ≤ queued (procs k) t ∧ queued (procs k) t ≤ maxPid
  /-- No two terminals have the same one. -/
  distinct : ∀ t u, t ≠ u → queued (procs k) t ≠ queued (procs k) u
  /-- Parents lead to the terminal's own base pid, in three disjoint chains of all present pids. -/
  chains : ∃ c, Chains (procs k) c
  /-- A base shell that halts is back under the same pid. -/
  relaunch : k.task.currentProcess < 4 → ∀ loc esp ebx,
    ∃ k', halt L img loc esp ebx k = some (.relaunched, k') ∧
      k'.task.currentProcess = k.task.currentProcess
  /-- Whatever is tried next happens. -/
  total : ∀ a, ∃ k', procStep L img k a k'

/--
**The process table is three chains, for ever.** Once three ticks have launched the
base shells, every sequence of ticks, executes and halts leads to a table in which
the run queue, with its active slot overridden, is the tops of three disjoint chains
of parents that end in `3`, `1` and `2` and hold exactly the present processes; and
the relaunch of a base shell gets its pid back.
-/
theorem procTable_reachable {L : Layout} {img : Image} (hshell : ShellLoads img)
    {k0 k1 k2 k3 k : Kernel} (h0 : Starting 0 (procs k0))
    {loc1 loc2 loc3 : ExecLocals} {esp1 esp2 esp3 : Nat}
    (h1 : nextTask L img loc1 esp1 k0 = some k1) (h2 : nextTask L img loc2 esp2 k1 = some k2)
    (h3 : nextTask L img loc3 esp3 k2 = some k3)
    {as : List Act} (hrun : Run (procStep L img) k3 as k) : TableSound L img k := by
  have hstart : ProcInv (procs k3) :=
    starting_third_tick (starting_tick (starting_tick h0 (by decide) h1) (by decide) h2) h3
  have hinv : ProcInv (procs k) :=
    hrun.invariant (I := fun k => ProcInv (procs k)) hstart (fun _ _ _ hs h => procInv_step hs h)
  obtain ⟨c, hc⟩ := hinv
  refine ⟨?_, ?_, ⟨c, hc⟩, ?_, ?_⟩
  · intro t
    have hp := hc.present_of_mem (hc.queued_mem t)
    exact ⟨hp, hc.range _ hp⟩
  · intro t u htu he
    exact hc.disjoint t u htu _ (hc.queued_mem t) (he ▸ hc.queued_mem u)
  · intro hlt loc esp ebx
    obtain ⟨k', hh, hv⟩ := halt_relaunches (L := L) hshell hlt
      ((hc.relaunch_same hlt).mpr rfl) loc esp ebx
    exact ⟨k', hh, congrArg ProcView.current hv⟩
  · intro a
    exact procStep_total hshell ⟨c, hc⟩ a

/-- A disk that holds nothing but a shell. -/
def shellDisk : Image := oneFile execstring (headerOnly 0x40)

/-- Its header is all in the file, so the loader's stale buffer does not show. -/
theorem shellDisk_word (loc : ExecLocals) {a : Nat} (ha : a + 3 < 28) :
    loadWord (headerBuf shellDisk loc 0) a = loadWord (headerBuf shellDisk someLocals 0) a := by
  have hcount : headerCount shellDisk 0 = 28 := by decide
  have hbyte : ∀ j, j < 28 → headerBuf shellDisk loc 0 j = headerBuf shellDisk someLocals 0 j := by
    intro j hj
    unfold headerBuf
    rw [if_pos (by omega), if_pos (by omega)]
  unfold loadWord
  rw [hbyte _ ha, hbyte (a + 2) (by omega), hbyte (a + 1) (by omega), hbyte a (by omega)]

theorem shellDisk_loads : ShellLoads shellDisk := by
  refine ⟨0, by unfold BodyFits; decide, fun loc => ⟨⟨0, rfl, by decide, by decide, ?_⟩, ?_⟩⟩
  · rw [shellDisk_word loc (by omega)]
    decide
  · unfold entryWord
    rw [shellDisk_word loc (by omega)]
    decide

theorem starting_zero : Starting 0 (procs .zero) where
  active := rfl
  current := rfl
  present := fun p => by
    show false = true ↔ 1 ≤ p ∧ p ≤ 0
    simp
    omega
  processes := fun t => by revert t; decide

theorem procTable_after_boot : ∃ k1 k2 k3 k,
    nextTask someLayout shellDisk someLocals 0 .zero = some k1 ∧
      nextTask someLayout shellDisk someLocals 0 k1 = some k2 ∧
      nextTask someLayout shellDisk someLocals 0 k2 = some k3 ∧
      Run (procStep someLayout shellDisk) k3
        [.execute someLocals 0 0x08000000 execstring, .tick someLocals 0] k ∧
      TableSound someLayout shellDisk k := by
  have s0 := starting_zero
  obtain ⟨k1, h1⟩ := starting_tick_runs (L := someLayout) shellDisk_loads s0 someLocals 0
  have s1 := starting_tick s0 (by decide) h1
  obtain ⟨k2, h2⟩ := starting_tick_runs (L := someLayout) shellDisk_loads s1 someLocals 0
  have s2 := starting_tick s1 (by decide) h2
  obtain ⟨k3, h3⟩ := starting_tick_runs (L := someLayout) shellDisk_loads s2 someLocals 0
  have s3 := starting_third_tick s2 h3
  obtain ⟨k4, h4⟩ := procStep_total (L := someLayout) shellDisk_loads s3
    (.execute someLocals 0 0x08000000 execstring)
  obtain ⟨k5, h5⟩ := procStep_total (L := someLayout) shellDisk_loads (procInv_step h4 s3)
    (.tick someLocals 0)
  have hrun := (Run.one h4).append (Run.one h5)
  exact ⟨k1, k2, k3, k5, h1, h2, h3, hrun, procTable_reachable shellDisk_loads s0 h1 h2 h3 hrun⟩

end Zbiggie.Proof
