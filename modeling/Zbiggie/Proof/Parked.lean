import Zbiggie.Proof.Preempt
import Zbiggie.Proof.ProcTable

/-!
# Who owns which kernel stack

Each terminal has its chain of processes (`Proof/ProcTable`), and with the chain
the kernel stacks of the processes on it. This file says what that means for a
processor between two stores: what the running code may be doing and on which
stack (`Running`), what is known of code a tick has put aside (`Parked`), and what
the chains and PCBs are like meanwhile (`Laid`).

Of the chain of `Proof/ProcTable` less is left here. A process that is halting has
no PCB, but is still the one its terminal would go on with; one that was claimed a
moment ago is on the chain, but is not current yet.

The second half is one lemma per thing a terminal can do to its own chain. All of
them go through `Laid.step`: what is on the other chains is not touched, so only
the active one has to be looked at.
-/

namespace Zbiggie.Proof

open Zbiggie Machine

/-! ## A process and its ancestors -/

/-- From `x` to the end of its chain: `x` and the processes it was started from. -/
def upFrom (x : Nat) (l : List Nat) : List Nat := l.dropWhile (· ≠ x)

theorem upFrom_self (x : Nat) (l : List Nat) : upFrom x (x :: l) = x :: l := by
  simp [upFrom]

theorem upFrom_cons_of_ne {x p : Nat} (h : p ≠ x) (l : List Nat) :
    upFrom x (p :: l) = upFrom x l := by
  simp [upFrom, h]

theorem mem_of_mem_upFrom {x y : Nat} {l : List Nat} (h : y ∈ upFrom x l) : y ∈ l :=
  (List.dropWhile_suffix _).subset h

theorem self_mem_of_mem_upFrom {x y : Nat} {l : List Nat} (h : y ∈ upFrom x l) : x ∈ l := by
  induction l with
  | nil => exact absurd h List.not_mem_nil
  | cons p l ih =>
      by_cases hp : p = x
      · exact hp ▸ List.mem_cons_self
      · rw [upFrom_cons_of_ne hp] at h
        exact List.mem_cons_of_mem _ (ih h)

/-- At the head of a chain, `upFrom` is the whole chain. -/
theorem mem_upFrom_head {x y : Nat} {l : List Nat} (hx : l.head? = some x) (hy : y ∈ l) :
    y ∈ upFrom x l := by
  obtain ⟨l', rfl⟩ := List.head?_eq_some_iff.mp hx
  rwa [upFrom_self]

/-! ## What is known of a context -/

/-- Every terminal has had its shell. -/
def Booted (c : Term → List Nat) : Prop := ∀ t, c t ≠ []

/--
The kernel may be at `pc` on stack `σ`, as terminal `t`'s process `cur`, with `t`'s
chain as it is. Where a tick may come this also describes interrupted code.
-/
def Standing (v : ProcView) (c : Term → List Nat) (t : Term) (cur σ : Nat) : Pc → Prop
  | .exec => (c t).head? = some cur ∧ v.present cur = true ∧ Booted c
  | .find .execute p i =>
      (c t).head? = some cur ∧ v.present cur = true ∧ Booted c ∧ p = cur ∧ 1 ≤ i
  | .claim .execute p n =>
      (c t).head? = some cur ∧ v.present cur = true ∧ Booted c ∧ p = cur ∧ 1 ≤ n ∧ n ≤ maxPid
  | .switch .execute p n =>
      p = cur ∧ (∃ l, c t = n :: cur :: l) ∧ v.present cur = true ∧ v.present n = true
  | .find .relaunch p i => p = cur ∧ c t = [cur] ∧ v.present cur = false ∧ 1 ≤ i ∧ i ≤ cur
  | .claim .relaunch p n => p = cur ∧ c t = [cur] ∧ v.present cur = false ∧ 1 ≤ n ∧ n ≤ cur
  | .switch .relaunch p n => p = cur ∧ n = cur ∧ c t = [cur] ∧ v.present cur = true
  | .find .launch _ _ => False
  | .claim .launch _ _ => False
  | .switch .launch _ _ => False
  | .load .launch _ => False
  | .save .launch _ => False
  | .enter .launch => False
  | .load _ p => (c t).head? = some cur ∧ v.present cur = true ∧ p ∈ c t ∧ σ ∈ upFrom p (c t)
  | .save _ p => (c t).head? = some cur ∧ v.present cur = true ∧ p ∈ c t ∧ σ ∈ upFrom p (c t)
  | .freed => (c t).head? = some cur ∧ v.present cur = false
  | .parent q => (∃ l, c t = cur :: q :: l) ∧ v.present cur = false
  | .idle => False
  | .left _ => False
  | .switched => False
  | .fetched _ => False
  | .resume => False
  | _ => (c t).head? = some cur ∧ v.present cur = true

/-- The frames a tick leaves: interrupted code, perhaps interrupted again while it resumed. -/
def Resumable (S : Pc → Prop) : List Frame → Prop
  | .intr .resume :: fs => Resumable S fs
  | .intr pc :: _ => S pc
  | _ => False

/-- The context of `cur` is saved on a stack of terminal `t`'s chain, in good order. -/
def Parked (m : Cpu) (c : Term → List Nat) (t : Term) (cur : Nat) : Prop :=
  ∃ σ, m.esp cur = some ⟨σ, (m.kstack σ).length⟩ ∧ σ ∈ upFrom cur (c t) ∧
    Resumable (Standing m.v c t cur σ) (m.kstack σ)

/-- `next_task` is setting up the first shell of the active terminal, on a stack left by `p`. -/
structure Launching (m : Cpu) (c : Term → List Nat) (p : Nat) : Prop where
  empty : c m.v.active = []
  current : m.v.current = p
  saved : m.esp p = some m.here
  ne_base : p ≠ basePid m.v.active
  before : ∀ u, basePid u < basePid m.v.active → c u ≠ []

/-- What is known of the running code. -/
def Running (m : Cpu) (c : Term → List Nat) : Pc → Prop
  | .idle => m.v.current = 0 ∧ m.v.active = 0 ∧ ∀ t, c t = []
  | .user => (c m.v.active).head? = some m.v.current ∧ m.v.present m.v.current = true
  | .find .launch p i => Launching m c p ∧ 1 ≤ i ∧ i ≤ basePid m.v.active
  | .claim .launch p n => Launching m c p ∧ 1 ≤ n ∧ n ≤ basePid m.v.active
  | .switch .launch p n =>
      c m.v.active = [n] ∧ m.v.present n = true ∧ m.esp p = some m.here
  | .load .launch p =>
      c m.v.active = [m.v.current] ∧ m.v.present m.v.current = true ∧ m.esp p = some m.here
  | .save .launch p =>
      c m.v.active = [m.v.current] ∧ m.v.present m.v.current = true ∧ m.esp p = some m.here
  | .enter .launch => c m.v.active = [m.v.current] ∧ m.v.present m.v.current = true
  | .left q =>
      q = m.v.current ∧ (c m.v.active).head? = some m.v.current ∧
        m.v.present m.v.current = true
  | .switched => Parked m c m.v.active m.v.current
  | .fetched q => q = m.v.current ∧ Parked m c m.v.active m.v.current
  | .resume =>
      m.sp ∈ upFrom m.v.current (c m.v.active) ∧
        Resumable (Standing m.v c m.v.active m.v.current m.sp) (m.kstack m.sp)
  | pc =>
      m.sp ∈ upFrom m.v.current (c m.v.active) ∧
        Standing m.v c m.v.active m.v.current m.sp pc

/-- Terminal `t`'s chain, and what its PCBs hold. -/
structure Own (m : Cpu) (c : Term → List Nat) (t : Term) : Prop where
  nodup : (c t).Nodup
  linked : c t ≠ [] → ∃ p, ParentChain m.v.parent p (c t)
  base : c t ≠ [] → (c t).getLast? = some (basePid t)
  range : ∀ p ∈ c t, 1 ≤ p ∧ p ≤ maxPid
  /-- The shells are started in the order of their pids. -/
  before : c t ≠ [] → ∀ u, basePid u < basePid t → c u ≠ []
  /-- Only the process the terminal is about to leave can have lost its PCB. -/
  kept : ∀ p ∈ c t, m.v.present p = true ∨ p = queued m.v t
  /-- What a PCB has saved is a place of that process or of one it was started from. -/
  saved : ∀ x s, x ∈ c t → m.esp x = some s → s.stack ∈ upFrom x (c t)

/-- The chains `c` own the processes, and every waiting terminal is parked on its own. -/
structure Laid (m : Cpu) (c : Term → List Nat) : Prop where
  tss : m.v.tssEsp0 = offset8M - m.v.current * offset8K
  own : ∀ t, Own m c t
  disjoint : ∀ t u, t ≠ u → ∀ p ∈ c t, p ∉ c u
  present : ∀ p, m.v.present p = true → ∃ t, p ∈ c t
  waiting : ∀ t, t ≠ m.v.active →
    (c t = [] ∧ m.v.processes t = 0) ∨ Parked m c t (m.v.processes t)

/-- **The invariant.** -/
def StacksInv (m : Cpu) : Prop := ∃ c, Laid m c ∧ Running m c m.pc

/-! ## What a parked context depends on -/

theorem Resumable.mono {S S' : Pc → Prop} (h : ∀ pc, S pc → S' pc) :
    ∀ {fs : List Frame}, Resumable S fs → Resumable S' fs
  | [], hf => hf.elim
  | .call :: _, hf => hf.elim
  | .trap :: _, hf => hf.elim
  | .intr pc :: fs, hf => by
      cases pc with
      | resume =>
          have hf' : Resumable S fs := hf
          exact hf'.mono h
      | _ => exact h _ hf

/-- Code that may be interrupted leaves a resumable frame. -/
theorem Resumable.intr {S : Pc → Prop} {pc : Pc} {fs : List Frame}
    (h : (pc = .resume ∧ Resumable S fs) ∨ (pc ≠ .resume ∧ S pc)) :
    Resumable S (.intr pc :: fs) := by
  rcases h with ⟨rfl, h⟩ | ⟨hne, h⟩
  · exact h
  · cases pc with
    | resume => exact absurd rfl hne
    | _ => exact h

/-- Standing somewhere is a matter of the terminal's own chain and the PCBs on it. -/
theorem Standing.frame {v v' : ProcView} {c c' : Term → List Nat} {t : Term} {cur σ : Nat} {pc : Pc}
    (h : Standing v c t cur σ pc) (hc : c' t = c t) (hb : Booted c → Booted c')
    (hcur : cur ∈ c t) (hp : ∀ x ∈ c t, v'.present x = v.present x) :
    Standing v' c' t cur σ pc := by
  have hpc := hp cur hcur
  -- each place reads the chain, whether `cur` is present, and at most one more pid of the chain
  cases pc with
  | exec => exact ⟨by rw [hc]; exact h.1, by rw [hpc]; exact h.2.1, hb h.2.2⟩
  | find who p i =>
      cases who with
      | execute =>
          obtain ⟨h1, h2, h3, h4⟩ := h
          exact ⟨by rwa [hc], by rwa [hpc], hb h3, h4⟩
      | relaunch =>
          obtain ⟨h1, h2, h3, h4⟩ := h
          exact ⟨h1, by rwa [hc], by rwa [hpc], h4⟩
      | launch => exact h
  | claim who p n =>
      cases who with
      | execute =>
          obtain ⟨h1, h2, h3, h4⟩ := h
          exact ⟨by rwa [hc], by rwa [hpc], hb h3, h4⟩
      | relaunch =>
          obtain ⟨h1, h2, h3, h4⟩ := h
          exact ⟨h1, by rwa [hc], by rwa [hpc], h4⟩
      | launch => exact h
  | switch who p n =>
      cases who with
      | execute =>
          obtain ⟨h1, ⟨l, hl⟩, h3, h4⟩ := h
          have hn : n ∈ c t := hl ▸ List.mem_cons_self
          exact ⟨h1, ⟨l, by rw [hc, hl]⟩, by rwa [hpc], by rwa [hp n hn]⟩
      | relaunch =>
          obtain ⟨h1, h2, h3, h4⟩ := h
          exact ⟨h1, h2, by rwa [hc], by rwa [hpc]⟩
      | launch => exact h
  | load who p =>
      cases who with
      | launch => exact h
      | _ =>
          obtain ⟨h1, h2, h3, h4⟩ := h
          exact ⟨by rwa [hc], by rwa [hpc], by rwa [hc], by rwa [hc]⟩
  | save who p =>
      cases who with
      | launch => exact h
      | _ =>
          obtain ⟨h1, h2, h3, h4⟩ := h
          exact ⟨by rwa [hc], by rwa [hpc], by rwa [hc], by rwa [hc]⟩
  | freed => exact ⟨by rw [hc]; exact h.1, by rw [hpc]; exact h.2⟩
  | parent q =>
      obtain ⟨⟨l, hl⟩, h2⟩ := h
      exact ⟨⟨l, by rw [hc, hl]⟩, by rwa [hpc]⟩
  | enter who =>
      cases who with
      | launch => exact h
      | _ => exact ⟨by rw [hc]; exact h.1, by rw [hpc]; exact h.2⟩
  | user => exact ⟨by rw [hc]; exact h.1, by rw [hpc]; exact h.2⟩
  | call => exact ⟨by rw [hc]; exact h.1, by rw [hpc]; exact h.2⟩
  | halt => exact ⟨by rw [hc]; exact h.1, by rw [hpc]; exact h.2⟩
  | ret => exact ⟨by rw [hc]; exact h.1, by rw [hpc]; exact h.2⟩
  | _ => exact h.elim

/-- A parked context stays parked while nothing on its terminal's chain is touched. -/
theorem Parked.frame {m m' : Cpu} {c c' : Term → List Nat} {t : Term} {cur : Nat}
    (h : Parked m c t cur) (hc : c' t = c t) (hb : Booted c → Booted c')
    (hesp : ∀ x ∈ c t, m'.esp x = m.esp x) (hk : ∀ x ∈ c t, m'.kstack x = m.kstack x)
    (hp : ∀ x ∈ c t, m'.v.present x = m.v.present x) : Parked m' c' t cur := by
  obtain ⟨σ, he, hσ, hr⟩ := h
  have hcur := self_mem_of_mem_upFrom hσ
  have hks := hk σ (mem_of_mem_upFrom hσ)
  refine ⟨σ, ?_, by rwa [hc], ?_⟩
  · rw [hesp cur hcur, hks, he]
  · rw [hks]
    exact hr.mono fun pc hpc => hpc.frame hc hb hcur hp

/-! ## Facts of the layout -/

theorem ParentChain.head?_eq {parent : Nat → Nat} {p : Nat} {ps : List Nat}
    (h : ParentChain parent p ps) : ps.head? = some p := by
  cases h <;> rfl

/-- Only the last process of a chain has a base pid. -/
theorem ParentChain.last_of_lt {parent : Nat → Nat} {p : Nat} {ps : List Nat}
    (h : ParentChain parent p ps) {q : Nat} (hq : q ∈ ps) (h4 : q < 4) : ps.getLast? = some q := by
  induction h with
  | base _ _ => rw [List.mem_singleton.mp hq]; rfl
  | @link r ps hr hps ih =>
      rcases List.mem_cons.mp hq with rfl | hq'
      · omega
      · cases ps with
        | nil => exact absurd hq' List.not_mem_nil
        | cons s ps => exact ih hq'

namespace Laid

variable {m m' : Cpu} {c : Term → List Nat}

theorem apart (h : Laid m c) : Apart c := ⟨fun t => (h.own t).nodup, h.disjoint⟩

theorem base_mem (h : Laid m c) {t : Term} (ht : c t ≠ []) : basePid t ∈ c t :=
  List.mem_of_getLast? ((h.own t).base ht)

/-- A base pid on a chain is that terminal's own. -/
theorem eq_basePid (h : Laid m c) {t : Term} {p : Nat} (hp : p ∈ c t) (h4 : p < 4) :
    p = basePid t := by
  have hne : c t ≠ [] := List.ne_nil_of_mem hp
  obtain ⟨top, hl⟩ := (h.own t).linked hne
  have h1 := hl.last_of_lt hp h4
  rw [(h.own t).base hne] at h1
  exact (Option.some.inj h1).symm

/-- A process with a base pid that heads its chain is all of it. -/
theorem eq_singleton (h : Laid m c) {t : Term} {p : Nat} (hp : (c t).head? = some p) (h4 : p < 4) :
    c t = [p] ∧ p = basePid t := by
  obtain ⟨l, hl⟩ := List.head?_eq_some_iff.mp hp
  have hmem : p ∈ c t := hl ▸ List.mem_cons_self
  obtain ⟨top, hc⟩ := (h.own t).linked (List.ne_nil_of_mem hmem)
  have htop : top = p := Option.some.inj (hc.head?_eq.symm.trans hp)
  subst htop
  refine ⟨?_, h.eq_basePid hmem h4⟩
  rw [hl] at hc ⊢
  cases hc with
  | base _ _ => rfl
  | link hge _ => omega

/-- Any other process that heads its chain is followed by its parent. -/
theorem eq_cons_parent (h : Laid m c) {t : Term} {p : Nat} (hp : (c t).head? = some p)
    (h4 : 4 ≤ p) : ∃ l, c t = p :: m.v.parent p :: l := by
  obtain ⟨l, hl⟩ := List.head?_eq_some_iff.mp hp
  have hmem : p ∈ c t := hl ▸ List.mem_cons_self
  obtain ⟨top, hc⟩ := (h.own t).linked (List.ne_nil_of_mem hmem)
  have htop : top = p := Option.some.inj (hc.head?_eq.symm.trans hp)
  subst htop
  rw [hl] at hc ⊢
  cases hc with
  | base _ _ => omega
  | link _ hps =>
      obtain ⟨l', rfl⟩ := List.head?_eq_some_iff.mp hps.head?_eq
      exact ⟨l', rfl⟩

/-- A pid that is free and nobody's current process is on no chain. -/
theorem not_mem_of_free (h : Laid m c) {n : Nat} (hn : m.v.present n = false) {t : Term}
    (ht : n ≠ queued m.v t) : n ∉ c t := by
  intro hmem
  rcases (h.own t).kept n hmem with hp | hq
  · rw [hn] at hp; cases hp
  · exact ht hq

end Laid

/-! ## Steps of the active terminal -/

/-- What a step of the active terminal leaves alone: everything on the other chains. -/
structure Leaves (m m' : Cpu) (c c' : Term → List Nat) : Prop where
  active : m'.v.active = m.v.active
  processes : m'.v.processes = m.v.processes
  chain : ∀ t, t ≠ m.v.active → c' t = c t
  ne_nil : ∀ t, c t ≠ [] → c' t ≠ []
  esp : ∀ t, t ≠ m.v.active → ∀ x ∈ c t, m'.esp x = m.esp x
  kstack : ∀ t, t ≠ m.v.active → ∀ x ∈ c t, m'.kstack x = m.kstack x
  present : ∀ t, t ≠ m.v.active → ∀ x ∈ c t, m'.v.present x = m.v.present x
  parent : ∀ t, t ≠ m.v.active → ∀ x ∈ c t, m'.v.parent x = m.v.parent x

namespace Laid

variable {m m' : Cpu} {c c' : Term → List Nat}

/-- The other chains are as they were. -/
theorem own_other (h : Laid m c) (hl : Leaves m m' c c') {t : Term} (ht : t ≠ m.v.active) :
    Own m' c' t := by
  have ho := h.own t
  have hc := hl.chain t ht
  have hq : queued m'.v t = queued m.v t := by
    simp only [queued, hl.active, hl.processes, if_neg ht]
  constructor
  · rw [hc]; exact ho.nodup
  · intro hne
    rw [hc] at hne ⊢
    obtain ⟨p, hp⟩ := ho.linked hne
    exact ⟨p, hp.congr fun q hq _ => hl.parent t ht q hq⟩
  · rw [hc]; exact ho.base
  · rw [hc]; exact ho.range
  · intro hne u hu
    rw [hc] at hne
    exact hl.ne_nil u (ho.before hne u hu)
  · intro p hp
    rw [hc] at hp
    rw [hl.present t ht p hp, hq]
    exact ho.kept p hp
  · intro x s hx hs
    rw [hc] at hx ⊢
    rw [hl.esp t ht x hx] at hs
    exact ho.saved x s hx hs

/-- **A step within a terminal.** It is enough to look at the active chain. -/
theorem step (h : Laid m c) (hl : Leaves m m' c c')
    (htss : m'.v.tssEsp0 = offset8M - m'.v.current * offset8K) (hown : Own m' c' m.v.active)
    (hdis : ∀ t, t ≠ m.v.active → ∀ p ∈ c' m.v.active, p ∉ c t)
    (hpres : ∀ p, m'.v.present p = true → ∃ t, p ∈ c' t) : Laid m' c' where
  tss := htss
  own := fun t => by
    by_cases ht : t = m.v.active
    · exact ht ▸ hown
    · exact h.own_other hl ht
  disjoint := fun t u htu p hp hp' => by
    by_cases ht : t = m.v.active
    · subst ht
      rw [hl.chain u (Ne.symm htu)] at hp'
      exact hdis u (Ne.symm htu) p hp hp'
    · rw [hl.chain t ht] at hp
      by_cases hu : u = m.v.active
      · subst hu
        exact hdis t ht p hp' hp
      · rw [hl.chain u hu] at hp'
        exact h.disjoint t u htu p hp hp'
  present := hpres
  waiting := fun t ht => by
    rw [hl.active] at ht
    rw [hl.processes, hl.chain t ht]
    exact (h.waiting t ht).imp_right fun hw => hw.frame (hl.chain t ht)
      (fun hb u => hl.ne_nil u (hb u)) (hl.esp t ht) (hl.kstack t ht) (hl.present t ht)

/-- The chains and the PCBs stay, but for stack pointers saved on the active chain. -/
theorem stay (h : Laid m c) (hv : m'.v = { m.v with files := m'.v.files })
    (hesp : ∀ x, m'.esp x = m.esp x ∨ (x ∈ c m.v.active ∧
      ∃ s, m'.esp x = some s ∧ s.stack ∈ upFrom x (c m.v.active)))
    (hk : ∀ x, x ∉ c m.v.active → m'.kstack x = m.kstack x) : Laid m' c := by
  have hnot : ∀ t, t ≠ m.v.active → ∀ x ∈ c t, x ∉ c m.v.active := fun t ht => h.disjoint t _ ht
  have hl : Leaves m m' c c := by
    refine ⟨by rw [hv], by rw [hv], fun _ _ => rfl, fun _ => id, ?_,
      fun t ht x hx => hk x (hnot t ht x hx), fun _ _ _ _ => by rw [hv], fun _ _ _ _ => by rw [hv]⟩
    intro t ht x hx
    rcases hesp x with he | ⟨hxa, _⟩
    · exact he
    · exact absurd hxa (hnot t ht x hx)
  have ho := h.own m.v.active
  refine h.step hl (by rw [hv]; exact h.tss) ?_ (fun t ht => h.disjoint _ t (Ne.symm ht))
    (by rw [hv]; exact h.present)
  refine ⟨ho.nodup, by rw [hv]; exact ho.linked, ho.base, ho.range, ho.before,
    by rw [hv]; exact ho.kept, ?_⟩
  intro x s hx hs
  rcases hesp x with he | ⟨hxa, s', he, hs'⟩
  · exact ho.saved x s hx (he ▸ hs)
  · rw [he] at hs
    cases hs
    exact hs'

/-- A new process on top of the active chain. -/
theorem push (h : Laid m c) {n : Nat} {pc : Pc} (hrange : 1 ≤ n ∧ n ≤ maxPid)
    (hfree : ∀ t, n ∉ c t)
    (hlink : ParentChain (m.v.claim n).parent n (n :: c m.v.active))
    (hbase : (n :: c m.v.active).getLast? = some (basePid m.v.active))
    (hbefore : ∀ u, basePid u < basePid m.v.active → c u ≠ [])
    (hpres : ∀ p ∈ c m.v.active, m.v.present p = true) :
    Laid { m with v := m.v.claim n, esp := Function.update m.esp n none, pc := pc }
      (Function.update c m.v.active (n :: c m.v.active)) := by
  have hne : ∀ t, ∀ x ∈ c t, x ≠ n := fun t x hx he => hfree t (he ▸ hx)
  have hself := Function.update_self m.v.active (n :: c m.v.active) c
  have hgrown : ∀ t, c t ≠ [] → Function.update c m.v.active (n :: c m.v.active) t ≠ [] :=
    fun t => update_cons_ne_nil
  have hl : Leaves m { m with v := m.v.claim n, esp := Function.update m.esp n none, pc := pc } c
      (Function.update c m.v.active (n :: c m.v.active)) :=
    ⟨rfl, rfl, fun t ht => Function.update_of_ne ht _ _, hgrown,
      fun t _ x hx => Function.update_of_ne (hne t x hx) _ _, fun _ _ _ _ => rfl,
      fun t _ x hx => Function.update_of_ne (hne t x hx) _ _,
      fun t _ x hx => Function.update_of_ne (hne t x hx) _ _⟩
  have ho := h.own m.v.active
  refine h.step hl h.tss ?_ ?_ ?_
  · -- the active chain, with `n` on top and no stack pointer saved for it
    constructor
    · rw [hself]; exact List.nodup_cons.mpr ⟨hfree _, ho.nodup⟩
    · intro _; rw [hself]; exact ⟨n, hlink⟩
    · intro _; rw [hself]; exact hbase
    · rw [hself]
      intro p hp
      rcases List.mem_cons.mp hp with rfl | hp'
      · exact hrange
      · exact ho.range p hp'
    · exact fun _ u hu => hgrown u (hbefore u hu)
    · rw [hself]
      intro p hp
      left
      rcases List.mem_cons.mp hp with rfl | hp'
      · exact Function.update_self p true m.v.present
      · exact (Function.update_of_ne (hne _ p hp') _ _).trans (hpres p hp')
    · rw [hself]
      intro x s hx (hs : Function.update m.esp n none x = some s)
      rcases List.mem_cons.mp hx with rfl | hx'
      · rw [Function.update_self] at hs; cases hs
      · rw [Function.update_of_ne (hne _ x hx')] at hs
        rw [upFrom_cons_of_ne (Ne.symm (hne _ x hx'))]
        exact ho.saved x s hx' hs
  · rw [hself]
    intro t ht p hp
    rcases List.mem_cons.mp hp with rfl | hp'
    · exact hfree t
    · exact h.disjoint _ t (Ne.symm ht) p hp'
  · -- whoever is present is on a chain
    intro p hp
    by_cases hpn : p = n
    · exact ⟨m.v.active, mem_push.mpr (.inr ⟨rfl, hpn⟩)⟩
    · obtain ⟨t, ht⟩ := h.present p ((Function.update_of_ne hpn _ _).symm.trans hp)
      exact ⟨t, mem_push.mpr (.inl ht)⟩

/-- A base shell that lost its PCB claims the same one again. -/
theorem reclaim (h : Laid m c) {n : Nat} {pc : Pc} (hc : c m.v.active = [n]) (h4 : n < 4) :
    Laid { m with v := m.v.claim n, esp := Function.update m.esp n none, pc := pc } c := by
  have ho := h.own m.v.active
  have hn : n ∈ c m.v.active := hc ▸ List.mem_singleton_self n
  have hne : ∀ t, t ≠ m.v.active → ∀ x ∈ c t, x ≠ n :=
    fun t ht x hx he => h.disjoint t _ ht x hx (he ▸ hn)
  have hl : Leaves m { m with v := m.v.claim n, esp := Function.update m.esp n none, pc := pc } c
      c :=
    ⟨rfl, rfl, fun _ _ => rfl, fun _ => id,
      fun t ht x hx => Function.update_of_ne (hne t ht x hx) _ _, fun _ _ _ _ => rfl,
      fun t ht x hx => Function.update_of_ne (hne t ht x hx) _ _,
      fun t ht x hx => Function.update_of_ne (hne t ht x hx) _ _⟩
  have hall : ∀ p ∈ c m.v.active, p = n := fun p hp => List.mem_singleton.mp (hc ▸ hp)
  refine h.step hl h.tss ⟨ho.nodup, fun _ => ⟨n, ?_⟩, ho.base, ho.range, ho.before, ?_, ?_⟩
    (fun t ht => h.disjoint _ t (Ne.symm ht)) ?_
  · rw [hc]; exact .base (ho.range n hn).1 h4
  · intro p hp
    left
    show Function.update m.v.present n true p = true
    rw [hall p hp, Function.update_self]
  · intro x s hx (hs : Function.update m.esp n none x = some s)
    rw [hall x hx, Function.update_self] at hs
    cases hs
  · intro p hp
    by_cases hpn : p = n
    · exact ⟨m.v.active, hpn ▸ hn⟩
    · exact h.present p ((Function.update_of_ne hpn _ _).symm.trans hp)

/-- `switch_context`, with every process of the active chain holding its PCB. -/
theorem switch (h : Laid m c) {n : Nat} {pc : Pc}
    (hpres : ∀ p ∈ c m.v.active, m.v.present p = true) :
    Laid { m with v := m.v.switch n, pc := pc } c := by
  have ho := h.own m.v.active
  have hl : Leaves m { m with v := m.v.switch n, pc := pc } c c :=
    ⟨rfl, rfl, fun _ _ => rfl, fun _ => id, fun _ _ _ _ => rfl, fun _ _ _ _ => rfl,
      fun _ _ _ _ => rfl, fun _ _ _ _ => rfl⟩
  exact h.step hl rfl ⟨ho.nodup, ho.linked, ho.base, ho.range, ho.before,
    fun p hp => .inl (hpres p hp), ho.saved⟩ (fun t ht => h.disjoint _ t (Ne.symm ht)) h.present

/-- `free_current_pcb`. -/
theorem release (h : Laid m c) {pc : Pc} (hcur : m.v.current ∈ c m.v.active) :
    Laid { m with v := m.v.release, pc := pc } c := by
  have ho := h.own m.v.active
  have hne : ∀ t, t ≠ m.v.active → ∀ x ∈ c t, x ≠ m.v.current :=
    fun t ht x hx he => h.disjoint t _ ht x hx (he ▸ hcur)
  have hl : Leaves m { m with v := m.v.release, pc := pc } c c :=
    ⟨rfl, rfl, fun _ _ => rfl, fun _ => id, fun _ _ _ _ => rfl, fun _ _ _ _ => rfl,
      fun t ht x hx => Function.update_of_ne (hne t ht x hx) _ _, fun _ _ _ _ => rfl⟩
  have hq : queued m.v.release m.v.active = m.v.current := if_pos rfl
  refine h.step hl h.tss ⟨ho.nodup, ho.linked, ho.base, ho.range, ho.before, ?_, ho.saved⟩
    (fun t ht => h.disjoint _ t (Ne.symm ht)) ?_
  · intro p hp
    by_cases hpc : p = m.v.current
    · right; rw [hpc]; exact hq.symm
    · left
      refine (Function.update_of_ne hpc _ _).trans ((ho.kept p hp).resolve_right ?_)
      rwa [Chains.queued_active]
  · intro p hp
    by_cases hpc : p = m.v.current
    · rw [hpc] at hp
      simp at hp
    · exact h.present p ((Function.update_of_ne hpc _ _).symm.trans hp)

/-- `switch_context` to the parent: the process that halted leaves the chain. -/
theorem pop (h : Laid m c) {q : Nat} {l : List Nat} {pc : Pc}
    (hc : c m.v.active = m.v.current :: q :: l) (hfree : m.v.present m.v.current = false) :
    Laid { m with v := m.v.switch q, pc := pc } (Function.update c m.v.active (q :: l)) := by
  have ho := h.own m.v.active
  have hself := Function.update_self m.v.active (q :: l) c
  have hsub : ∀ p ∈ q :: l, p ∈ c m.v.active := fun p hp => hc ▸ List.mem_cons_of_mem _ hp
  obtain ⟨hnin, hnd⟩ := List.nodup_cons.mp (hc ▸ ho.nodup)
  have hne : c m.v.active ≠ [] := hc ▸ List.cons_ne_nil _ _
  have hgrown : ∀ t, c t ≠ [] → Function.update c m.v.active (q :: l) t ≠ [] :=
    fun t => update_cons_ne_nil
  have hl : Leaves m { m with v := m.v.switch q, pc := pc } c
      (Function.update c m.v.active (q :: l)) :=
    ⟨rfl, rfl, fun t ht => Function.update_of_ne ht _ _, hgrown, fun _ _ _ _ => rfl,
      fun _ _ _ _ => rfl, fun _ _ _ _ => rfl, fun _ _ _ _ => rfl⟩
  refine h.step hl rfl ?_ ?_ ?_
  · constructor
    · rw [hself]; exact hnd
    · intro _
      rw [hself]
      obtain ⟨p, hp⟩ := ho.linked hne
      rw [hc] at hp
      cases hp with
      | link _ hps => exact ⟨_, hps⟩
    · intro _
      rw [hself]
      have hb := ho.base hne
      rw [hc] at hb
      exact hb
    · rw [hself]; exact fun p hp => ho.range p (hsub p hp)
    · exact fun _ u hu => hgrown u (ho.before hne u hu)
    · rw [hself]
      intro p hp
      refine .inl ((ho.kept p (hsub p hp)).resolve_right fun he => hnin ?_)
      rw [Chains.queued_active] at he
      exact he ▸ hp
    · rw [hself]
      intro x s hx hs
      have hxne : m.v.current ≠ x := fun he => hnin (he ▸ hx)
      have hs' := ho.saved x s (hsub x hx) hs
      rwa [hc, upFrom_cons_of_ne hxne] at hs'
  · rw [hself]
    exact fun t ht p hp => h.disjoint _ t (Ne.symm ht) p (hsub p hp)
  · intro p hp
    obtain ⟨t, ht⟩ := h.present p hp
    refine ⟨t, (h.apart.mem_pop hc).mpr ⟨ht, ?_⟩⟩
    rintro rfl
    -- the one that left has no PCB
    have hp' : m.v.present m.v.current = true := hp
    rw [hfree] at hp'
    cases hp'

/-- The active terminal is put in its slot of the run queue, and the next one is active. -/
theorem hand (h : Laid m c)
    (hpark : (c m.v.active = [] ∧ m.v.current = 0) ∨ Parked m c m.v.active m.v.current)
    (hesp : m'.esp = m.esp) (hk : m'.kstack = m.kstack) (hpres : m'.v.present = m.v.present)
    (hpar : m'.v.parent = m.v.parent) (hact : m'.v.active = m.v.active + 1)
    (hproc : m'.v.processes = Function.update m.v.processes m.v.active m.v.current)
    (htss : m'.v.tssEsp0 = offset8M - m'.v.current * offset8K)
    (hnext : c (m.v.active + 1) = [] ∨ m'.v.current = m.v.processes (m.v.active + 1)) :
    Laid m' c := by
  have hqueued : ∀ t, c t ≠ [] → queued m'.v t = queued m.v t := by
    intro t hne
    simp only [queued, hact, hproc]
    by_cases h1 : t = m.v.active + 1
    · subst h1
      rw [if_pos rfl, if_neg (succ_ne _)]
      exact hnext.resolve_left hne
    · rw [if_neg h1]
      by_cases h2 : t = m.v.active
      · subst h2; rw [if_pos rfl, Function.update_self]
      · rw [if_neg h2, Function.update_of_ne h2]
  constructor
  · exact htss
  · intro t
    have ho := h.own t
    refine ⟨ho.nodup, by rw [hpar]; exact ho.linked, ho.base, ho.range, ho.before,
      ?_, by rw [hesp]; exact ho.saved⟩
    intro p hp
    rw [hpres, hqueued t (List.ne_nil_of_mem hp)]
    exact ho.kept p hp
  · exact h.disjoint
  · rw [hpres]; exact h.present
  · intro t ht
    have hframe : ∀ cur, Parked m c t cur → Parked m' c t cur := fun cur hp =>
      hp.frame rfl id (fun _ _ => by rw [hesp]) (fun _ _ => by rw [hk]) (fun _ _ => by rw [hpres])
    rw [hproc]
    by_cases h2 : t = m.v.active
    · subst h2
      rw [Function.update_self]
      exact hpark.imp id (hframe _)
    · rw [Function.update_of_ne h2]
      exact (h.waiting t h2).imp id (hframe _)

end Laid

end Zbiggie.Proof
