import Zbiggie.Proof.Execute
import Zbiggie.Proof.PageTables

/-!
# No process reaches another

Eleven directories share two page tables, and one entry of one table is rewritten
at every context switch. Whatever the order in which directories are set up, the
terminal in the foreground changes and the video entry is moved, a directory that
has been set up lets user code reach its own 4M program page and, at the address
`vidmap` hands out, one page of video memory.
-/

namespace Zbiggie.Proof

open Zbiggie Machine

/-- What can happen to the page tables. -/
inductive PageAct where
  | initPd (p : Nat)
  | setVmemTable (t : Term)
  | switchVideo (t : Term)
  | setTerminal (t : Term)

/-- One change of the page tables. Only process numbers have a directory set up. -/
inductive PageStep (L : Layout) : Kernel → PageAct → Kernel → Prop where
  | initPd {k : Kernel} {p : Nat} : 1 ≤ p → p ≤ maxPid →
      PageStep L k (.initPd p) (initPd L p k)
  | setVmemTable {k : Kernel} {t : Term} : PageStep L k (.setVmemTable t) (setVmemTable t k)
  | switchVideo {k : Kernel} {t : Term} : PageStep L k (.switchVideo t) (switchVideo L t k)
  | setTerminal {k : Kernel} {t : Term} :
      PageStep L k (.setTerminal t) { k with page := { k.page with currentTerminal := t } }

theorem switchContext_pageDirectories (pid : Nat) (k : Kernel) :
    (switchContext pid k).page.pageDirectories = k.page.pageDirectories := rfl

theorem switchVideo_pageDirectories (L : Layout) (u : Term) (k : Kernel) :
    (switchVideo L u k).page.pageDirectories = k.page.pageDirectories := by
  unfold switchVideo
  split
  · rfl
  · rw [switchContext_pageDirectories, kmemcpy_page, kmemcpy_page]

/-- The tables keep their shape, and a directory that is set up stays as it was set up. -/
structure PageInv (L : Layout) (as : List PageAct) (k : Kernel) : Prop where
  tables : Tables k
  dirs : ∀ p, .initPd p ∈ as → 1 ≤ p ∧ p ≤ maxPid ∧ k.page.pageDirectories p = pdRow L p

theorem pageInv_step {L : Layout} {as : List PageAct} {a : PageAct} {k k' : Kernel}
    (hs : PageStep L k a k') (h : PageInv L as k) : PageInv L (as ++ [a]) k' := by
  have hkeep : (∀ p, a ≠ .initPd p) → k'.page.pageDirectories = k.page.pageDirectories →
      ∀ p, .initPd p ∈ as ++ [a] →
        1 ≤ p ∧ p ≤ maxPid ∧ k'.page.pageDirectories p = pdRow L p := by
    intro hne hd p hp
    rcases List.mem_append.mp hp with hp | hp
    · rw [hd]; exact h.dirs p hp
    · exact absurd (List.mem_singleton.mp hp).symm (hne p)
  cases hs with
  | @initPd q h1 h10 =>
      refine ⟨h.tables.initPd L q, ?_⟩
      intro p hp
      show 1 ≤ p ∧ p ≤ maxPid ∧ Function.update k.page.pageDirectories q (pdRow L q) p = pdRow L p
      by_cases hpq : p = q
      · subst hpq
        exact ⟨h1, h10, Function.update_self ..⟩
      · rw [Function.update_of_ne hpq]
        rcases List.mem_append.mp hp with hp | hp
        · exact h.dirs p hp
        · cases List.mem_singleton.mp hp
          exact absurd rfl hpq
  | setVmemTable => exact ⟨h.tables.setVmemTable _, hkeep nofun rfl⟩
  | switchVideo =>
      exact ⟨h.tables.switchVideo L _, hkeep nofun (switchVideo_pageDirectories L _ k)⟩
  | setTerminal => exact ⟨h.tables.congr rfl rfl, hkeep nofun rfl⟩

theorem pageInv_run {L : Layout} {k0 k : Kernel} {as : List PageAct}
    (h : Run (PageStep L) (initPaging L k0) as k) : PageInv L as k := by
  induction h with
  | nil => exact ⟨tables_initPaging L k0, nofun⟩
  | snoc _ hs ih => exact pageInv_step hs ih

/-! ## What user mode reaches -/

/-- The addresses of the program page, and of the page `vidmap` returns. -/
def InProgram (v : Word) : Prop := offset128M ≤ v.toNat ∧ v.toNat < offset132M
def InVidmap (v : Word) : Prop :=
  offset132M + offsetVideo ≤ v.toNat ∧ v.toNat < offset132M + offsetVideo + offset4K

instance (v : Word) : Decidable (InProgram v) := inferInstanceAs (Decidable (_ ∧ _))
instance (v : Word) : Decidable (InVidmap v) := inferInstanceAs (Decidable (_ ∧ _))

/-- The user-mode view of directory `p`, as a function of the address. -/
def userView (k : Kernel) (p : Nat) (v : Word) : Option Nat :=
  if InProgram v then some ((p + 1) * offset4M + (v.toNat - offset128M))
  else if InVidmap v then some (lowFrame k + (v.toNat - (offset132M + offsetVideo)))
  else none

/-- An address outside the vidmap page leads into the process's own 4M. -/
theorem userView_program {k : Kernel} {p a : Nat} {v : Word} (h : userView k p v = some a)
    (hv : ¬ InVidmap v) : (p + 1) * offset4M ≤ a ∧ a < (p + 2) * offset4M := by
  unfold userView at h
  by_cases hp : InProgram v
  · rw [if_pos hp] at h
    have ha := Option.some.inj h
    simp only [InProgram, offset128M, offset132M, offset4M] at hp ha ⊢
    omega
  · rw [if_neg hp, if_neg hv] at h
    cases h

/-- An address inside it leads into the page of the video entry. -/
theorem userView_vidmap {k : Kernel} {p a : Nat} {v : Word} (h : userView k p v = some a)
    (hv : InVidmap v) : lowFrame k ≤ a ∧ a < lowFrame k + offset4K := by
  have hp : ¬ InProgram v := by
    simp only [InProgram, InVidmap] at hv ⊢
    omega
  unfold userView at h
  rw [if_neg hp, if_pos hv] at h
  have ha := Option.some.inj h
  simp only [InVidmap, offset132M, offsetVideo, offset4M, offset4K] at hv ha ⊢
  omega

/-- Video memory and the buffers lie outside every program page. -/
theorem lowFrame_outside {k : Kernel} (h : Tables k) :
    lowFrame k + offset4K ≤ offset4M ∨ bufferPage 0 ≤ lowFrame k := by
  rcases h.lowFrame_cases with he | ⟨t, he⟩
  · left; rw [he]; decide
  · right
    rw [he]
    simp only [bufferPage]
    omega

/-- What the page tables let user code do, in a state reached by `as`. -/
structure Isolated (L : Layout) (as : List PageAct) (k : Kernel) : Prop where
  /-- The video entry holds the video page or a terminal buffer. -/
  frame : lowFrame k = offsetVideo ∨ ∃ t : Term, lowFrame k = bufferPage t
  /-- The translation of every address, under every directory that was set up. -/
  translation : ∀ p, .initPd p ∈ as → ∀ v, translate L k p true v = userView k p v
  /-- Two processes meet in the vidmap page only. -/
  disjoint : ∀ p q, .initPd p ∈ as → .initPd q ∈ as → p ≠ q → ∀ v w a,
    translate L k p true v = some a → translate L k q true w = some a → InVidmap v ∧ InVidmap w
  /-- Outside it a process reaches neither the kernel's 8M nor the buffers. -/
  kernel : ∀ p, .initPd p ∈ as → ∀ v a, translate L k p true v = some a → ¬ InVidmap v →
    offset8M ≤ a ∧ a < bufferPage 0

/-- **Memory isolation**, in every state the page-table operations reach from `init_paging`. -/
theorem page_isolation {L : Layout} {k0 k : Kernel} {as : List PageAct}
    (hrun : Run (PageStep L) (initPaging L k0) as k) : Isolated L as k := by
  obtain ⟨htab, hdirs⟩ := pageInv_run hrun
  have htrans : ∀ p, .initPd p ∈ as → ∀ v, translate L k p true v = userView k p v := by
    intro p hp v
    obtain ⟨_, h10, hrow⟩ := hdirs p hp
    exact translate_user htab hrow h10 v
  refine ⟨htab.lowFrame_cases, htrans, ?_, ?_⟩
  · intro p q hp hq hpq v w a hv hw
    obtain ⟨hp1, hp10, _⟩ := hdirs p hp
    obtain ⟨hq1, hq10, _⟩ := hdirs q hq
    rw [htrans p hp] at hv
    rw [htrans q hq] at hw
    have hout := lowFrame_outside htab
    simp only [maxPid] at hp10 hq10
    by_cases hv' : InVidmap v <;> by_cases hw' : InVidmap w
    · exact ⟨hv', hw'⟩
    · have h1 := userView_vidmap hv hv'
      have h2 := userView_program hw hw'
      simp only [offset4M, offset4K, bufferPage, numPds, maxPid] at hout h1 h2
      omega
    · have h1 := userView_program hv hv'
      have h2 := userView_vidmap hw hw'
      simp only [offset4M, offset4K, bufferPage, numPds, maxPid] at hout h1 h2
      omega
    · have h1 := userView_program hv hv'
      have h2 := userView_program hw hw'
      simp only [offset4M] at h1 h2
      omega
  · intro p hp v a hv hvid
    obtain ⟨hp1, hp10, _⟩ := hdirs p hp
    rw [htrans p hp] at hv
    have h := userView_program hv hvid
    simp only [offset4M, offset8M, bufferPage, numPds, maxPid] at h hp10 ⊢
    omega

/-- Two processes and a switch of terminals, while the first is in the background. -/
theorem page_isolation_two_processes : ∃ k,
    Run (PageStep someLayout) (initPaging someLayout .zero)
        [.initPd 1, .initPd 2, .switchVideo 1, .setVmemTable 0] k ∧
      Isolated someLayout [.initPd 1, .initPd 2, .switchVideo 1, .setVmemTable 0] k := by
  have hrun : Run (PageStep someLayout) (initPaging someLayout .zero)
      ([.initPd 1] ++ [.initPd 2] ++ [.switchVideo 1] ++ [.setVmemTable 0]) _ :=
    (((Run.one (.initPd (by decide) (by decide))).append
      (Run.one (.initPd (by decide) (by decide)))).append
      (Run.one .switchVideo)).append (Run.one .setVmemTable)
  exact ⟨_, hrun, page_isolation hrun⟩

end Zbiggie.Proof
