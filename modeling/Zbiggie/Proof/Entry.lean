import Zbiggie.Kernel.Entry
import Zbiggie.Proof.Execute
import Zbiggie.Proof.UserPtr

/-!
# What the assembly does for a program

Entry code has one job that no C function can do: the program that was interrupted must
find its registers and its stack as they were, whatever the kernel did in between, and
the answer in `%eax` must be the one that the C code gave. The kernel's functions may
leave anything in `%ecx`, `%edx` and the flags; nothing may depend on it.

A system call is followed from its first instruction to its `iret`: through the table,
through the handler, and back through the registers saved at the start. `execute` and
`halt` are two halves of one call, with the life of another program in between.
-/

namespace Zbiggie.Proof

open Zbiggie Machine Machine.Asm

variable {b : Boundary}

/-- The processor proceeds by the entry code. -/
def Proceeds (b : Boundary) : Asm.Cpu Env → Asm.Cpu Env → Prop :=
  Leads (entryCode b.shell) b.linkage

theorem Proceeds.trans {c c' c'' : Asm.Cpu Env} (h : Proceeds b c c') (h' : Proceeds b c' c'') :
    Proceeds b c c'' :=
  Leads.trans h h'

theorem Proceeds.jump {c : Asm.Cpu Env} {l : Lbl} {t z : Bool}
    (h : step (entryCode b.shell) b.linkage c = some (branch (entryCode b.shell) t l c))
    (hz : t = z) : Proceeds b c (branch (entryCode b.shell) z l c) :=
  Leads.jump h hz

/-! ## In and out -/

/-- The words `syscall` pushes: the registers, in the order `unsave` wants them. -/
def saved (c : Asm.Cpu Env) : List Slot :=
  [.word c.edi, .word c.esi, .word c.edx, .word c.ecx, .word c.ebx, .word c.ebp]

/-- The registers a program can see. -/
structure SameRegisters (c c' : Asm.Cpu Env) : Prop where
  ebx : c'.ebx = c.ebx
  ecx : c'.ecx = c.ecx
  edx : c'.edx = c.edx
  esi : c'.esi = c.esi
  edi : c'.edi = c.edi
  ebp : c'.ebp = c.ebp

/-- **Back to the program**: at an `iret`, with `v` in `%eax`, and nothing else of it changed. -/
structure BackWith (b : Boundary) (c c' : Asm.Cpu Env) (v : Word) : Prop where
  iret : (entryCode b.shell)[c'.pc]? = some .iret
  eax : c'.eax = v
  regs : SameRegisters c c'
  stack : c'.stack = c.stack

/-- From `unsave` on the saved registers come back. -/
theorem proceeds_unsave {c d : Asm.Cpu Env} (hpc : d.pc = 13)
    (hstack : d.stack = saved c ++ c.stack) :
    ∃ c', Proceeds b d c' ∧ BackWith b c c' d.eax ∧ c'.env = d.env := by
  obtain ⟨pc, eax, ebx, ecx, edx, esi, edi, ebp, cf, zf, fl, stack, e⟩ := d
  subst hpc hstack
  exact ⟨⟨20, eax, c.ebx, c.ecx, c.edx, c.esi, c.edi, c.ebp, cf, zf, fl, c.stack, e⟩, ⟨7, rfl⟩,
    ⟨rfl, rfl, ⟨rfl, rfl, rfl, rfl, rfl, rfl⟩, rfl⟩, rfl⟩

/-- The start of a handler: the number checked, the registers saved, and where to return to. -/
def atHandler (b : Boundary) (l : Lbl) (c : Asm.Cpu Env) : Asm.Cpu Env :=
  { c with pc := place (entryCode b.shell) l, eax := c.eax - 1, cf := false,
           zf := decide (c.eax - 1 = 0), stack := .addr 13 :: (saved c ++ c.stack) }

/-- The registers of a call, as the C code has them. -/
def regsOf (c : Asm.Cpu Env) : Regs := ⟨c.eax, c.ebx, c.ecx, c.edx⟩

/-- The comparison with the largest number there is. -/
theorem above_max (n : Word) :
    (!decide (n < syscallMaxIndex) && !decide (n = syscallMaxIndex)) = decide (9 < n.toNat) := by
  have h9 : syscallMaxIndex.toNat = 9 := rfl
  rw [Bool.eq_iff_iff]
  simp only [Bool.and_eq_true, Bool.not_eq_true', decide_eq_false_iff_not, decide_eq_true_eq,
    BitVec.lt_def, ← BitVec.toNat_inj]
  omega

/-- The first instructions, up to the check. -/
theorem proceeds_check {c : Asm.Cpu Env} (hpc : c.pc = 0) : Proceeds b c (branch (entryCode b.shell)
    (decide (9 < (c.eax - 1).toNat)) .invalidSyscall
    { c with pc := 9, eax := c.eax - 1, cf := decide (c.eax - 1 < syscallMaxIndex),
             zf := decide (c.eax - 1 = syscallMaxIndex), stack := saved c ++ c.stack }) := by
  obtain ⟨pc, eax, ebx, ecx, edx, esi, edi, ebp, cf, zf, fl, stack, e⟩ := c
  subst hpc
  refine Proceeds.trans ⟨9, rfl⟩ (Proceeds.jump ?_ (above_max (eax - 1)))
  rfl

/-- **Through the table.** -/
theorem proceeds_table {c : Asm.Cpu Env} (hpc : c.pc = 0) {l : Lbl}
    (hl : jumpTable[(c.eax - 1).toNat]? = some l) : Proceeds b c (atHandler b l c) := by
  have hlt : (c.eax - 1).toNat < 10 := (List.getElem?_eq_some_iff.mp hl).1
  refine (proceeds_check hpc).trans ?_
  obtain ⟨pc, eax, ebx, ecx, edx, esi, edi, ebp, cf, zf, fl, stack, e⟩ := c
  dsimp only at hl hlt ⊢
  rw [decide_eq_false (by omega)]
  -- no word is below zero, and the second check passes too
  have hzero : decide (eax - 1 < 0) = false := decide_eq_false (by simp)
  refine Proceeds.trans ⟨1, rfl⟩ (Proceeds.trans (Proceeds.jump rfl hzero) ?_)
  exact Leads.callTable rfl hl

/-- A number that is none is answered with `-1`. -/
theorem proceeds_invalid {c : Asm.Cpu Env} (hpc : c.pc = 0) (h : 9 < (c.eax - 1).toNat) :
    ∃ c', Proceeds b c c' ∧ BackWith b c c' (-1) ∧ c'.env = c.env := by
  have hcheck := proceeds_check (b := b) hpc
  rw [decide_eq_true h] at hcheck
  obtain ⟨c', hc', hback, henv⟩ := proceeds_unsave (b := b) (c := c)
    (d := { c with
      pc := 13, eax := -1, cf := decide (c.eax - 1 < syscallMaxIndex),
      zf := decide (c.eax - 1 = syscallMaxIndex), stack := saved c ++ c.stack }) rfl rfl
  exact ⟨c', hcheck.trans (Proceeds.trans ⟨3, rfl⟩ hc'), hback, henv⟩

/-! ## Inside a handler -/

/-- The processor of `d` at another place, with other contents of the registers C may use. -/
def inside (d : Asm.Cpu Env) (pc : Nat) (x : Scratch) (stack : List Slot) (e : Env) : Asm.Cpu Env :=
  ⟨pc, x.eax, d.ebx, x.ecx, x.edx, d.esi, d.edi, d.ebp, x.cf, x.zf, d.eflags, stack, e⟩

/-- The registers C may use, as they are. -/
def scratchOf (d : Asm.Cpu Env) : Scratch := ⟨d.eax, d.ecx, d.edx, d.cf, d.zf⟩

section Inside

variable {d : Asm.Cpu Env} {p : Nat} {x : Scratch} {s : List Slot} {e : Env} {l : Lbl} {f : CFun}

/-- After a call the registers are what C left, and `%eax` is the result if there is one. -/
theorem inside_call {v : Option Word} {k : Kernel} (h : (entryCode b.shell)[p]? = some (.call f))
    (hf : b.call e.kernel f s = some (v, k)) : ∃ y, (∀ w, v = some w → y.eax = w) ∧
      Proceeds b (inside d p x s e) (inside d (p + 1) y s ⟨k, e.parked⟩) := by
  refine ⟨{ b.scratch f e with eax := v.getD (b.scratch f e).eax }, ?_, Leads.call h ?_⟩
  · rintro w rfl
    rfl
  · show (b.call e.kernel f s).map _ = _
    rw [hf]
    rfl

theorem inside_jz (h : (entryCode b.shell)[p]? = some (.jz l)) :
    Proceeds b (inside d p x s e)
      (inside d (if x.zf then place (entryCode b.shell) l else p + 1) x s e) := by
  have hjump : Proceeds b (inside d p x s e)
      (branch (entryCode b.shell) x.zf l (inside d p x s e)) := by
    refine Leads.jump ?_ rfl
    rw [step, show (inside d p x s e).pc = p from rfl, h]
    rfl
  cases hz : x.zf with
  | true => rw [hz] at hjump; exact hjump
  | false => rw [hz] at hjump; exact hjump

theorem inside_jb (h : (entryCode b.shell)[p]? = some (.jb l)) :
    Proceeds b (inside d p x s e)
      (inside d (if x.cf then place (entryCode b.shell) l else p + 1) x s e) := by
  have hjump : Proceeds b (inside d p x s e)
      (branch (entryCode b.shell) x.cf l (inside d p x s e)) := by
    refine Leads.jump ?_ rfl
    rw [step, show (inside d p x s e).pc = p from rfl, h]
    rfl
  cases hz : x.cf with
  | true => rw [hz] at hjump; exact hjump
  | false => rw [hz] at hjump; exact hjump

end Inside

/-- **A handler returns** to where it was called from, with `v` in `%eax`. What else it leaves
in the registers does not matter, they will be restored. -/
def Serves (b : Boundary) (d : Asm.Cpu Env) (v : Word) (k : Kernel) : Prop :=
  ∀ ra s, d.stack = .addr ra :: s →
    ∃ d', Proceeds b d d' ∧ d'.pc = ra ∧ d'.stack = s ∧ d'.eax = v ∧ d'.env = ⟨k, d.env.parked⟩

/-- Then the whole call returns it. -/
theorem Serves.back {c : Asm.Cpu Env} (hpc : c.pc = 0) {l : Lbl}
    (hl : jumpTable[(c.eax - 1).toNat]? = some l) {v : Word} {k : Kernel}
    (h : Serves b (atHandler b l c) v k) :
    ∃ c', Proceeds b c c' ∧ BackWith b c c' v ∧ c'.env = ⟨k, c.env.parked⟩ := by
  obtain ⟨d, hd, hra, hstack, rfl, henv⟩ := h 13 _ rfl
  obtain ⟨c', hc', hback, henv'⟩ := proceeds_unsave (b := b) hra hstack
  exact ⟨c', (proceeds_table hpc hl).trans (hd.trans hc'), hback, henv'.trans henv⟩

/-- It is enough to follow the handler from its first instruction. -/
theorem Serves.of_inside {d : Asm.Cpu Env} {p : Nat} (hpc : d.pc = p) {v : Word} {k : Kernel}
    (h : ∀ ra s, ∃ x, x.eax = v ∧ Proceeds b (inside d p (scratchOf d) (.addr ra :: s) d.env)
      (inside d ra x s ⟨k, d.env.parked⟩)) : Serves b d v k := by
  intro ra s hs
  obtain ⟨x, hx, hgo⟩ := h ra s
  rw [← hpc, ← hs] at hgo
  exact ⟨inside d ra x s ⟨k, d.env.parked⟩, hgo, rfl, rfl, hx, rfl⟩

/-! ## The handlers -/

/-- The handlers that pass `%ebx` on to a function and return what it returns. -/
theorem serves_unary {d : Asm.Cpu Env} {p : Nat} {f : CFun} (hpc : d.pc = p)
    (hpf : p = 125 ∧ f = .syscallOpen ∨ p = 130 ∧ f = .syscallClose ∨ p = 141 ∧ f = .syscallVidmap)
    {v : Word} {k : Kernel}
    (hf : ∀ s, b.call d.env.kernel f (.word d.ebx :: s) = some (some v, k)) : Serves b d v k := by
  refine .of_inside hpc ?_
  intro ra s
  have h1 : Proceeds b (inside d p (scratchOf d) (.addr ra :: s) d.env)
      (inside d (p + 2) (scratchOf d) (.word d.ebx :: .addr ra :: s) d.env) := by
    rcases hpf with ⟨rfl, rfl⟩ | ⟨rfl, rfl⟩ | ⟨rfl, rfl⟩
    all_goals exact ⟨2, rfl⟩
  have h2 : (entryCode b.shell)[p + 2]? = some (.call f) := by
    rcases hpf with ⟨rfl, rfl⟩ | ⟨rfl, rfl⟩ | ⟨rfl, rfl⟩
    all_goals rfl
  have h3 : ∀ x e, Proceeds b (inside d (p + 2 + 1) x (.word d.ebx :: .addr ra :: s) e)
      (inside d ra x s e) := by
    intro x e
    rcases hpf with ⟨rfl, rfl⟩ | ⟨rfl, rfl⟩ | ⟨rfl, rfl⟩
    all_goals exact ⟨2, rfl⟩
  obtain ⟨x, hx, hcall⟩ := inside_call h2 (hf _)
  exact ⟨x, hx v rfl, h1.trans (hcall.trans (h3 _ _))⟩

theorem serves_getargs {d : Asm.Cpu Env} (hpc : d.pc = 135) {v : Word} {k : Kernel}
    (hf : ∀ s, b.call d.env.kernel .syscallGetargs (.word d.ebx :: .word d.ecx :: s) =
      some (some v, k)) : Serves b d v k := by
  refine .of_inside hpc ?_
  intro ra s
  have h1 : Proceeds b (inside d 135 (scratchOf d) (.addr ra :: s) d.env)
      (inside d 138 (scratchOf d) (.word d.ebx :: .word d.ecx :: .addr ra :: s) d.env) := ⟨3, rfl⟩
  have h3 : ∀ x e, Proceeds b (inside d 139 x (.word d.ebx :: .word d.ecx :: .addr ra :: s) e)
      (inside d ra x s e) := fun x e => ⟨2, rfl⟩
  have h2 : (entryCode b.shell)[138]? = some (.call .syscallGetargs) := rfl
  obtain ⟨x, hx, hcall⟩ := inside_call h2 (hf _)
  exact ⟨x, hx v rfl, h1.trans (hcall.trans (h3 _ _))⟩

/-- A stub returns what is in `%eax`: the number of the call, less one. -/
theorem serves_stub {d : Asm.Cpu Env} {p : Nat} (hpc : d.pc = p) (hp : p = 146 ∨ p = 148) :
    Serves b d d.eax d.env.kernel := by
  refine .of_inside hpc ?_
  intro ra s
  refine ⟨scratchOf d, rfl, 2, ?_⟩
  rcases hp with rfl | rfl
  all_goals rfl

theorem usrPtrOk_zf (p n : Word) :
    decide (BitVec.ofInt 32 (usrPtrOk p n) = 0) = decide (usrPtrOk p n = 0) := by
  unfold usrPtrOk
  split <;> rfl

section Transfer

variable {d : Asm.Cpu Env} {p : Nat}

/-- `read` and `write` up to the check of the pointer. -/
theorem transfer_check (hp : p = 90 ∨ p = 110) (ra : Nat) (s : List Slot) :
    ∃ x, Proceeds b (inside d p (scratchOf d) (.addr ra :: s) d.env)
      (inside d (if usrPtrOk d.ecx d.edx = 0 then 106 else p + 6) x
        (.word d.ecx :: .word d.edx :: .addr ra :: s) d.env) := by
  have h1 : Proceeds b (inside d p (scratchOf d) (.addr ra :: s) d.env)
      (inside d (p + 3) (scratchOf d) (.word d.ecx :: .word d.edx :: .addr ra :: s) d.env) := by
    rcases hp with rfl | rfl
    all_goals exact ⟨3, rfl⟩
  have h2 : (entryCode b.shell)[p + 3]? = some (.call .usrPtrOk) := by
    rcases hp with rfl | rfl
    all_goals rfl
  have h3 : ∀ x, Proceeds b
      (inside d (p + 3 + 1) x (.word d.ecx :: .word d.edx :: .addr ra :: s) d.env)
      (inside d (p + 5) { x with cf := false, zf := decide (x.eax = 0) }
        (.word d.ecx :: .word d.edx :: .addr ra :: s) d.env) := by
    intro x
    rcases hp with rfl | rfl
    all_goals exact ⟨1, rfl⟩
  have h4 : (entryCode b.shell)[p + 5]? = some (.jz .readBadPtr) := by
    rcases hp with rfl | rfl
    all_goals rfl
  have hf : b.call d.env.kernel .usrPtrOk (.word d.ecx :: .word d.edx :: .addr ra :: s) =
    some (some (BitVec.ofInt 32 (usrPtrOk d.ecx d.edx)), d.env.kernel) := rfl
  obtain ⟨x, hx, hcall⟩ := inside_call (d := d) (x := scratchOf d) h2 hf
  have hz : decide (x.eax = 0) = decide (usrPtrOk d.ecx d.edx = 0) := by
    rw [hx _ rfl]
    exact usrPtrOk_zf d.ecx d.edx
  have hjump := (hcall.trans (h3 x)).trans (inside_jz h4)
  dsimp only at hjump
  rw [hz] at hjump
  simp only [decide_eq_true_eq] at hjump
  exact ⟨_, h1.trans hjump⟩

/-- On a range that is not the program's. -/
theorem serves_bad_ptr (hpc : d.pc = p) (hp : p = 90 ∨ p = 110) (hbad : usrPtrOk d.ecx d.edx = 0) :
    Serves b d (-1) d.env.kernel := by
  refine .of_inside hpc ?_
  intro ra s
  obtain ⟨x, hcheck⟩ := transfer_check (b := b) (d := d) hp ra s
  rw [if_pos hbad] at hcheck
  have h : Proceeds b (inside d 106 x (.word d.ecx :: .word d.edx :: .addr ra :: s) d.env)
      (inside d ra { x with eax := -1 } s d.env) := ⟨4, rfl⟩
  exact ⟨_, rfl, hcheck.trans h⟩

/-- The descriptor looked up, for a range that is. -/
theorem transfer_file (hp : p = 90 ∨ p = 110) (hok : usrPtrOk d.ecx d.edx ≠ 0) (ra : Nat)
    (s : List Slot) {w : Word} (hw : b.call d.env.kernel .getFile
      (.word d.ebx :: .word d.ecx :: .word d.edx :: .addr ra :: s) = some (some w, d.env.kernel)) :
    ∃ x, x.eax = w ∧ Proceeds b (inside d p (scratchOf d) (.addr ra :: s) d.env)
      (inside d (if w = -1 then 103 else p + 10) x
        (.word d.ebx :: .word d.ecx :: .word d.edx :: .addr ra :: s) d.env) := by
  obtain ⟨x, hcheck⟩ := transfer_check (b := b) (d := d) hp ra s
  rw [if_neg hok] at hcheck
  have h1 : Proceeds b (inside d (p + 6) x (.word d.ecx :: .word d.edx :: .addr ra :: s) d.env)
      (inside d (p + 7) x (.word d.ebx :: .word d.ecx :: .word d.edx :: .addr ra :: s) d.env) := by
    rcases hp with rfl | rfl
    all_goals exact ⟨1, rfl⟩
  have h2 : (entryCode b.shell)[p + 7]? = some (.call .getFile) := by
    rcases hp with rfl | rfl
    all_goals rfl
  have h3 : ∀ x s e, Proceeds b (inside d (p + 7 + 1) x s e)
      (inside d (p + 9) { x with cf := decide (x.eax < -1), zf := decide (x.eax = -1) } s e) := by
    intro x s e
    rcases hp with rfl | rfl
    all_goals exact ⟨1, rfl⟩
  have h4 : (entryCode b.shell)[p + 9]? = some (.jz .readDone) := by
    rcases hp with rfl | rfl
    all_goals rfl
  obtain ⟨y, hy, hcall⟩ := inside_call (d := d) (x := x) h2 hw
  have hy := hy w rfl
  have hjump := (hcall.trans (h3 y _ _)).trans (inside_jz h4)
  dsimp only at hjump
  rw [hy] at hjump
  simp only [decide_eq_true_eq] at hjump
  exact ⟨{ y with eax := w, cf := decide (w < -1), zf := decide (w = -1) }, rfl,
    hcheck.trans (h1.trans hjump)⟩

/-- On a descriptor that is not open. -/
theorem serves_bad_file (hpc : d.pc = p) (hp : p = 90 ∨ p = 110) (hok : usrPtrOk d.ecx d.edx ≠ 0)
    (hbad : getFile d.env.kernel d.ebx.toInt = none) : Serves b d (-1) d.env.kernel := by
  refine .of_inside hpc ?_
  intro ra s
  obtain ⟨x, hx, hfile⟩ := transfer_file (b := b) (d := d) hp hok ra s (w := -1)
    (by simp only [Boundary.call, hbad])
  rw [if_pos rfl] at hfile
  have h : Proceeds b
      (inside d 103 x (.word d.ebx :: .word d.ecx :: .word d.edx :: .addr ra :: s) d.env)
      (inside d ra x s d.env) := ⟨3, rfl⟩
  exact ⟨_, hx, hfile.trans h⟩

/-- On an open one the transfer itself decides. -/
theorem serves_transfer {f : CFun} (hpc : d.pc = p)
    (hpf : p = 90 ∧ f = .kread ∨ p = 110 ∧ f = .kwrite) (hok : usrPtrOk d.ecx d.edx ≠ 0)
    {i : Fin 8} (hfile : getFile d.env.kernel d.ebx.toInt = some i) {v : Word} {k : Kernel}
    (hf : ∀ s,
      b.call d.env.kernel f (.word (BitVec.ofNat 32 i) :: .word d.ecx :: .word d.edx :: s) =
        some (some v, k)) : Serves b d v k := by
  refine .of_inside hpc ?_
  intro ra s
  have hp : p = 90 ∨ p = 110 := hpf.imp And.left And.left
  have hi := i.isLt
  have hne : BitVec.ofNat 32 i ≠ -1 := by
    intro h
    have := congrArg BitVec.toNat h
    rw [BitVec.toNat_ofNat, show (-1 : Word).toNat = 4294967295 from rfl] at this
    omega
  obtain ⟨x, hx, hopen⟩ := transfer_file (b := b) (d := d) hp hok ra s (w := BitVec.ofNat 32 i)
    (by simp only [Boundary.call, hfile])
  rw [if_neg hne] at hopen
  have h1 : Proceeds b
      (inside d (p + 10) x (.word d.ebx :: .word d.ecx :: .word d.edx :: .addr ra :: s) d.env)
      (inside d (p + 12) x (.word x.eax :: .word d.ecx :: .word d.edx :: .addr ra :: s) d.env) := by
    rcases hp with rfl | rfl
    all_goals exact ⟨2, rfl⟩
  rw [hx] at h1
  have h2 : (entryCode b.shell)[p + 12]? = some (.call f) := by
    rcases hpf with ⟨rfl, rfl⟩ | ⟨rfl, rfl⟩
    all_goals rfl
  obtain ⟨y, hy, hcall⟩ := inside_call (d := d) (x := x) h2 (hf (.addr ra :: s))
  have h3 : ∀ w e, Proceeds b
      (inside d (p + 12 + 1) y (.word w :: .word d.ecx :: .word d.edx :: .addr ra :: s) e)
      (inside d ra y s e) := by
    intro w e
    rcases hp with rfl | rfl
    · exact ⟨3, rfl⟩
    · exact ⟨2, rfl⟩
  exact ⟨y, hy v rfl, hopen.trans (h1.trans (hcall.trans (h3 _ _)))⟩

end Transfer

/-- `read` and `write` answer what the check and the transfer come to. -/
theorem serves_call {d : Asm.Cpu Env} {p : Nat} {r : Regs} {call : Call} {v : Int} {k : Kernel}
    (hpc : d.pc = p) (hebx : r.ebx = d.ebx) (hecx : r.ecx = d.ecx) (hedx : r.edx = d.edx)
    (hcall : p = 90 ∧ call = read r d.env.kernel ∨ p = 110 ∧ call = write r d.env.kernel)
    (hrun : call.run b.img b.d b.dev r d.env.kernel = some (v, k)) :
    Serves b d (BitVec.ofInt 32 v) k := by
  have hp : p = 90 ∨ p = 110 := hcall.imp And.left And.left
  by_cases hptr : usrPtrOk d.ecx d.edx = 0
  · have hreturns : call = .returns (-1) := by
      rcases hcall with ⟨-, rfl⟩ | ⟨-, rfl⟩
      · rw [read, hecx, hedx, if_pos hptr]
      · rw [write, hecx, hedx, if_pos hptr]
    subst hreturns
    cases hrun
    exact serves_bad_ptr hpc hp hptr
  -- an address that is refused is answered before the descriptor is looked at
  · cases hfile : getFile d.env.kernel d.ebx.toInt with
    | none =>
        have hreturns : call = .returns (-1) := by
          rcases hcall with ⟨-, rfl⟩ | ⟨-, rfl⟩
          · rw [read, hecx, hedx, if_neg hptr, hebx, hfile]
          · rw [write, hecx, hedx, if_neg hptr, hebx, hfile]
        subst hreturns
        cases hrun
        exact serves_bad_file hpc hp hptr hfile
    | some i =>
        have hi : (BitVec.ofNat 32 i.val).toNat = i := by
          rw [BitVec.toNat_ofNat]
          omega
        have hlt : (BitVec.ofNat 32 i.val).toNat < 8 := by omega
        have hfin : (⟨(BitVec.ofNat 32 i.val).toNat, hlt⟩ : Fin 8) = i := Fin.ext hi
        rcases hcall with ⟨hp, rfl⟩ | ⟨hp, rfl⟩
        · rw [read, hecx, hedx, if_neg hptr, hebx, hfile] at hrun
          refine serves_transfer hpc (.inl ⟨hp, rfl⟩) hptr hfile ?_
          intro s
          have hdone : (Call.kread i d.ecx d.edx).run b.img b.d b.dev ⟨0, 0, d.ecx, d.edx⟩
            d.env.kernel = some (v, k) := hrun
          simp only [Boundary.call, dif_pos hlt, hfin, hdone]
          rfl
        · rw [write, hecx, hedx, if_neg hptr, hebx, hfile] at hrun
          refine serves_transfer hpc (.inr ⟨hp, rfl⟩) hptr hfile ?_
          intro s
          have hdone : (Call.kwrite i d.ecx d.edx).run b.img b.d b.dev ⟨0, 0, d.ecx, d.edx⟩
            d.env.kernel = some (v, k) := hrun
          simp only [Boundary.call, dif_pos hlt, hfin, hdone]
          rfl

/-! ## Into a program -/

/-- The stack of a process that waits in `execute`: where `halt` returns to, and the registers. -/
def callFrame (c : Asm.Cpu Env) : List Slot := .addr 13 :: (saved c ++ c.stack)

/-- At an `iret` into the program at `entry`, with interrupts on, and the caller's stack below. -/
structure Entering (b : Boundary) (c' : Asm.Cpu Env) (entry : Word) (s : List Slot) : Prop where
  iret : (entryCode b.shell)[c'.pc]? = some .iret
  stack : ∃ fl, c'.stack = .word entry :: .word userCs :: .word (fl ||| flagIf) ::
    .word (BitVec.ofNat 32 loadAddr - 4) :: .word userDs :: s

/-- The two ends of `execute` and `kexecute`, by what the loader returned. -/
theorem enter_cases {caller esp : Nat} {res : Option (Loaded × Kernel)} {r : Exec} {k : Kernel}
    (h : enter caller esp res = some (r, k)) (hr : r ≠ .faulted) :
    ∃ v k₁, res = some (.returned v, k₁) ∧
      ((v = -1 ∨ v = 1) ∧ r = .failed ∧ k = k₁ ∨
        ¬ (v = -1 ∨ v = 1) ∧ r = .entered v ∧ k = saveEsp caller esp k₁) := by
  unfold enter at h
  split at h
  case h_1 => cases h
  case h_2 =>
    cases h
    exact absurd rfl hr
  case h_3 v k₁ =>
    refine ⟨v, k₁, rfl, ?_⟩
    split at h
    case isTrue hv =>
      cases h
      exact .inl ⟨.inl hv, rfl, rfl⟩
    case isFalse hv =>
      split at h
      case isTrue hv' =>
        cases h
        exact .inl ⟨.inr hv', rfl, rfl⟩
      case isFalse hv' =>
        cases h
        exact .inr ⟨not_or.mpr ⟨hv, hv'⟩, rfl, rfl⟩

section Enter

variable {d : Asm.Cpu Env} {p : Nat} {load : CFun} {x : Scratch} {s : List Slot} {e : Env}

/-- The part that `execute` and `kexecute` share, up to its second check. -/
theorem enter_load (hp : p = 51 ∧ load = .loadExecToMem ∨ p = 71 ∧ load = .kloadExecToMem)
    {v : Word} {k : Kernel} (hload : b.call e.kernel load (.word d.ebx :: s) = some (some v, k)) :
    ∃ y, y.eax = v ∧ Proceeds b (inside d p x s e)
      (inside { d with edi := BitVec.ofNat 32 e.kernel.task.currentProcess }
        (if v = -1 ∨ v = 1 then 24 else p + 9) y s ⟨k, e.parked⟩) := by
  let d' : Asm.Cpu Env := { d with edi := BitVec.ofNat 32 e.kernel.task.currentProcess }
  have h1 : (entryCode b.shell)[p]? = some (.call .getCurrentPcb) := by
    rcases hp with ⟨rfl, rfl⟩ | ⟨rfl, rfl⟩
    all_goals rfl
  obtain ⟨y, hy, hpcb⟩ := inside_call (d := d) (x := x) (s := s) (e := e) h1
    (show b.call e.kernel .getCurrentPcb s = _ from rfl)
  have hy := hy _ rfl
  have h2 : Proceeds b (inside d (p + 1) y s e) (inside d' (p + 3) y (.word d.ebx :: s) e) := by
    refine ⟨2, ?_⟩
    have : inside d' (p + 3) y (.word d.ebx :: s) e =
        inside { d with edi := y.eax } (p + 3) y (.word d.ebx :: s) e := by rw [hy]
    rw [this]
    rcases hp with ⟨rfl, rfl⟩ | ⟨rfl, rfl⟩
    all_goals rfl
  have h3 : (entryCode b.shell)[p + 3]? = some (.call load) := by
    rcases hp with ⟨rfl, rfl⟩ | ⟨rfl, rfl⟩
    all_goals rfl
  obtain ⟨z, hz, hloaded⟩ := inside_call (d := d') (x := y) h3 hload
  have hz := hz _ rfl
  -- the two values that mean failure are looked for one after the other
  have h4 : ∀ z e, Proceeds b (inside d' (p + 3 + 1) z (.word d.ebx :: s) e)
      (inside d' (p + 6) { z with cf := decide (z.eax < -1), zf := decide (z.eax = -1) } s e) := by
    intro z e
    rcases hp with ⟨rfl, rfl⟩ | ⟨rfl, rfl⟩
    all_goals exact ⟨2, rfl⟩
  have h5 : (entryCode b.shell)[p + 6]? = some (.jz .syscallFail) := by
    rcases hp with ⟨rfl, rfl⟩ | ⟨rfl, rfl⟩
    all_goals rfl
  have h6 : ∀ z e, Proceeds b (inside d' (p + 6 + 1) z s e)
      (inside d' (p + 8) { z with cf := decide (z.eax < 1), zf := decide (z.eax = 1) } s e) := by
    intro z e
    rcases hp with ⟨rfl, rfl⟩ | ⟨rfl, rfl⟩
    all_goals exact ⟨1, rfl⟩
  have h7 : (entryCode b.shell)[p + 8]? = some (.jz .syscallFail) := by
    rcases hp with ⟨rfl, rfl⟩ | ⟨rfl, rfl⟩
    all_goals rfl
  have hfirst := hpcb.trans (h2.trans (hloaded.trans ((h4 z _).trans (inside_jz h5))))
  dsimp only at hfirst
  rw [hz] at hfirst
  simp only [decide_eq_true_eq] at hfirst
  by_cases hneg : v = -1
  · rw [if_pos hneg] at hfirst
    rw [if_pos (.inl hneg)]
    exact ⟨{ z with eax := v, cf := decide (v < -1), zf := decide (v = -1) }, rfl, hfirst⟩
  · rw [if_neg hneg] at hfirst
    have hsecond := hfirst.trans ((h6 _ _).trans (inside_jz h7))
    dsimp only at hsecond
    simp only [decide_eq_true_eq] at hsecond
    refine ⟨{ z with eax := v, cf := decide (v < 1), zf := decide (v = 1) }, rfl, ?_⟩
    by_cases hone : v = 1
    · rw [if_pos hone] at hsecond
      rw [if_pos (.inr hone)]
      exact hsecond
    · rw [if_neg hone] at hsecond
      rw [if_neg (not_or.mpr ⟨hneg, hone⟩)]
      exact hsecond

/-- A load that failed is answered with `-1`. -/
theorem enter_fails (hp : p = 51 ∧ load = .loadExecToMem ∨ p = 71 ∧ load = .kloadExecToMem)
    {v : Word} {k : Kernel} {ra : Nat}
    (hload : b.call e.kernel load (.word d.ebx :: .addr ra :: s) = some (some v, k))
    (hv : v = -1 ∨ v = 1) : ∃ d' y, y.eax = -1 ∧
      Proceeds b (inside d p x (.addr ra :: s) e) (inside d' ra y s ⟨k, e.parked⟩) := by
  obtain ⟨y, -, hgo⟩ := enter_load (b := b) (x := x) hp hload
  rw [if_pos hv] at hgo
  have hfail : ∀ d', Proceeds b (inside d' 24 y (.addr ra :: s) ⟨k, e.parked⟩)
      (inside d' ra { y with eax := -1 } s ⟨k, e.parked⟩) := fun d' => ⟨3, rfl⟩
  exact ⟨_, _, rfl, hgo.trans (hfail _)⟩

/-- One that did not is entered, and the caller's stack goes into its PCB. -/
theorem enter_enters (hp : p = 51 ∧ load = .loadExecToMem ∨ p = 71 ∧ load = .kloadExecToMem)
    (hpid : e.kernel.task.currentProcess < 4294967296) {v : Word} {k : Kernel}
    (hload : b.call e.kernel load (.word d.ebx :: s) = some (some v, k)) (hv : ¬ (v = -1 ∨ v = 1)) :
    ∃ c', Proceeds b (inside d p x s e) c' ∧ Entering b c' v s ∧
      c'.env = ⟨saveEsp e.kernel.task.currentProcess (b.espOf s) k,
        Function.update e.parked e.kernel.task.currentProcess s⟩ := by
  obtain ⟨y, hy, hgo⟩ := enter_load (b := b) (x := x) hp hload
  rw [if_neg hv] at hgo
  have hword : (BitVec.ofNat 32 e.kernel.task.currentProcess).toNat
      = e.kernel.task.currentProcess := by
    rw [BitVec.toNat_ofNat]
    omega
  generalize hd :
    ({ d with edi := BitVec.ofNat 32 e.kernel.task.currentProcess } : Asm.Cpu Env) = d' at hgo
  have hedi : d'.edi.toNat = e.kernel.task.currentProcess := by rw [← hd]; exact hword
  obtain ⟨c', hc', hiret, hstack, henv⟩ : ∃ c',
      Proceeds b (inside d' (p + 9) y s ⟨k, e.parked⟩) c' ∧
      (entryCode b.shell)[c'.pc]? = some .iret ∧
      (∃ fl, c'.stack = .word y.eax :: .word userCs :: .word (fl ||| flagIf) ::
        .word (BitVec.ofNat 32 loadAddr - 4) :: .word userDs :: s) ∧
      c'.env = ⟨saveEsp d'.edi.toNat (b.espOf s) k, Function.update e.parked d'.edi.toNat s⟩ := by
    rcases hp with ⟨rfl, rfl⟩ | ⟨rfl, rfl⟩
    all_goals exact ⟨_, ⟨9, rfl⟩, rfl, ⟨_, rfl⟩, rfl⟩
  rw [hedi] at henv
  rw [hy] at hstack
  exact ⟨c', hgo.trans hc', ⟨hiret, hstack⟩, henv⟩

end Enter

/-! ## `execute` -/

/-- `execute` up to the check of its string. -/
theorem execute_check {d : Asm.Cpu Env} {x : Scratch} {s : List Slot} {e : Env} {cmd : List Byte}
    (hcmd : b.stringAt e.kernel d.ebx = some cmd) :
    ∃ y, Proceeds b (inside d 42 x s e)
      (inside d (if usrPtrOk d.ebx (BitVec.ofNat 32 cmd.length) = 0 then 24 else 51) y s e) := by
  have h1 : Proceeds b (inside d 42 x s e) (inside d 44 x (.word d.ebx :: s) e) := ⟨2, rfl⟩
  have hstrlen : (entryCode b.shell)[44]? = some (.call .strlen) := rfl
  have hlen : b.call e.kernel .strlen (.word d.ebx :: s) =
      some (some (BitVec.ofNat 32 cmd.length), e.kernel) := by
    rw [Boundary.call, hcmd]
    rfl
  obtain ⟨y, hy, h2⟩ := inside_call (d := d) (x := x) (e := e) hstrlen hlen
  have h3 : Proceeds b (inside d 45 y (.word d.ebx :: s) e)
      (inside d 47 y (.word d.ebx :: .word y.eax :: .word d.ebx :: s) e) := ⟨2, rfl⟩
  rw [hy _ rfl] at h3
  have hptr : (entryCode b.shell)[47]? = some (.call .usrPtrOk) := rfl
  obtain ⟨z, hz, h4⟩ := inside_call (d := d) (x := y) (e := e) hptr
    (show b.call e.kernel .usrPtrOk
      (.word d.ebx :: .word (BitVec.ofNat 32 cmd.length) :: .word d.ebx :: s) = _ from rfl)
  have h5 : ∀ t, Proceeds b (inside d 48 z (.word d.ebx :: .word t :: .word d.ebx :: s) e)
      (inside d 50 { z with cf := false, zf := decide (z.eax = 0) } s e) := fun t => ⟨2, rfl⟩
  have hjz : (entryCode b.shell)[50]? = some (.jz .syscallFail) := rfl
  have hgo := h1.trans (h2.trans (h3.trans (h4.trans ((h5 _).trans (inside_jz hjz)))))
  dsimp only at hgo
  rw [hz _ rfl, usrPtrOk_zf] at hgo
  simp only [decide_eq_true_eq] at hgo
  exact ⟨_, hgo⟩

/-- What the loader gives to the assembly, from what `execute` came to. -/
theorem execute_loaded {k k' : Kernel} {esp : Nat} {ptr : Word} {cmd : List Byte} {r : Exec}
    (hcmd : b.stringAt k ptr = some cmd) (hok : usrPtrOk ptr (BitVec.ofNat 32 cmd.length) ≠ 0)
    (hr : r ≠ .faulted) (h : execute b.L b.img b.loc esp ptr cmd k = some (r, k'))
    (s : List Slot) :
    ∃ v k₁, b.call k .loadExecToMem (.word ptr :: s) = some (some v, k₁) ∧
      ((v = -1 ∨ v = 1) ∧ r = .failed ∧ k' = k₁ ∨
        ¬ (v = -1 ∨ v = 1) ∧ r = .entered v ∧ k' = saveEsp k.task.currentProcess esp k₁) := by
  unfold execute at h
  rw [if_neg hok] at h
  obtain ⟨v, k₁, hload, hcase⟩ := enter_cases h hr
  refine ⟨v, k₁, ?_, hcase⟩
  rw [Boundary.call, hcmd, Option.bind_some, hload]
  rfl

/-- **`execute`, when it fails**, serves `-1`. -/
theorem serves_execute {d : Asm.Cpu Env} (hpc : d.pc = 42) {esp : Nat} {cmd : List Byte}
    {k : Kernel} (hcmd : b.stringAt d.env.kernel d.ebx = some cmd)
    (h : execute b.L b.img b.loc esp d.ebx cmd d.env.kernel = some (.failed, k)) :
    Serves b d (-1) k := by
  intro ra s hs
  obtain ⟨x, hcheck⟩ := execute_check (b := b) (d := d) (x := scratchOf d) (s := d.stack)
    (e := d.env) hcmd
  have hstart : inside d 42 (scratchOf d) d.stack d.env = d := by
    rw [← hpc]
    rfl
  rw [hstart, hs] at hcheck
  by_cases hptr : usrPtrOk d.ebx (BitVec.ofNat 32 cmd.length) = 0
  · have hk : k = d.env.kernel := by
      unfold execute at h
      rw [if_pos hptr] at h
      cases h
      rfl
    rw [if_pos hptr] at hcheck
    have hfail : Proceeds b (inside d 24 x (.addr ra :: s) d.env)
      (inside d ra { x with eax := -1 } s d.env) := ⟨3, rfl⟩
    exact ⟨_, hcheck.trans hfail, rfl, rfl, rfl, by rw [hk]; rfl⟩
  · obtain ⟨v, k₁, hload, hcase⟩ := execute_loaded hcmd hptr (by simp) h (.addr ra :: s)
    rcases hcase with ⟨hv, -, rfl⟩ | ⟨-, hr, -⟩
    · rw [if_neg hptr] at hcheck
      obtain ⟨d', y, hy, hgo⟩ := enter_fails (b := b) (d := d) (x := x) (e := d.env)
        (.inl ⟨rfl, rfl⟩) hload hv
      exact ⟨_, hcheck.trans hgo, rfl, rfl, hy, rfl⟩
    · cases hr

/-- **`execute`, when it succeeds**: the program is entered, and the caller's stack is kept. -/
theorem execute_proceeds {c : Asm.Cpu Env} (hpc : c.pc = 0) (hnum : c.eax = 2)
    (hpid : c.env.kernel.task.currentProcess < 4294967296) {cmd : List Byte} {entry : Word}
    {k : Kernel} (hcmd : b.stringAt c.env.kernel c.ebx = some cmd)
    (h : execute b.L b.img b.loc (b.espOf (callFrame c)) c.ebx cmd c.env.kernel =
      some (.entered entry, k)) :
    ∃ c', Proceeds b c c' ∧ Entering b c' entry (callFrame c) ∧
      c'.env =
        ⟨k, Function.update c.env.parked c.env.kernel.task.currentProcess (callFrame c)⟩ := by
  have htable : jumpTable[(c.eax - 1).toNat]? = some .execute := by rw [hnum]; rfl
  have hptr : usrPtrOk c.ebx (BitVec.ofNat 32 cmd.length) ≠ 0 := by
    intro hptr
    unfold execute at h
    rw [if_pos hptr] at h
    cases h
  obtain ⟨x, hcheck⟩ := execute_check (b := b) (d := atHandler b .execute c)
    (x := scratchOf (atHandler b .execute c)) (s := callFrame c) (e := c.env) hcmd
  rw [show (atHandler b .execute c).ebx = c.ebx from rfl, if_neg hptr] at hcheck
  obtain ⟨v, k₁, hload, hcase⟩ := execute_loaded hcmd hptr (by simp) h (callFrame c)
  rcases hcase with ⟨-, hr, -⟩ | ⟨hv, hr, rfl⟩
  · cases hr
  · cases hr
    obtain ⟨c', hgo, hin, henv⟩ := enter_enters (b := b) (d := atHandler b .execute c) (x := x)
      (e := c.env) (.inl ⟨rfl, rfl⟩) hpid hload hv
    exact ⟨c', (proceeds_table hpc htable).trans (Proceeds.trans hcheck hgo), hin, henv⟩

/-! ## Every call that returns -/

/-- The range a call hands on lies in the program page. -/
def inPage : Call → Bool
  | .returns _ => true
  | .kread _ buf n => InUserPage buf.toNat n.toNat
  | .kwrite _ buf n => InUserPage buf.toNat n.toNat
  | .strncpy buf n => InUserPage buf.toNat n.toNat

/-- An `execute` returns by itself when it fails. -/
def executeAnswer : Option (Exec × Kernel) → Option (Word × Kernel)
  | some (.failed, k) => some (-1, k)
  | _ => none

theorem executeAnswer_eq {res : Option (Exec × Kernel)} {v : Word} {k : Kernel}
    (h : executeAnswer res = some (v, k)) : v = -1 ∧ res = some (.failed, k) := by
  unfold executeAnswer at h
  split at h
  case h_1 =>
    cases h
    exact ⟨rfl, rfl⟩
  case h_2 => cases h

/-- What a system call is answered with, by the number in `%eax`. There is no answer where the
call does not return by itself: to `halt`, to an `execute` that starts a program, and where the
kernel faults, on a string it cannot read to the end or a range that leaves the program page.
A command that overruns the buffers of the loader is left out. -/
def answer (b : Boundary) (r : Regs) (k : Kernel) : Option (Word × Kernel) :=
  match r.eax.toNat with
  | 1 => none
  | 2 =>
      (b.stringAt k r.ebx).bind fun cmd =>
        if cmd.length < bufSize then executeAnswer (execute b.L b.img b.loc 0 r.ebx cmd k) else none
  | 5 =>
      (b.stringAt k r.ebx).bind fun name =>
        (syscallOpen b.img b.d r.ebx name k).map fun (v, k) => (BitVec.ofInt 32 v, k)
  | 6 => some (BitVec.ofInt 32 (syscallClose r.ebx.toInt k).1, (syscallClose r.ebx.toInt k).2)
  | 8 => some (BitVec.ofInt 32 (syscallVidmap r.ebx k).1, (syscallVidmap r.ebx k).2)
  | 9 => some (8, k)
  | 10 => some (9, k)
  | _ =>
      match request r k with
      | some call =>
          if inPage call then
            (call.run b.img b.d b.dev r k).map fun (v, k) => (BitVec.ofInt 32 v, k)
          else none
      | none => some (-1, k)

/-- The number of a call is its place in the table, and one more. -/
theorem sub_one_of_number {w : Word} {n : Nat} (h : w.toNat = n + 1) : (w - 1).toNat = n := by
  have hlt := w.isLt
  rw [BitVec.toNat_sub, h]
  simp
  omega

theorem jumpTable_of_number {w : Word} {n : Nat} {l : Lbl} (hn : w.toNat = n + 1)
    (hl : jumpTable[n]? = some l) : jumpTable[(w - 1).toNat]? = some l := by
  rw [sub_one_of_number hn]
  exact hl

/-- `read`, `write` and `getargs`, where the C code answers. -/
theorem request_returns {c : Asm.Cpu Env} (hpc : c.pc = 0) {call : Call} {w : Int} {k : Kernel}
    (hcall : request (regsOf c) c.env.kernel = some call)
    (hrun : call.run b.img b.d b.dev (regsOf c) c.env.kernel = some (w, k)) :
    ∃ c', Proceeds b c c' ∧ BackWith b c c' (BitVec.ofInt 32 w) ∧ c'.env = ⟨k, c.env.parked⟩ := by
  unfold request at hcall
  split at hcall
  case h_1 hn =>
    cases hcall
    have hread : Serves b (atHandler b .read c) (BitVec.ofInt 32 w) k :=
      serves_call rfl rfl rfl rfl (.inl ⟨rfl, rfl⟩) hrun
    exact hread.back hpc (jumpTable_of_number (n := 2) hn rfl)
  case h_2 hn =>
    cases hcall
    have hwrite : Serves b (atHandler b .write c) (BitVec.ofInt 32 w) k :=
      serves_call rfl rfl rfl rfl (.inr ⟨rfl, rfl⟩) hrun
    exact hwrite.back hpc (jumpTable_of_number (n := 3) hn rfl)
  case h_3 hn =>
    cases hcall
    refine (serves_getargs rfl ?_).back hpc (jumpTable_of_number (n := 6) hn rfl)
    intro s
    show ((getargs (regsOf c)).run b.img b.d b.dev (regsOf c) c.env.kernel).map intWord = _
    rw [hrun]
    rfl
  case h_4 => cases hcall

/-- A number that is none of these and none of the others is not in the table. -/
theorem number_of_none {r : Regs} {k : Kernel} (hcall : request r k = none)
    (hother : r.eax.toNat ∉ [1, 2, 5, 6, 8, 9, 10]) : 9 < (r.eax - 1).toNat := by
  unfold request at hcall
  split at hcall
  case h_1 => cases hcall
  case h_2 => cases hcall
  case h_3 => cases hcall
  case h_4 h3 h4 h7 =>
    have hlt := r.eax.isLt
    rw [BitVec.toNat_sub, show (1 : Word).toNat = 1 from rfl]
    simp only [List.mem_cons, List.not_mem_nil, or_false, not_or] at hother
    simp only [imp_false] at h3 h4 h7
    omega

/--
**The way of a system call.** For every number and every contents of the registers, in
every state of the kernel, and whatever C leaves in the registers that are its own: a
call that returns brings the program back to where it was, its registers and its stack
unchanged, with the answer of the C code in `%eax`. What is no number of a call is
answered with `-1`; the two stubs answer their own number less one.
-/
theorem syscall_returns_to_program {c : Asm.Cpu Env}
    (hpc : c.pc = place (entryCode b.shell) .syscall)
    {v : Word} {k : Kernel} (h : answer b (regsOf c) c.env.kernel = some (v, k)) :
    ∃ c', Proceeds b c c' ∧ BackWith b c c' v ∧ c'.env = ⟨k, c.env.parked⟩ := by
  have hpc : c.pc = 0 := hpc
  unfold answer at h
  split at h
  case h_1 => cases h
  case h_2 hn =>
    obtain ⟨cmd, hcmd, h⟩ := Option.bind_eq_some_iff.mp h
    split at h
    case isFalse => cases h
    case isTrue =>
      obtain ⟨rfl, hfailed⟩ := executeAnswer_eq h
      have hfails : Serves b (atHandler b .execute c) (-1) k := serves_execute rfl hcmd hfailed
      exact hfails.back hpc (jumpTable_of_number (n := 1) hn rfl)
  case h_3 hn =>
    obtain ⟨name, hname, h⟩ := Option.bind_eq_some_iff.mp h
    obtain ⟨⟨w, k'⟩, hw, heq⟩ := Option.map_eq_some_iff.mp h
    cases heq
    refine (serves_unary rfl (.inl ⟨rfl, rfl⟩) ?_).back hpc (jumpTable_of_number (n := 4) hn rfl)
    intro s
    have hname : b.stringAt c.env.kernel c.ebx = some name := hname
    have hw : syscallOpen b.img b.d c.ebx name c.env.kernel = some (w, k) := hw
    show b.call c.env.kernel .syscallOpen (.word c.ebx :: s) = _
    simp only [Boundary.call, hname, Option.bind_some, hw]
    rfl
  case h_4 hn =>
    cases h
    exact (serves_unary rfl (.inr (.inl ⟨rfl, rfl⟩)) fun s => rfl).back hpc
      (jumpTable_of_number (n := 5) hn rfl)
  case h_5 hn =>
    cases h
    exact (serves_unary rfl (.inr (.inr ⟨rfl, rfl⟩)) fun s => rfl).back hpc
      (jumpTable_of_number (n := 7) hn rfl)
  case h_6 hn =>
    cases h
    have heax : (atHandler b .setHandler c).eax = 8 :=
      BitVec.eq_of_toNat_eq (sub_one_of_number (n := 8) hn)
    exact (heax ▸ serves_stub rfl (.inl rfl)).back hpc (jumpTable_of_number (n := 8) hn rfl)
  case h_7 hn =>
    cases h
    have heax : (atHandler b .sigreturn c).eax = 9 :=
      BitVec.eq_of_toNat_eq (sub_one_of_number (n := 9) hn)
    exact (heax ▸ serves_stub rfl (.inr rfl)).back hpc (jumpTable_of_number (n := 9) hn rfl)
  -- `read`, `write` and `getargs`, and the numbers outside the table
  case h_8 h1 h2 h5 h6 h8 h9 h10 =>
    split at h
    case h_1 call hcall =>
      split at h
      case isFalse => cases h
      case isTrue =>
        obtain ⟨⟨w, k'⟩, hw, heq⟩ := Option.map_eq_some_iff.mp h
        cases heq
        exact request_returns hpc hcall hw
    case h_2 hcall =>
      cases h
      refine proceeds_invalid hpc (number_of_none hcall ?_)
      simp only [List.mem_cons, List.not_mem_nil, or_false, not_or]
      exact ⟨h1, h2, h5, h6, h8, h9, h10⟩

/-- A machine with the one program "a" on its disk, and C code that spoils what it may. -/
def someBoundary : Boundary where
  L := someLayout
  img := oneFile [0x61] (headerOnly 0x40)
  loc := someLocals
  d := someLocals.d
  dev := ⟨0, fun _ => 0⟩
  shell := 0x400000
  espOf := fun s => 0x800000 - 4 * s.length
  scratch := fun _ _ => ⟨0xBAD, 0xBAD, 0xBAD, true, true⟩

/-- A program at a system call, the registers full of its data. -/
def calling (pc : Nat) (eax ebx : Word) (e : Env) : Asm.Cpu Env :=
  ⟨pc, eax, ebx, 0x33, 0x44, 0x55, 0x66, 0x77, false, true, 0x202,
    [.word 0x08048100, .word userCs], e⟩

/-- The standard output cannot be closed, and nothing is lost in trying. -/
theorem close_returns_to_program :
    ∃ c', Proceeds someBoundary (calling 0 6 1 ⟨newProcess someLayout 1 .zero, fun _ => []⟩) c' ∧
      BackWith someBoundary (calling 0 6 1 ⟨newProcess someLayout 1 .zero, fun _ => []⟩) c' (-1) ∧
      c'.env = ⟨newProcess someLayout 1 .zero, fun _ => []⟩ :=
  syscall_returns_to_program rfl rfl

/-! ## `execute` and `halt` -/

/-- The second half of `halt`: on to the stack of the parent. -/
theorem halt_switches {d : Asm.Cpu Env} {x : Scratch} {s s' : List Slot} {ra : Nat} {k : Kernel}
    {parked : Nat → List Slot} (hpid : k.task.currentProcess < 4294967296)
    (hparent : k.currentPcb.parent < 4294967296)
    (hstack : parked k.currentPcb.parent = .addr ra :: s') :
    ∃ y, y.eax = d.ebx ∧ Proceeds b (inside d 35 x s ⟨k, parked⟩)
      (inside d ra y s' ⟨switchContext k.currentPcb.parent k, parked⟩) := by
  have hpidw : (BitVec.ofNat 32 k.task.currentProcess).toNat = k.task.currentProcess := by
    rw [BitVec.toNat_ofNat]
    omega
  have hparentw : (BitVec.ofNat 32 k.currentPcb.parent).toNat = k.currentPcb.parent := by
    rw [BitVec.toNat_ofNat]
    omega
  have hpcb : (entryCode b.shell)[35]? = some (.call .getCurrentPcb) := rfl
  obtain ⟨y, hy, h1⟩ := inside_call (d := d) (x := x) (s := s) (e := ⟨k, parked⟩) hpcb
    (show b.call k .getCurrentPcb s = _ from rfl)
  have h2 : Proceeds b (inside d 36 y s ⟨k, parked⟩)
      (inside d 37 y (.word (BitVec.ofNat 32 (k.task.pcb y.eax.toNat).parent) :: s) ⟨k, parked⟩) :=
    ⟨1, rfl⟩
  rw [hy _ rfl, hpidw] at h2
  have hswitch : (entryCode b.shell)[37]? = some (.call .switchContext) := rfl
  obtain ⟨z, -, h3⟩ := inside_call (d := d) (x := y) (e := ⟨k, parked⟩) hswitch
    (show b.call k .switchContext (.word (BitVec.ofNat 32 k.currentPcb.parent) :: s) = _ from rfl)
  rw [hparentw] at h3
  have hget : (entryCode b.shell)[38]? = some (.call .getPcb) := rfl
  obtain ⟨w, hw, h4⟩ := inside_call (d := d) (x := z)
    (e := ⟨switchContext k.currentPcb.parent k, parked⟩) hget
    (show b.call _ .getPcb (.word (BitVec.ofNat 32 k.currentPcb.parent) :: s) = _ from rfl)
  -- the stack the parent left behind, and on it the place in `execute` where it waits
  have h5 : Proceeds b (inside d 39 w (.word (BitVec.ofNat 32 k.currentPcb.parent) :: s)
        ⟨switchContext k.currentPcb.parent k, parked⟩)
      (inside d 41 { w with eax := d.ebx } (parked w.eax.toNat)
        ⟨switchContext k.currentPcb.parent k, parked⟩) := ⟨2, rfl⟩
  rw [hw _ rfl, hparentw, hstack] at h5
  have h6 : ∀ y e, Proceeds b (inside d 41 y (.addr ra :: s') e) (inside d ra y s' e) :=
    fun y e => ⟨1, rfl⟩
  exact ⟨_, rfl, h1.trans (h2.trans (h3.trans (h4.trans (h5.trans (h6 _ _)))))⟩

theorem freeCurrentPcb_current (k : Kernel) :
    (freeCurrentPcb k).task.currentProcess = k.task.currentProcess :=
  congrArg ProcView.current (procs_freeCurrentPcb k)

theorem freeCurrentPcb_parent (k : Kernel) :
    (freeCurrentPcb k).currentPcb.parent = k.currentPcb.parent := by
  have h := congrFun (congrArg ProcView.parent (procs_freeCurrentPcb k)) k.task.currentProcess
  unfold Kernel.currentPcb
  rw [freeCurrentPcb_current]
  exact h

/-- **`halt`** of a process that was started by another: its `%ebx` is what the parent gets. -/
theorem halt_proceeds {c : Asm.Cpu Env} (hpc : c.pc = 0) (hnum : c.eax = 1)
    (hpid : c.env.kernel.task.currentProcess < 4294967296)
    (hold : 4 ≤ c.env.kernel.task.currentProcess)
    (hparent : c.env.kernel.currentPcb.parent < 4294967296) {ra : Nat} {s : List Slot}
    (hstack : c.env.parked c.env.kernel.currentPcb.parent = .addr ra :: s) :
    ∃ d, Proceeds b c d ∧ d.pc = ra ∧ d.stack = s ∧ d.eax = c.ebx ∧
      d.env = ⟨switchContext c.env.kernel.currentPcb.parent (freeCurrentPcb c.env.kernel),
        c.env.parked⟩ := by
  have htable : jumpTable[(c.eax - 1).toNat]? = some .halt := by rw [hnum]; rfl
  have hstart := proceeds_table (b := b) hpc htable
  generalize hd : atHandler b .halt c = d at hstart
  have hinside : d = inside d 30 (scratchOf d) (callFrame c) c.env := by rw [← hd]; rfl
  have hebx : d.ebx = c.ebx := by rw [← hd]; rfl
  rw [hinside] at hstart
  have h1 : Proceeds b (inside d 30 (scratchOf d) (callFrame c) c.env)
    (inside d 31 (scratchOf d) (callFrame c) c.env) := ⟨1, rfl⟩
  have hfree : (entryCode b.shell)[31]? = some (.call .freeCurrentPcb) := rfl
  obtain ⟨x, -, h2⟩ := inside_call (d := d) (x := scratchOf d) (s := callFrame c) (e := c.env) hfree
    (show b.call c.env.kernel .freeCurrentPcb (callFrame c) = _ from rfl)
  rw [← freeCurrentPcb_current] at hpid hold
  rw [← freeCurrentPcb_parent] at hparent hstack ⊢
  generalize freeCurrentPcb c.env.kernel = k₁ at *
  have hget : (entryCode b.shell)[32]? = some (.call .getCurrentPid) := rfl
  obtain ⟨y, hy, h3⟩ := inside_call (d := d) (x := x) (s := callFrame c) (e := ⟨k₁, c.env.parked⟩)
    hget (show b.call k₁ .getCurrentPid (callFrame c) = _ from rfl)
  have h4 : Proceeds b (inside d 33 y (callFrame c) ⟨k₁, c.env.parked⟩)
    (inside d 34 { y with cf := decide (y.eax < 4), zf := decide (y.eax = 4) } (callFrame c)
      ⟨k₁, c.env.parked⟩) := ⟨1, rfl⟩
  have hjb : (entryCode b.shell)[34]? = some (.jb .launchNewShell) := rfl
  have hnot : decide (y.eax < 4) = false := by
    rw [hy _ rfl, decide_eq_false_iff_not, BitVec.lt_def, BitVec.toNat_ofNat, Nat.mod_eq_of_lt hpid]
    exact Nat.not_lt.mpr hold
  have h5 := h4.trans (inside_jb hjb)
  dsimp only at h5
  rw [hnot, if_neg (by decide)] at h5
  obtain ⟨z, hz, h6⟩ := halt_switches (b := b) (d := d) hpid hparent hstack
  exact ⟨_, hstart.trans (h1.trans (h2.trans (h3.trans (h5.trans h6)))), rfl, rfl,
    hz.trans hebx, rfl⟩

/--
**`execute` and `halt` are one call.** A program calls `execute` and another is entered.
Whatever happens then, as long as the stack the caller left is not touched: when a process
whose parent is the caller halts with some value in `%ebx`, the caller goes on behind its
`execute`, with that value in `%eax`, and with the registers and the stack it had.
-/
theorem execute_returns_what_halt_passed {c : Asm.Cpu Env}
    (hpc : c.pc = place (entryCode b.shell) .syscall) (hnum : c.eax = 2)
    (hpid : c.env.kernel.task.currentProcess < 4294967296) {cmd : List Byte} {entry : Word}
    {k : Kernel} (hcmd : b.stringAt c.env.kernel c.ebx = some cmd)
    (hexec : execute b.L b.img b.loc (b.espOf (callFrame c)) c.ebx cmd c.env.kernel =
      some (.entered entry, k)) :
    ∃ c₁, Proceeds b c c₁ ∧ Entering b c₁ entry (callFrame c) ∧ c₁.env.kernel = k ∧
      ∀ c₂ : Asm.Cpu Env, c₂.pc = place (entryCode b.shell) .syscall → c₂.eax = 1 →
        4 ≤ c₂.env.kernel.task.currentProcess → c₂.env.kernel.task.currentProcess < 4294967296 →
        c₂.env.kernel.currentPcb.parent = c.env.kernel.task.currentProcess →
        c₂.env.parked c.env.kernel.task.currentProcess =
          c₁.env.parked c.env.kernel.task.currentProcess →
        ∃ c₃, Proceeds b c₂ c₃ ∧ BackWith b c c₃ c₂.ebx ∧ c₃.env.parked = c₂.env.parked ∧
          ∀ esp, ∃ esp', halt b.L b.img b.loc esp c₂.ebx c₂.env.kernel =
            some (.returned c₂.ebx esp', c₃.env.kernel) := by
  obtain ⟨c₁, hgo, hin, henv⟩ := execute_proceeds hpc hnum hpid hcmd hexec
  refine ⟨c₁, hgo, hin, by rw [henv], ?_⟩
  intro c₂ hpc₂ hnum₂ hold hpid₂ hparent hparked
  have hstack : c₂.env.parked c₂.env.kernel.currentPcb.parent = callFrame c := by
    rw [hparent, hparked, henv]
    exact Function.update_self ..
  obtain ⟨d, hd, hra, hs, heax, henv₂⟩ := halt_proceeds (b := b) hpc₂ hnum₂ hpid₂ hold
    (by rw [hparent]; exact hpid) hstack
  obtain ⟨c₃, hc₃, hback, henv₃⟩ := proceeds_unsave (b := b) hra hs
  rw [henv₂] at henv₃
  refine ⟨c₃, hd.trans hc₃, heax ▸ hback, by rw [henv₃], ?_⟩
  intro esp
  unfold halt
  dsimp only
  rw [freeCurrentPcb_current, if_neg (by omega), freeCurrentPcb_parent, henv₃]
  exact ⟨_, rfl⟩

/-- The shells of the three terminals, the third with "a" at the start of its page. -/
def threeShells : Kernel :=
  let k := newProcess someLayout 3 (newProcess someLayout 2 (newProcess someLayout 1 .zero))
  { k with ram := store k.ram (userPhys 3 0x08000000) 0x61 }

/-- The third shell runs "a", which halts at once with 42: `execute` returns 42. -/
theorem execute_returns_forty_two : ∃ c₁ c₃ : Asm.Cpu Env,
    Proceeds someBoundary (calling 0 2 0x08000000 ⟨threeShells, fun _ => []⟩) c₁ ∧
    Entering someBoundary c₁ 0x40 (callFrame (calling 0 2 0x08000000 ⟨threeShells, fun _ => []⟩)) ∧
    Proceeds someBoundary (calling 0 1 42 c₁.env) c₃ ∧
    BackWith someBoundary (calling 0 2 0x08000000 ⟨threeShells, fun _ => []⟩) c₃ 42 := by
  have hstring : someBoundary.stringAt threeShells 0x08000000 = some [0x61] := by decide +kernel
  have hn : HeaderOf (oneFile [0x61] (headerOnly 0x40)) someLocals [0x61] 0 :=
    ⟨0, by decide, by decide, by decide, by decide⟩
  have hfit : BodyFits (oneFile [0x61] (headerOnly 0x40)) 0 := by
    unfold BodyFits
    decide
  have hfree : FirstFree (procs threeShells).present 4 := by
    refine ⟨by decide, by decide, by decide, ?_⟩
    intro m h1 h2
    obtain rfl | rfl | rfl : m = 1 ∨ m = 2 ∨ m = 3 := by omega
    all_goals decide
  generalize hc : calling 0 2 0x08000000 ⟨threeShells, fun _ => []⟩ = c
  have hkernel : c.env.kernel = threeShells := by rw [← hc]; rfl
  have hebx : c.ebx = 0x08000000 := by rw [← hc]; rfl
  rcases execute_spec someLayout (oneFile [0x61] (headerOnly 0x40)) someLocals
    (someBoundary.espOf (callFrame c)) 0x08000000 [0x61] threeShells
    with ⟨hptr, -⟩ | ⟨-, r, k, hexec, hout⟩
  · exact absurd hptr (by decide)
  · obtain ⟨hview, hr⟩ := hout.of_loads hn hfit hfree
    rw [if_neg (by decide)] at hr
    subst hr
    obtain ⟨c₁, hgo, hin, hk, hrest⟩ := execute_returns_what_halt_passed
      (b := someBoundary) (c := c)
      (by rw [← hc]; rfl) (by rw [← hc]; rfl) (by rw [hkernel]; decide)
      (by rw [hkernel, hebx]; exact hstring) (by rw [hkernel, hebx]; exact hexec)
    -- the new process is the fourth, and a child of the third
    have hcur : c₁.env.kernel.task.currentProcess = 4 := by
      rw [hk]
      exact congrArg ProcView.current hview
    have hparent : c₁.env.kernel.currentPcb.parent = 3 := by
      unfold Kernel.currentPcb
      rw [hcur, hk]
      exact congrFun (congrArg ProcView.parent hview) 4
    obtain ⟨c₃, hgo₃, hback, -⟩ := hrest (calling 0 1 42 c₁.env) rfl rfl
      (by show 4 ≤ c₁.env.kernel.task.currentProcess; omega)
      (by show c₁.env.kernel.task.currentProcess < _; omega)
      (by rw [hkernel]; exact hparent) rfl
    exact ⟨c₁, c₃, hgo, hin, hgo₃, hback⟩

/-! ## The timer -/

/-- The stack of a process that the timer took the processor from. -/
def taskFrame (c : Asm.Cpu Env) : List Slot :=
  .word c.edi :: .word c.esi :: .word c.ebp :: .esp :: .word c.ebx :: .word c.edx :: .word c.ecx ::
    .word c.eax :: c.stack

/-- At an `iret` with all the registers of `c`, and interrupts on. -/
structure Resumes (b : Boundary) (c c' : Asm.Cpu Env) : Prop where
  iret : (entryCode b.shell)[c'.pc]? = some .iret
  eax : c'.eax = c.eax
  regs : SameRegisters c c'
  stack : c'.stack = c.stack
  interrupts : c'.eflags &&& flagIf = flagIf

theorem toNat_ofNat_of_lt {n : Nat} (h : n < 4294967296) : (BitVec.ofNat 32 n).toNat = n := by
  rw [BitVec.toNat_ofNat]
  omega

set_option maxRecDepth 4096 in
theorem place_launchTaskShell (shell : Word) :
    place (entryCode shell) .launchTaskShell = 175 := rfl

set_option maxRecDepth 4096 in
theorem place_switching (shell : Word) : place (entryCode shell) .switching = 165 := rfl

/-- The kernel as `next_task` leaves the interrupted process: saved, and the next one active. -/
def onNext (esp : Nat) (k : Kernel) : Kernel :=
  incrCurrentActiveProcess (saveEsp k.task.currentProcess esp (saveQueue k))

/-- The first half of `next_task`: the registers on the stack, the stack into the PCB. -/
theorem tick_saves {c : Asm.Cpu Env} (hpc : c.pc = 150) {k : Kernel} {parked : Nat → List Slot}
    (henv : c.env = ⟨k, parked⟩) (hpid : k.task.currentProcess < 4294967296)
    (hnext : getNextTaskPid (saveQueue k) < 4294967296) :
    ∃ d x, Proceeds b c (inside d (if getNextTaskPid (saveQueue k) = 0 then 175 else 165) x
      (taskFrame c) ⟨onNext (b.espOf (taskFrame c)) k,
        Function.update parked k.task.currentProcess (taskFrame c)⟩) := by
  -- `cli` comes first: what follows runs with the interrupts off
  let d : Asm.Cpu Env := { c with eflags := c.eflags &&& ~~~flagIf }
  have h1 : Proceeds b c (inside d 154 (scratchOf c) (.word 0 :: taskFrame c) ⟨k, parked⟩) := by
    have hinside : c = inside c 150 (scratchOf c) c.stack ⟨k, parked⟩ := by
      rw [← hpc, ← henv]
      rfl
    rw [hinside]
    exact ⟨4, rfl⟩
  have heoi : (entryCode b.shell)[154]? = some (.call .sendEoi) := rfl
  obtain ⟨x₁, -, h2⟩ := inside_call (d := d) (x := scratchOf c) (e := ⟨k, parked⟩) heoi
    (show b.call k .sendEoi (.word 0 :: taskFrame c) = _ from rfl)
  have h3 : Proceeds b (inside d 155 x₁ (.word 0 :: taskFrame c) ⟨k, parked⟩)
      (inside d 156 x₁ (taskFrame c) ⟨k, parked⟩) := ⟨1, rfl⟩
  have hsave : (entryCode b.shell)[156]? = some (.call .saveQueue) := rfl
  obtain ⟨x₂, -, h4⟩ := inside_call (d := d) (x := x₁) (s := taskFrame c) (e := ⟨k, parked⟩) hsave
    (show b.call k .saveQueue (taskFrame c) = _ from rfl)
  -- `movl %esp, (%eax)`: the PCB is the one of the process that is running
  have hpcb : (entryCode b.shell)[157]? = some (.call .getCurrentPcb) := rfl
  obtain ⟨x₃, hx₃, h5⟩ := inside_call (d := d) (x := x₂) (s := taskFrame c)
    (e := ⟨saveQueue k, parked⟩) hpcb
    (show b.call (saveQueue k) .getCurrentPcb (taskFrame c) = _ from rfl)
  have h6 : Proceeds b (inside d 158 x₃ (taskFrame c) ⟨saveQueue k, parked⟩)
      (inside d 159 x₃ (taskFrame c)
        ⟨saveEsp x₃.eax.toNat (b.espOf (taskFrame c)) (saveQueue k),
          Function.update parked x₃.eax.toNat (taskFrame c)⟩) := ⟨1, rfl⟩
  have hcur : (saveQueue k).task.currentProcess = k.task.currentProcess := rfl
  rw [hx₃ _ rfl, hcur, toNat_ofNat_of_lt hpid] at h6
  unfold onNext
  generalize hk : saveEsp k.task.currentProcess (b.espOf (taskFrame c)) (saveQueue k) = k₂ at h6 ⊢
  have hnext₂ : getNextTaskPid k₂ = getNextTaskPid (saveQueue k) := by rw [← hk]; rfl
  generalize Function.update parked k.task.currentProcess (taskFrame c) = parked' at h6 ⊢
  -- the next pid is on the stack while the count goes up
  have hget : (entryCode b.shell)[159]? = some (.call .getNextTaskPid) := rfl
  obtain ⟨x₄, hx₄, h7⟩ := inside_call (d := d) (x := x₃) (s := taskFrame c)
    (e := ⟨k₂, parked'⟩) hget
    (show b.call k₂ .getNextTaskPid (taskFrame c) = _ from rfl)
  have h8 : Proceeds b (inside d 160 x₄ (taskFrame c) ⟨k₂, parked'⟩)
      (inside d 161 x₄ (.word x₄.eax :: taskFrame c) ⟨k₂, parked'⟩) := ⟨1, rfl⟩
  rw [hx₄ _ rfl, hnext₂] at h8
  have hincr : (entryCode b.shell)[161]? = some (.call .incrCurrentActiveProcess) := rfl
  obtain ⟨x₅, -, h9⟩ := inside_call (d := d) (x := x₄)
    (s := .word (BitVec.ofNat 32 (getNextTaskPid (saveQueue k))) :: taskFrame c)
    (e := ⟨k₂, parked'⟩) hincr (show b.call k₂ .incrCurrentActiveProcess _ = _ from rfl)
  have h10 : ∀ w e, Proceeds b (inside d 162 x₅ (.word w :: taskFrame c) e)
      (inside d 164 { x₅ with eax := w, cf := decide (w < 0), zf := decide (w = 0) }
        (taskFrame c) e) :=
    fun w e => ⟨2, rfl⟩
  have hjz : (entryCode b.shell)[164]? = some (.jz .launchTaskShell) := rfl
  have hgo := h1.trans (h2.trans (h3.trans (h4.trans (h5.trans (h6.trans (h7.trans (h8.trans
    (h9.trans ((h10 _ _).trans (inside_jz hjz))))))))))
  have hzero : decide (BitVec.ofNat 32 (getNextTaskPid (saveQueue k)) = 0) =
      decide (getNextTaskPid (saveQueue k) = 0) := by
    rw [decide_eq_decide, ← BitVec.toNat_inj, toNat_ofNat_of_lt hnext,
      show (0 : Word).toNat = 0 from rfl]
  dsimp only at hgo
  rw [hzero, place_launchTaskShell] at hgo
  simp only [decide_eq_true_eq] at hgo
  exact ⟨d, _, hgo⟩

theorem launched_eq {res : Option (Exec × Kernel)} {k : Kernel} (h : launched res = some k) :
    ∃ entry, res = some (.entered entry, k) := by
  unfold launched at h
  split at h
  case h_1 entry k =>
    cases h
    exact ⟨entry, rfl⟩
  case h_2 => cases h

/-- Where the next terminal has no process, its shell is launched on the stack it finds. -/
theorem taskShell_enters {d : Asm.Cpu Env} {x : Scratch} {s : List Slot} {k k₁ : Kernel}
    (parked : Nat → List Slot) (hpid : k.task.currentProcess < 4294967296)
    (h : launched (launchNewShell b.L b.img b.loc (b.espOf s) k) = some k₁) :
    ∃ c' entry, Proceeds b (inside d 175 x s ⟨k, parked⟩) c' ∧ Entering b c' entry s ∧
      c'.env = ⟨k₁, Function.update parked k.task.currentProcess s⟩ := by
  obtain ⟨entry, hlaunch⟩ := launched_eq h
  unfold launchNewShell at hlaunch
  obtain ⟨v, k₂, hload, hcase⟩ := enter_cases hlaunch (by simp)
  rcases hcase with ⟨-, hr, -⟩ | ⟨hv, hr, rfl⟩
  · cases hr
  · cases hr
    let d' : Asm.Cpu Env := { d with ebx := b.shell }
    have h1 : Proceeds b (inside d 175 x s ⟨k, parked⟩) (inside d' 71 x s ⟨k, parked⟩) := ⟨4, rfl⟩
    have hcall : b.call k .kloadExecToMem (.word b.shell :: s) = some (some entry, k₂) := by
      have hshell : b.stringAt k b.shell = some execstring := if_pos rfl
      rw [Boundary.call, hshell, Option.bind_some, hload]
      rfl
    obtain ⟨c', hgo, hin, henv⟩ := enter_enters (b := b) (d := d') (x := x)
      (e := ⟨k, parked⟩) (.inr ⟨rfl, rfl⟩) hpid hcall hv
    exact ⟨c', entry, h1.trans hgo, hin, henv⟩

/-- The second half: the next task's stack, and its registers from it. -/
theorem tick_switches {d c₀ : Asm.Cpu Env} {x : Scratch} {s : List Slot} {k : Kernel}
    {parked : Nat → List Slot} (hpid : getCurrentTaskPid k < 4294967296)
    (hframe : parked (getCurrentTaskPid k) = taskFrame c₀) :
    ∃ c', Proceeds b (inside d 165 x s ⟨k, parked⟩) c' ∧ Resumes b c₀ c' ∧
      c'.env = ⟨switchContext (getCurrentTaskPid k) k, parked⟩ := by
  have h1 : Proceeds b (inside d 165 x s ⟨k, parked⟩) (inside d 166 x s ⟨k, parked⟩) := ⟨1, rfl⟩
  have hget : (entryCode b.shell)[166]? = some (.call .getCurrentTaskPid) := rfl
  obtain ⟨x₁, hx₁, h2⟩ := inside_call (d := d) (x := x) (s := s) (e := ⟨k, parked⟩) hget
    (show b.call k .getCurrentTaskPid s = _ from rfl)
  have h3 : Proceeds b (inside d 167 x₁ s ⟨k, parked⟩)
      (inside d 168 x₁ (.word x₁.eax :: s) ⟨k, parked⟩) := ⟨1, rfl⟩
  rw [hx₁ _ rfl] at h3
  have hswitch : (entryCode b.shell)[168]? = some (.call .switchContext) := rfl
  obtain ⟨x₂, -, h4⟩ := inside_call (d := d) (x := x₁) (e := ⟨k, parked⟩) hswitch
    (show b.call k .switchContext (.word (BitVec.ofNat 32 (getCurrentTaskPid k)) :: s) = _ from rfl)
  rw [toNat_ofNat_of_lt hpid] at h4
  generalize hk : switchContext (getCurrentTaskPid k) k = k' at h4 ⊢
  have hcur : k'.task.currentProcess = getCurrentTaskPid k := by
    rw [← hk]
    rfl
  have h5 : ∀ w, Proceeds b (inside d 169 x₂ (.word w :: s) ⟨k', parked⟩)
      (inside d 170 x₂ s ⟨k', parked⟩) := fun w => ⟨1, rfl⟩
  -- after the switch, the current PCB is that of the next task: its stack comes back
  have hpcb : (entryCode b.shell)[170]? = some (.call .getCurrentPcb) := rfl
  obtain ⟨x₃, hx₃, h6⟩ := inside_call (d := d) (x := x₂) (s := s) (e := ⟨k', parked⟩) hpcb
    (show b.call k' .getCurrentPcb s = _ from rfl)
  have h7 : Proceeds b (inside d 171 x₃ s ⟨k', parked⟩)
      (inside d 172 x₃ (parked x₃.eax.toNat) ⟨k', parked⟩) := ⟨1, rfl⟩
  rw [hx₃ _ rfl, hcur, toNat_ofNat_of_lt hpid, hframe] at h7
  have h8 : Proceeds b (inside d 172 x₃ (taskFrame c₀) ⟨k', parked⟩)
      ⟨174, c₀.eax, c₀.ebx, c₀.ecx, c₀.edx, c₀.esi, c₀.edi, c₀.ebp, x₃.cf, x₃.zf,
        d.eflags ||| flagIf, c₀.stack, ⟨k', parked⟩⟩ := ⟨2, rfl⟩
  refine ⟨_, h1.trans (h2.trans (h3.trans (h4.trans ((h5 _).trans (h6.trans (h7.trans h8)))))),
    ⟨rfl, rfl, ⟨rfl, rfl, rfl, rfl, rfl, rfl⟩, rfl, ?_⟩, rfl⟩
  show (d.eflags ||| flagIf) &&& flagIf = flagIf
  refine BitVec.eq_of_getLsbD_eq ?_
  intro i _
  rw [BitVec.getLsbD_and, BitVec.getLsbD_or]
  cases d.eflags.getLsbD i
  · rw [Bool.false_or, Bool.and_self]
  · rw [Bool.true_or, Bool.true_and]

/-- The end of a tick: in a shell that was launched, or on the way to a task that waits. -/
def TickEnds (b : Boundary) (c c₁ : Asm.Cpu Env) (k₁ : Kernel) : Prop :=
  if getNextTaskPid (saveQueue c.env.kernel) = 0 then
    (∃ entry, Entering b c₁ entry (taskFrame c)) ∧ c₁.env.kernel = k₁
  else
    c₁.pc = place (entryCode b.shell) .switching + 1 ∧
      k₁ = switchContext (getCurrentTaskPid c₁.env.kernel) c₁.env.kernel

/-- A tick keeps what it interrupts. -/
theorem tick_parks {c : Asm.Cpu Env} (hpc : c.pc = place (entryCode b.shell) .nextTask)
    (hpid : c.env.kernel.task.currentProcess < 4294967296)
    (hnext : getNextTaskPid (saveQueue c.env.kernel) < 4294967296) {k₁ : Kernel}
    (htick : nextTask b.L b.img b.loc (b.espOf (taskFrame c)) c.env.kernel = some k₁) :
    ∃ c₁, Proceeds b c c₁ ∧ TickEnds b c c₁ k₁ ∧
      c₁.env.parked c.env.kernel.task.currentProcess = taskFrame c := by
  obtain ⟨d, x, hsaves⟩ := tick_saves (b := b) hpc rfl hpid hnext
  by_cases hzero : getNextTaskPid (saveQueue c.env.kernel) = 0
  · have hlaunch : launched (launchNewShell b.L b.img b.loc (b.espOf (taskFrame c))
        (onNext (b.espOf (taskFrame c)) c.env.kernel)) = some k₁ := by
      rw [← htick]
      exact (if_pos hzero).symm
    rw [if_pos hzero] at hsaves
    have hcur : (onNext (b.espOf (taskFrame c)) c.env.kernel).task.currentProcess =
      c.env.kernel.task.currentProcess := rfl
    obtain ⟨c₁, entry, hgo, hin, henv⟩ := taskShell_enters (b := b) (d := d) (x := x)
      (Function.update c.env.parked c.env.kernel.task.currentProcess (taskFrame c))
      (by rw [hcur]; exact hpid) hlaunch
    have hends : TickEnds b c c₁ k₁ := by
      rw [TickEnds, if_pos hzero, henv]
      exact ⟨⟨entry, hin⟩, rfl⟩
    refine ⟨c₁, hsaves.trans hgo, hends, ?_⟩
    rw [henv]
    exact Function.update_self ..
  · have hswitch : some (switchContext
        (getCurrentTaskPid (onNext (b.espOf (taskFrame c)) c.env.kernel))
        (onNext (b.espOf (taskFrame c)) c.env.kernel)) = some k₁ := by
      rw [← htick]
      exact (if_neg hzero).symm
    rw [if_neg hzero] at hsaves
    have hlabel : ∀ e,
        Proceeds b (inside d 165 x (taskFrame c) e) (inside d 166 x (taskFrame c) e) :=
      fun e => ⟨1, rfl⟩
    refine ⟨_, hsaves.trans (hlabel _), ?_, Function.update_self ..⟩
    rw [TickEnds, if_neg hzero, place_switching]
    exact ⟨rfl, (Option.some.inj hswitch).symm⟩

/--
**The timer is not seen by the program it interrupts.** When `next_task` takes the processor
from a program, it keeps the registers and the stack of the program in its PCB, whether it
goes on with another task or launches the first shell of a terminal. Whatever happens then,
as long as what was kept is not touched: the `next_task` that comes back to the program
gives it all of its registers and its stack as they were, with interrupts on, and leaves the
kernel as the model of `next_task` has it.
-/
theorem preempted_program_resumes {c : Asm.Cpu Env}
    (hpc : c.pc = place (entryCode b.shell) .nextTask)
    (hpid : c.env.kernel.task.currentProcess < 4294967296)
    (hnext : getNextTaskPid (saveQueue c.env.kernel) < 4294967296) {k₁ : Kernel}
    (htick : nextTask b.L b.img b.loc (b.espOf (taskFrame c)) c.env.kernel = some k₁) :
    ∃ c₁, Proceeds b c c₁ ∧ TickEnds b c c₁ k₁ ∧
      c₁.env.parked c.env.kernel.task.currentProcess = taskFrame c ∧
      ∀ c₂ : Asm.Cpu Env, c₂.pc = place (entryCode b.shell) .nextTask →
        c₂.env.kernel.task.currentProcess < 4294967296 →
        c₂.env.kernel.task.currentProcess ≠ c.env.kernel.task.currentProcess →
        c₂.env.parked c.env.kernel.task.currentProcess =
          c₁.env.parked c.env.kernel.task.currentProcess →
        getNextTaskPid (saveQueue c₂.env.kernel) = c.env.kernel.task.currentProcess →
        c.env.kernel.task.currentProcess ≠ 0 →
        ∃ c₃, Proceeds b c₂ c₃ ∧ Resumes b c c₃ ∧
          c₃.env.kernel.task.currentProcess = c.env.kernel.task.currentProcess ∧
          nextTask b.L b.img b.loc (b.espOf (taskFrame c₂)) c₂.env.kernel = some c₃.env.kernel := by
  obtain ⟨c₁, hparks, hends, hkept⟩ := tick_parks hpc hpid hnext htick
  refine ⟨c₁, hparks, hends, hkept, ?_⟩
  intro c₂ hpc₂ hpid₂ hother hparked hback hpos
  obtain ⟨d₂, x₂, hsaves₂⟩ := tick_saves (b := b) hpc₂ rfl hpid₂ (by rw [hback]; exact hpid)
  rw [hback, if_neg hpos] at hsaves₂
  have htask : getCurrentTaskPid (onNext (b.espOf (taskFrame c₂)) c₂.env.kernel) =
      c.env.kernel.task.currentProcess := by
    rw [← hback]
    rfl
  have hframe : Function.update c₂.env.parked c₂.env.kernel.task.currentProcess (taskFrame c₂)
      (getCurrentTaskPid (onNext (b.espOf (taskFrame c₂)) c₂.env.kernel)) = taskFrame c := by
    rw [htask, Function.update_of_ne (Ne.symm hother), hparked]
    exact hkept
  obtain ⟨c₃, hc₃, hres, henv⟩ := tick_switches (b := b) (d := d₂) (x := x₂) (s := taskFrame c₂)
    (by rw [htask]; exact hpid) hframe
  refine ⟨c₃, hsaves₂.trans hc₃, hres, by rw [henv]; exact htask, ?_⟩
  rw [henv]
  have hne : getNextTaskPid (saveQueue c₂.env.kernel) ≠ 0 := by rw [hback]; exact hpos
  exact if_neg hne

/-- Three shells, of which the one of terminal `t` is running. -/
def atTerminal (t : Term) : Kernel :=
  { threeShells with task := { threeShells.task with
      processes := fun t => t.val + 1
      currentProcess := t.val + 1
      currentActiveProcess := t } }

/-- The first shell is interrupted; when the third one is, the first goes on. -/
theorem first_shell_resumes : ∃ c₁ c₃ : Asm.Cpu Env,
    Proceeds someBoundary (calling 150 5 6 ⟨atTerminal 0, fun _ => []⟩) c₁ ∧
    Proceeds someBoundary (calling 150 7 8 ⟨atTerminal 2, c₁.env.parked⟩) c₃ ∧
    Resumes someBoundary (calling 150 5 6 ⟨atTerminal 0, fun _ => []⟩) c₃ := by
  obtain ⟨c₁, hgo, -, -, hrest⟩ := preempted_program_resumes (b := someBoundary)
    (c := calling 150 5 6 ⟨atTerminal 0, fun _ => []⟩) rfl (by decide) (by decide) rfl
  have hpid : (atTerminal 2).task.currentProcess < 4294967296 := by decide
  have hother : (atTerminal 2).task.currentProcess ≠ (atTerminal 0).task.currentProcess := by decide
  have hback : getNextTaskPid (saveQueue (atTerminal 2)) = (atTerminal 0).task.currentProcess := by
    decide
  obtain ⟨c₃, hgo₃, hres, -⟩ := hrest (calling 150 7 8 ⟨atTerminal 2, c₁.env.parked⟩) rfl hpid
    hother rfl hback (by decide)
  exact ⟨c₁, c₃, hgo, hgo₃, hres⟩

end Zbiggie.Proof
