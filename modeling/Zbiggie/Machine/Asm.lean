import Zbiggie.Machine.Word

/-!
# A fragment of x86 assembly, with calls into C

Enough of the instruction set for entry code: registers are saved on a stack, a number
is checked, a table is jumped through, functions are called the way C is called, and
in the end the registers are taken off the stack again.

The stack is the list of its words, the top first. Return addresses are kept apart
from data, so that code which pops one for the other gets stuck. A C function sees the
stack it is called with, returns a value in `%eax` and may do what it likes to the
registers and flags that the calling convention does not protect; what it does besides
is its effect on a state `κ` that the assembly does not look into.
-/

namespace Zbiggie.Machine.Asm

/-- The registers, but for the stack pointer. -/
inductive Reg where
  | eax | ebx | ecx | edx | esi | edi | ebp
  deriving DecidableEq

/-- A word of the stack: data, a place in the code, or the stack pointer `pushal` saves. -/
inductive Slot where
  | word (w : Word)
  | addr (pc : Nat)
  | esp
  deriving DecidableEq

/-- Instructions, over labels `ℓ` and names of C functions `φ`. -/
inductive Instr (ℓ φ : Type) where
  | label (l : ℓ)
  /-- `pushl %r` -/
  | pushl (r : Reg)
  /-- `pushl $w` -/
  | pushi (w : Word)
  /-- `pushl off(%r)` -/
  | pushField (off : Nat) (r : Reg)
  | popl (r : Reg)
  | pushal
  | popal
  | pushf
  /-- `addl $(4 * n), %esp` -/
  | addEsp (n : Nat)
  | decl (r : Reg)
  /-- `subl $w, %r` -/
  | subl (w : Word) (r : Reg)
  /-- `orl %r, %r` -/
  | orl (r : Reg)
  /-- `orl $w, (%esp)` -/
  | orTop (w : Word)
  /-- `cmpl $w, %r` -/
  | cmpl (w : Word) (r : Reg)
  | ja (l : ℓ)
  | jb (l : ℓ)
  | jz (l : ℓ)
  | jmp (l : ℓ)
  /-- `call *table(, %r, 4)` -/
  | callTable (table : List ℓ) (r : Reg)
  /-- `call f`, of a C function -/
  | call (f : φ)
  /-- `movl %src, %dst` -/
  | movl (src dst : Reg)
  /-- `movl $w, %r` -/
  | movi (w : Word) (r : Reg)
  /-- `movl %esp, (%r)` -/
  | saveEsp (r : Reg)
  /-- `movl (%r), %esp` -/
  | loadEsp (r : Reg)
  | cli
  | sti
  | ret
  | iret

/-- What a C function leaves in the places it need not restore. -/
structure Scratch where
  eax : Word
  ecx : Word
  edx : Word
  cf : Bool
  zf : Bool

/-- What the code is linked with. A function that returns nothing leaves its `%eax` too. -/
structure Linkage (φ κ : Type) where
  call : φ → List Slot → κ → Option (Option Word × κ)
  scratch : φ → κ → Scratch
  /-- The stack pointer a record holds in its first word, as the stack it points to. -/
  stackOf : Word → κ → List Slot
  setStack : Word → List Slot → κ → κ
  /-- Another word of a record. -/
  field : Word → Nat → κ → Word

/-- The processor, and the state that C works on. -/
structure Cpu (κ : Type) where
  pc : Nat
  eax : Word
  ebx : Word
  ecx : Word
  edx : Word
  esi : Word
  edi : Word
  ebp : Word
  cf : Bool
  zf : Bool
  /-- The flags other than carry and zero. -/
  eflags : Word
  stack : List Slot
  env : κ

variable {ℓ φ κ : Type} [DecidableEq ℓ]

namespace Cpu

def get (c : Cpu κ) : Reg → Word
  | .eax => c.eax
  | .ebx => c.ebx
  | .ecx => c.ecx
  | .edx => c.edx
  | .esi => c.esi
  | .edi => c.edi
  | .ebp => c.ebp

def set (c : Cpu κ) (w : Word) : Reg → Cpu κ
  | .eax => { c with eax := w }
  | .ebx => { c with ebx := w }
  | .ecx => { c with ecx := w }
  | .edx => { c with edx := w }
  | .esi => { c with esi := w }
  | .edi => { c with edi := w }
  | .ebp => { c with ebp := w }

/-- On to the next instruction. -/
def next (c : Cpu κ) : Cpu κ := { c with pc := c.pc + 1 }

def push (c : Cpu κ) (s : Slot) : Cpu κ := { c with stack := s :: c.stack }

/-- The flags as one word: carry is bit 0 and zero is bit 6. -/
def flags (c : Cpu κ) : Word :=
  (c.eflags &&& ~~~0x41) ||| (if c.cf then 1 else 0) ||| (if c.zf then 0x40 else 0)

end Cpu

/-- The interrupt flag. -/
def flagIf : Word := 0x200

/-- Whether the instruction is this label. -/
def Instr.isLabel (l : ℓ) : Instr ℓ φ → Bool
  | .label l' => l = l'
  | _ => false

/-- The place of a label. -/
def place (code : List (Instr ℓ φ)) (l : ℓ) : Nat := code.findIdx (Instr.isLabel l)

/-- Go to a label, or on. -/
def branch (code : List (Instr ℓ φ)) (taken : Bool) (l : ℓ) (c : Cpu κ) : Cpu κ :=
  if taken then { c with pc := place code l } else c.next

/-- What an instruction does. Nothing follows an `iret` here: it leaves the code. -/
def exec (code : List (Instr ℓ φ)) (link : Linkage φ κ) (c : Cpu κ) : Instr ℓ φ → Option (Cpu κ)
  | .label _ => some c.next
  | .pushl r => some (c.push (.word (c.get r))).next
  | .pushi w => some (c.push (.word w)).next
  | .pushField off r => some (c.push (.word (link.field (c.get r) off c.env))).next
  | .popl r =>
      match c.stack with
      | .word w :: s => some ({ c with stack := s }.set w r).next
      | _ => none
  | .pushal =>
      some { c with
        stack := .word c.edi :: .word c.esi :: .word c.ebp :: .esp :: .word c.ebx :: .word c.edx ::
          .word c.ecx :: .word c.eax :: c.stack }.next
  | .popal =>
      match c.stack with
      | .word edi :: .word esi :: .word ebp :: _ :: .word ebx :: .word edx :: .word ecx ::
          .word eax :: s =>
          some { c with eax := eax, ebx := ebx, ecx := ecx, edx := edx, esi := esi, edi := edi,
                        ebp := ebp, stack := s }.next
      | _ => none
  | .pushf => some (c.push (.word c.flags)).next
  | .addEsp n => some { c with stack := c.stack.drop n }.next
  | .decl r => some { c.set (c.get r - 1) r with zf := c.get r - 1 = 0 }.next
  | .subl w r => some { c.set (c.get r - w) r with cf := c.get r < w, zf := c.get r - w = 0 }.next
  | .orl r => some { c with cf := false, zf := c.get r = 0 }.next
  | .orTop w =>
      match c.stack with
      | .word v :: s =>
          some { c with stack := .word (v ||| w) :: s, cf := false, zf := v ||| w = 0 }.next
      | _ => none
  | .cmpl w r => some { c with cf := c.get r < w, zf := c.get r = w }.next
  | .ja l => some (branch code (!c.cf && !c.zf) l c)
  | .jb l => some (branch code c.cf l c)
  | .jz l => some (branch code c.zf l c)
  | .jmp l => some (branch code true l c)
  | .callTable table r =>
      match table[(c.get r).toNat]? with
      | none => none
      | some l => some { c with pc := place code l, stack := .addr (c.pc + 1) :: c.stack }
  | .call f =>
      match link.call f c.stack c.env with
      | none => none
      | some (v, env) =>
          let x := link.scratch f c.env
          some { c with eax := v.getD x.eax, ecx := x.ecx, edx := x.edx, cf := x.cf, zf := x.zf,
                        env := env }.next
  | .movl src dst => some (c.set (c.get src) dst).next
  | .movi w r => some (c.set w r).next
  | .saveEsp r => some { c with env := link.setStack (c.get r) c.stack c.env }.next
  | .loadEsp r => some { c with stack := link.stackOf (c.get r) c.env }.next
  | .cli => some { c with eflags := c.eflags &&& ~~~flagIf }.next
  | .sti => some { c with eflags := c.eflags ||| flagIf }.next
  | .ret =>
      match c.stack with
      | .addr pc :: s => some { c with pc := pc, stack := s }
      | _ => none
  | .iret => none

/-- One instruction. -/
def step (code : List (Instr ℓ φ)) (link : Linkage φ κ) (c : Cpu κ) : Option (Cpu κ) :=
  match code[c.pc]? with
  | none => none
  | some i => exec code link c i

/-- The instructions up to and including the `n`-th from here, one after the other. -/
def steps (code : List (Instr ℓ φ)) (link : Linkage φ κ) : Nat → Cpu κ → Option (Cpu κ)
  | 0, c => some c
  | n + 1, c => (step code link c).bind (steps code link n)

/-- The code leads from one state to another. -/
def Leads (code : List (Instr ℓ φ)) (link : Linkage φ κ) (c c' : Cpu κ) : Prop :=
  ∃ n, steps code link n c = some c'

theorem steps_add (code : List (Instr ℓ φ)) (link : Linkage φ κ) (m n : Nat) (c : Cpu κ) :
    steps code link (m + n) c = (steps code link m c).bind (steps code link n) := by
  induction m generalizing c with
  | zero => rw [Nat.zero_add]; rfl
  | succ m ih =>
      rw [Nat.succ_add, steps, steps]
      cases step code link c with
      | none => rfl
      | some c' => exact ih c'

theorem Leads.refl {code : List (Instr ℓ φ)} {link : Linkage φ κ} (c : Cpu κ) :
    Leads code link c c :=
  ⟨0, rfl⟩

theorem Leads.trans {code : List (Instr ℓ φ)} {link : Linkage φ κ} {c c' c'' : Cpu κ}
    (h : Leads code link c c') (h' : Leads code link c' c'') : Leads code link c c'' := by
  obtain ⟨m, hm⟩ := h
  obtain ⟨n, hn⟩ := h'
  exact ⟨m + n, by rw [steps_add, hm]; exact hn⟩

/-- A jump whose condition is known. -/
theorem Leads.jump {code : List (Instr ℓ φ)} {link : Linkage φ κ} {c : Cpu κ} {l : ℓ} {t z : Bool}
    (h : step code link c = some (branch code t l c)) (hz : t = z) :
    Leads code link c (branch code z l c) := by
  subst hz
  exact ⟨1, by rw [steps, h]; rfl⟩

/-- A call through a table, of an entry that is there. -/
theorem Leads.callTable {code : List (Instr ℓ φ)} {link : Linkage φ κ} {c : Cpu κ} {l : ℓ}
    {table : List ℓ} {r : Reg} (h : code[c.pc]? = some (.callTable table r))
    (hl : table[(c.get r).toNat]? = some l) :
    Leads code link c { c with pc := place code l, stack := .addr (c.pc + 1) :: c.stack } :=
  ⟨1, by rw [steps, step, h]; simp only [exec, hl]; rfl⟩

/-- A call of a C function, of which it is known what it does. -/
theorem Leads.call {code : List (Instr ℓ φ)} {link : Linkage φ κ} {c : Cpu κ} {f : φ}
    {v : Option Word} {e : κ} (h : code[c.pc]? = some (.call f))
    (hf : link.call f c.stack c.env = some (v, e)) :
    Leads code link c { c with
      pc := c.pc + 1, eax := v.getD (link.scratch f c.env).eax, ecx := (link.scratch f c.env).ecx,
      edx := (link.scratch f c.env).edx, cf := (link.scratch f c.env).cf,
      zf := (link.scratch f c.env).zf, env := e } :=
  ⟨1, by rw [steps, step, h]; simp only [exec, hf]; rfl⟩

end Zbiggie.Machine.Asm
