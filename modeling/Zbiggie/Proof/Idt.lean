import Zbiggie.Kernel.Idt

/-!
# What the processor makes of the table

The kernel writes bit fields and the processor reads gates. This file decodes the table
that `populate_idt` leaves, whatever was in it before and wherever the linker has put the
functions: which function each vector enters, with interrupts on or off, and which vectors
a program may name in an `int` of its own.
-/

namespace Zbiggie.Proof

open Zbiggie Machine

/-! ## Gates -/

inductive GateKind where
  | interrupt | trap
  deriving DecidableEq

/-- A 32-bit gate as the processor reads it. -/
structure Gate where
  present : Bool
  dpl : Nat
  kind : GateKind
  selector : Nat
  offset : Nat
  deriving DecidableEq

/-- Bits 40 to 44 say what a descriptor is: 14 an interrupt gate, 15 a trap gate. -/
def decodeGate (w : Nat) : Option Gate :=
  let gate (kind : GateKind) : Gate :=
    { present := decide (w / 2 ^ 47 % 2 = 1)
      dpl := w / 2 ^ 45 % 4
      kind := kind
      selector := w / 2 ^ 16 % 2 ^ 16
      offset := w % 2 ^ 16 + 2 ^ 16 * (w / 2 ^ 48 % 2 ^ 16) }
  if w / 2 ^ 40 % 32 = 14 then some (gate .interrupt)
  else if w / 2 ^ 40 % 32 = 15 then some (gate .trap)
  else none

/-- Where an `int` of a program at privilege level `cpl` leads, and whether interrupts stay
enabled there; a gate of a lower privilege level refuses it. -/
def softwareInt (w cpl : Nat) : Option (Nat × Bool) :=
  match decodeGate w with
  | none => none
  | some g =>
      if g.present = true ∧ cpl ≤ g.dpl then some (g.offset, decide (g.kind = .trap)) else none

/-- The address in an entry. -/
def offsetOf (d : IdtDesc) : Nat := d.offset15_00.toNat + 2 ^ 16 * d.offset31_16.toNat

theorem setEntry_offset (d : IdtDesc) (handler : Word) :
    offsetOf (d.setEntry handler) = handler.toNat := by
  have hhigh : ((handler &&& 0xFFFF0000#32) >>> 16).setWidth 16 = handler.extractLsb' 16 16 := by
    have hmask : ∀ i, i < 16 → (0xFFFF0000#32).getLsbD (16 + i) = true := by decide
    ext i hi
    rw [BitVec.getElem_setWidth, BitVec.getLsbD_ushiftRight, BitVec.getLsbD_and,
      BitVec.getElem_extractLsb', hmask i hi, Bool.and_true]
  have hlow : (handler &&& 0xFFFF#32).setWidth 16 = handler.extractLsb' 0 16 := by
    have hmask : ∀ i, i < 16 → (0xFFFF#32).getLsbD i = true := by decide
    ext i hi
    rw [BitVec.getElem_setWidth, BitVec.getLsbD_and, BitVec.getElem_extractLsb', hmask i hi,
      Bool.and_true, Nat.zero_add]
  unfold offsetOf IdtDesc.setEntry
  rw [hhigh, hlow, BitVec.extractLsb'_toNat, BitVec.extractLsb'_toNat, Nat.shiftRight_zero,
    Nat.shiftRight_eq_div_pow]
  omega

/-- The fields the processor needs to find where it looks for them. -/
structure KernelGate (d : IdtDesc) (dpl : Nat) (kind : GateKind) : Prop where
  present : d.present = 1
  dpl : d.dpl.toNat = dpl
  reserved0 : d.reserved0 = 0
  size : d.size = 1
  reserved1 : d.reserved1 = 1
  reserved2 : d.reserved2 = 1
  reserved3 : d.reserved3.toNat = if kind = .trap then 1 else 0
  segSelector : d.segSelector = kernelCs

theorem decodeGate_encode {d : IdtDesc} {dpl : Nat} {kind : GateKind} (h : KernelGate d dpl kind) :
    decodeGate d.encode = some ⟨true, dpl, kind, kernelCs.toNat, offsetOf d⟩ := by
  obtain ⟨hpresent, hdpl, h0, hsize, h1, h2, h3, hseg⟩ := h
  have hlow := d.offset15_00.isLt
  have hhigh := d.offset31_16.isLt
  have hr4 := d.reserved4.isLt
  have hdpl4 := d.dpl.isLt
  have hcs : kernelCs.toNat = 16 := rfl
  have hone : (1 : BitVec 1).toNat = 1 := rfl
  have hzero : (0 : BitVec 1).toNat = 0 := rfl
  have hw : d.encode = d.offset15_00.toNat + 2 ^ 16 * 16 + 2 ^ 32 * d.reserved4.toNat
      + 2 ^ 40 * d.reserved3.toNat + 2 ^ 41 + 2 ^ 42 + 2 ^ 43 + 2 ^ 45 * dpl + 2 ^ 47
      + 2 ^ 48 * d.offset31_16.toNat := by
    unfold IdtDesc.encode
    rw [hpresent, h0, hsize, h1, h2, hseg, hdpl, hcs, hone, hzero]
    omega
  rw [hdpl] at hdpl4
  generalize d.encode = w at hw
  have hp : w / 2 ^ 47 % 2 = 1 := by omega
  have hlevel : w / 2 ^ 45 % 4 = dpl := by omega
  have hsel : w / 2 ^ 16 % 2 ^ 16 = kernelCs.toNat := by omega
  have hoff : w % 2 ^ 16 + 2 ^ 16 * (w / 2 ^ 48 % 2 ^ 16) = offsetOf d := by
    unfold offsetOf
    omega
  unfold decodeGate
  dsimp only
  rw [hp, hlevel, hsel, hoff]
  cases kind with
  | interrupt =>
      rw [if_neg (by decide)] at h3
      rw [if_pos (by omega)]
      rfl
  | trap =>
      rw [if_pos rfl] at h3
      rw [if_neg (by omega), if_pos (by omega)]
      rfl

/-! ## The table -/

/-- The function behind a vector, if `populate_idt` sets one. -/
def vectorHandler (v : Nat) : Option Handler :=
  if v = pitIndex then some .nextTask
  else if v = keyboardIndex then some .asmKeyboard
  else if v = rtcIndex then some .asmRtc
  else if v = sysCallsIndex then some .syscall
  else if v ≥ exceptionIndex then some .commonInterrupt
  else if v = 15 then none
  else exceptionHandlers[v]?

/-- What a handler, if there is one, makes of the address in an entry. -/
def targetOf (addr : Handler → Word) (old : Nat) : Option Handler → Nat
  | some h => (addr h).toNat
  | none => old

/-- The loop goes over every entry once. -/
theorem populateLoop (addr : Handler → Word) (idt : Nat → IdtDesc) (n v : Nat) :
    forLoop n (populateEntry addr) idt v =
      if v < n then populateEntry addr v idt v else idt v := by
  refine forLoop_inv
    (P := fun n (t : Nat → IdtDesc) => t v = if v < n then populateEntry addr v idt v else idt v)
    (by rw [if_neg (Nat.not_lt_zero v)]) n ?_
  intro i t _ ih
  by_cases hv : v = i
  · subst hv
    rw [if_neg (Nat.lt_irrefl v)] at ih
    rw [if_pos (Nat.lt_succ_self v)]
    unfold populateEntry
    rw [Function.update_self, Function.update_self, ih]
  · have hkept : populateEntry addr i t v = t v := by
      unfold populateEntry
      exact Function.update_of_ne hv _ _
    rw [hkept, ih]
    by_cases hlt : v < i
    · rw [if_pos hlt, if_pos (by omega)]
    · rw [if_neg hlt, if_neg (by omega)]

/-- An interrupt gate of the kernel that leads to an address. -/
def GateTo (d : IdtDesc) (dpl : Nat) (kind : GateKind) (offset : Nat) : Prop :=
  KernelGate d dpl kind ∧ offsetOf d = offset

theorem kernelGate_gateTo (d : IdtDesc) : GateTo d.kernelGate 0 .interrupt (offsetOf d) :=
  ⟨⟨rfl, rfl, rfl, rfl, rfl, rfl, rfl, rfl⟩, rfl⟩

theorem GateTo.setEntry {d : IdtDesc} {dpl : Nat} {kind : GateKind} {old : Nat}
    (h : GateTo d dpl kind old) (handler : Word) :
    GateTo (d.setEntry handler) dpl kind handler.toNat := by
  obtain ⟨⟨h1, h2, h3, h4, h5, h6, h7, h8⟩, -⟩ := h
  exact ⟨⟨h1, h2, h3, h4, h5, h6, h7, h8⟩, setEntry_offset d handler⟩

/-- An entry as the loop leaves it: everything from 32 on is one handler's. -/
theorem populateEntry_gateTo (addr : Handler → Word) (idt : Nat → IdtDesc) (v : Nat) :
    GateTo (populateEntry addr v idt v) 0 .interrupt
      (targetOf addr (offsetOf (idt v))
        (if v ≥ exceptionIndex then some .commonInterrupt
          else if v = 15 then none else exceptionHandlers[v]?)) := by
  have hgate := kernelGate_gateTo (idt v)
  unfold populateEntry
  rw [Function.update_self]
  by_cases hge : v ≥ exceptionIndex
  · rw [if_pos hge, if_pos hge]
    exact hgate.setEntry _
  · rw [if_neg hge, if_neg hge]
    by_cases h15 : v = 15
    · rw [if_pos h15, if_pos (by omega), if_pos h15]
      exact hgate
    · by_cases hlt : v < 20
      · have hget : exceptionHandlers[v]? = some (exceptionHandlers.getD v .commonInterrupt) := by
          rw [List.getD_eq_getElem?_getD]
          have hsome : v < exceptionHandlers.length := hlt
          rw [List.getElem?_eq_getElem hsome]
          rfl
        rw [if_pos hlt, if_neg h15, if_neg h15, hget]
        exact hgate.setEntry _
      · rw [if_neg hlt, if_neg h15, List.getElem?_eq_none (Nat.le_of_not_lt hlt)]
        exact hgate

theorem setVector_gateTo {idt : Nat → IdtDesc} {v : Nat} {dpl : Nat} {kind : GateKind} {old : Nat}
    (h : GateTo (idt v) dpl kind old) (i : Nat) (handler : Word) :
    GateTo (setVector idt i handler v) dpl kind (if v = i then handler.toNat else old) := by
  unfold setVector
  by_cases hv : v = i
  · subst hv
    rw [Function.update_self, if_pos rfl]
    exact h.setEntry handler
  · rw [Function.update_of_ne hv, if_neg hv]
    exact h

/-- The system call's gate is opened to programs. -/
theorem GateTo.opened {idt : Nat → IdtDesc} {v old : Nat} (h : GateTo (idt v) 0 .interrupt old) :
    GateTo (Function.update idt sysCallsIndex
      { idt sysCallsIndex with dpl := 3, reserved3 := 1 } v)
      (if v = sysCallsIndex then 3 else 0)
      (if v = sysCallsIndex then .trap else .interrupt) old := by
  by_cases hsys : v = sysCallsIndex
  · subst hsys
    rw [Function.update_self, if_pos rfl, if_pos rfl]
    obtain ⟨⟨h1, -, h3, h4, h5, h6, -, h8⟩, hoffset⟩ := h
    exact ⟨⟨h1, rfl, h3, h4, h5, h6, rfl, h8⟩, hoffset⟩
  · rw [Function.update_of_ne hsys, if_neg hsys, if_neg hsys]
    exact h

/-- The addresses, once every vector with a handler of its own has got it. -/
theorem vectorHandler_target (addr : Handler → Word) (old v : Nat) :
    targetOf addr old (vectorHandler v) =
      if v = pitIndex then (addr .nextTask).toNat
      else if v = sysCallsIndex then (addr .syscall).toNat
      else if v = keyboardIndex then (addr .asmKeyboard).toNat
      else if v = rtcIndex then (addr .asmRtc).toNat
      else targetOf addr old
        (if v ≥ exceptionIndex then some .commonInterrupt
          else if v = 15 then none else exceptionHandlers[v]?) := by
  unfold vectorHandler
  by_cases hpit : v = pitIndex
  · rw [if_pos hpit, if_pos hpit]
    rfl
  · rw [if_neg hpit, if_neg hpit]
    by_cases hsys : v = sysCallsIndex
    · subst hsys
      rfl
    · rw [if_neg hsys, if_neg hsys]
      split
      · rfl
      · split <;> rfl

/-- The entry of every vector. -/
theorem populateIdt_gateTo (addr : Handler → Word) (idt : Nat → IdtDesc) {v : Nat}
    (hv : v < numVec) :
    GateTo (populateIdt addr idt v) (if v = sysCallsIndex then 3 else 0)
      (if v = sysCallsIndex then .trap else .interrupt)
      (targetOf addr (offsetOf (idt v)) (vectorHandler v)) := by
  have hloop := populateEntry_gateTo addr idt v
  have hround : forLoop numVec (populateEntry addr) idt v = populateEntry addr v idt v := by
    rw [populateLoop, if_pos hv]
  rw [← hround] at hloop
  unfold populateIdt
  dsimp only
  generalize forLoop numVec (populateEntry addr) idt = t at hloop
  have hset := setVector_gateTo (setVector_gateTo (setVector_gateTo hloop rtcIndex (addr .asmRtc))
    keyboardIndex (addr .asmKeyboard)) sysCallsIndex (addr .syscall)
  rw [vectorHandler_target]
  exact setVector_gateTo hset.opened pitIndex (addr .nextTask)

/--
The table after `populate_idt`. Every vector is a present 32-bit gate into the kernel's
code segment; only the system call's may be named by a program and leaves interrupts
enabled. Vector 15 and the vectors 20 to 31 keep the address they had.
-/
theorem idt_gates (addr : Handler → Word) (idt : Nat → IdtDesc) {v : Nat} (hv : v < numVec) :
    decodeGate (populateIdt addr idt v).encode =
      some ⟨true, if v = sysCallsIndex then 3 else 0,
        if v = sysCallsIndex then .trap else .interrupt, kernelCs.toNat,
        targetOf addr (offsetOf (idt v)) (vectorHandler v)⟩ ∧
      softwareInt (populateIdt addr idt v).encode 3 =
        if v = sysCallsIndex then some ((addr .syscall).toNat, true) else none := by
  obtain ⟨hgate, hoffset⟩ := populateIdt_gateTo addr idt hv
  have hdecode := decodeGate_encode hgate
  rw [hoffset] at hdecode
  refine ⟨hdecode, ?_⟩
  unfold softwareInt
  rw [hdecode]
  by_cases hsys : v = sysCallsIndex
  · subst hsys
    rfl
  · simp only [if_neg hsys]
    rw [if_neg (by decide)]

/-- The system call's gate, and one beside it, in a table that was all zero. -/
theorem idt_gates_system_call :
    softwareInt (populateIdt (fun _ => 0x00400000#32)
        (fun _ => ⟨0, 0, 0, 0, 0, 0, 0, 0, 0, 0, 0⟩) 0x80).encode 3 = some (0x00400000, true) ∧
      softwareInt (populateIdt (fun _ => 0x00400000#32)
        (fun _ => ⟨0, 0, 0, 0, 0, 0, 0, 0, 0, 0, 0⟩) 0x81).encode 3 = none :=
  ⟨(idt_gates _ _ (v := 0x80) (by decide)).2, (idt_gates _ _ (v := 0x81) (by decide)).2⟩

end Zbiggie.Proof
