import Zbiggie.Machine.Links
import Zbiggie.Machine.Word

/-!
# The blinking characters of the fish

`fish/blink.S` and the allocator of `fish/fish.c`. A character that blinks is a
`struct mp1_blink_struct`; the ones in use hang on a singly linked list through
`blink_array`, in which a zero `location` is what marks an entry as free.

A pointer to a structure is an index into the array, since the allocator hands out
nothing else. The loops over the list end only if the list does, so each takes
fuel. The structures the caller passes are given by value; the one `mp1_ioctl_find`
copies out is returned.
-/

namespace Zbiggie

open Machine

/-- An entry of `blink_array[80*25]`. -/
abbrev Slot := Fin 2000

/-- `struct mp1_blink_struct`. -/
structure BlinkStruct where
  location : BitVec 16
  onChar : Byte
  offChar : Byte
  onLength : BitVec 16
  offLength : BitVec 16
  countdown : BitVec 16
  status : BitVec 16
  next : Option Slot
  deriving DecidableEq, Repr

/-- What `ece391_memset(p, 0, sizeof *p)` leaves. -/
def BlinkStruct.zero : BlinkStruct := ⟨0, 0, 0, 0, 0, 0, 0, none⟩

/-- The program's variables, and the screen from `vmem_base_addr` on. -/
structure Fish where
  blinkArray : Slot → BlinkStruct
  mp1ListHead : Option Slot
  vmem : Mem

namespace Fish

/-- Before `main` touches the list, over whatever is on the screen. -/
def start (vmem : Mem) : Fish := ⟨fun _ => .zero, none, vmem⟩

/-- Write one structure. -/
def put (s : Fish) (i : Slot) (b : BlinkStruct) : Fish :=
  { s with blinkArray := Function.update s.blinkArray i b }

/-- The links, as the loops read them. -/
def links (s : Fish) (i : Slot) : Option Slot := (s.blinkArray i).next

/-- `mp1_poke`: the byte in `%cl` to offset `%eax` of the screen. -/
def mp1Poke (s : Fish) (eax : Nat) (cl : Byte) : Fish := { s with vmem := store s.vmem eax cl }

/-! ## The allocator -/

/-- The loop of `mp1_malloc`, with `fuel` entries to go. -/
def mallocFrom (s : Fish) : Nat → Nat → Option Slot
  | 0, _ => none
  | fuel + 1, i =>
      if h : i < 2000 then
        if (s.blinkArray ⟨i, h⟩).location = 0 then some ⟨i, h⟩ else mallocFrom s fuel (i + 1)
      else none

/-- `mp1_malloc(size)`: the first entry whose location is zero. -/
def mp1Malloc (s : Fish) : Option Slot := mallocFrom s 2000 0

/-- `mp1_free(memory)`. -/
def mp1Free (s : Fish) (i : Slot) : Fish := s.put i .zero

/-! ## The clock tick -/

/-- One round of `tasklet_loop`, at the structure `%ebx` points to. -/
def taskletRound (s : Fish) (i : Slot) : Fish :=
  let b := s.blinkArray i
  let b := { b with countdown := b.countdown - 1 }
  -- `jg next_loop`, a signed comparison
  if 0 < b.countdown.toInt then s.put i b
  else
    let eax := b.location.toNat <<< 1
    if b.status &&& 1 = 0 then
      (s.mp1Poke eax b.onChar).put i { b with countdown := b.onLength, status := b.status ^^^ 1 }
    else
      (s.mp1Poke eax b.offChar).put i { b with countdown := b.offLength, status := b.status ^^^ 1 }

/-- `mp1_rtc_tasklet`. -/
def mp1RtcTasklet (fuel : Nat) (s : Fish) : Option Fish :=
  walk links taskletRound fuel s.mp1ListHead s

/-! ## The four requests -/

/-- `mp1_find_helper`: the first structure on the list at that location, or null. -/
def mp1FindHelper (fuel : Nat) (s : Fish) (ax : BitVec 16) : Option (Option Slot) :=
  seek s.links (fun i => (s.blinkArray i).location = ax) fuel s.mp1ListHead

/-- `mp1_ioctl_add`, on the structure `arg` points to. -/
def mp1IoctlAdd (s : Fish) (arg : BlinkStruct) : Int × Fish :=
  if arg.location.toNat ≥ 80 * 25 then (-1, s)
  else
    let b := { arg with status := 1, countdown := arg.onLength }
    match s.mp1Malloc with
    | none => (-1, s)
    | some edx =>
        let s := s.put edx { b with next := s.mp1ListHead }
        let s := { s with mp1ListHead := some edx }
        (0, s.mp1Poke (b.location.toNat <<< 1) b.onChar)

/-- `movl %ecx, (%edx)`: a link written, in the head variable or in a structure. -/
def putLink (s : Fish) : Option Slot → Option Slot → Fish
  | none, v => { s with mp1ListHead := v }
  | some a, v => s.put a { s.blinkArray a with next := v }

/-- `mp1_ioctl_remove`; the helper looks at the low half of `arg` only. -/
def mp1IoctlRemove (fuel : Nat) (s : Fish) (arg : Word) : Option (Int × Fish) :=
  match mp1FindHelper fuel s (arg.setWidth 16) with
  | none => none
  | some none => some (-1, s)
  | some (some eax) =>
      match seekLink s.links s.mp1ListHead eax fuel none with
      | some (some edx) => some (0, (s.putLink edx (s.links eax)).mp1Free eax)
      | _ => none

/--
`mp1_ioctl_sync`. The test before `cmovl` leaves the sign and overflow flags clear,
so the move is never made and `%cl` keeps `off_char`.
-/
def mp1IoctlSync (fuel : Nat) (s : Fish) (arg : Word) : Option (Int × Fish) :=
  match mp1FindHelper fuel s ((arg >>> 16).setWidth 16) with
  | none => none
  | some none => some (-1, s)
  | some (some esi) =>
      match mp1FindHelper fuel s ((arg &&& 0xFFFF).setWidth 16) with
      | none => none
      | some none => some (-1, s)
      | some (some edi) =>
          let a := s.blinkArray esi
          let s := s.put edi { s.blinkArray edi with
            onLength := a.onLength, offLength := a.offLength,
            countdown := a.countdown, status := a.status }
          let b := s.blinkArray edi
          let sf := (b.status.setWidth 8 &&& (1 : Byte)).msb
          let ecx := if sf then b.onChar else b.offChar
          some (0, s.mp1Poke (b.location.toNat <<< 1) ecx)

/-- `mp1_ioctl_find`: what it copies over the caller's structure, if it does. -/
def mp1IoctlFind (fuel : Nat) (s : Fish) (location : BitVec 16) :
    Option (Int × Option BlinkStruct) :=
  match mp1FindHelper fuel s location with
  | none => none
  | some none => some (-1, none)
  | some (some eax) => some (0, some (s.blinkArray eax))

end Fish

/-! ## Whole runs -/

/-- What the program does to its list: the entries of `call_table`, and the clock tick. -/
inductive FishOp where
  | add (arg : BlinkStruct)
  | remove (arg : Word)
  | find (location : BitVec 16)
  | sync (arg : Word)
  | tick
  deriving DecidableEq

/-- What an operation answered: `%eax`, and the structure copied out. -/
structure FishReply where
  eax : Int
  out : Option BlinkStruct

/-- One operation; `none` when it does not return within its fuel. -/
def FishOp.run (fuel : Nat) (s : Fish) : FishOp → Option (FishReply × Fish)
  | .add arg => some (⟨(s.mp1IoctlAdd arg).1, none⟩, (s.mp1IoctlAdd arg).2)
  | .remove arg => (s.mp1IoctlRemove fuel arg).map fun (v, s) => (⟨v, none⟩, s)
  | .find location => (s.mp1IoctlFind fuel location).map fun (v, out) => (⟨v, out⟩, s)
  | .sync arg => (s.mp1IoctlSync fuel arg).map fun (v, s) => (⟨v, none⟩, s)
  | .tick => (s.mp1RtcTasklet fuel).map fun s => (⟨0, none⟩, s)

/-- One operation after another. -/
def Fish.runOps (fuel : Nat) (s : Fish) : List FishOp → Option (List FishReply × Fish)
  | [] => some ([], s)
  | op :: ops =>
      (op.run fuel s).bind fun (r, s) =>
        (Fish.runOps fuel s ops).map fun (rs, s) => (r :: rs, s)

end Zbiggie
