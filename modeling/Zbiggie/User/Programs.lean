import Zbiggie.Kernel.Format
import Zbiggie.Kernel.Syscall

/-!
# Two programs that use the file system

`ece391cat.c` and `ece391ls.c`, run as a process of the kernel. What a program does
between two system calls is its own; what it does with the kernel is a sequence of
calls, each through the registers of `ece391syscall.S`.

A program is not alone. Before each of its calls the rest of the machine has done
whatever it did, and the locals of the kernel hold whatever they held; a `World` is
such a history. What a program wrote to its standard output is returned beside its
exit value: the bytes `write` handed on to the terminal, and the program's own messages.
-/

namespace Zbiggie

open Machine

/-- The disk, and at the program's `n`-th call the kernel's uninitialised locals, what a
device answered, and what happened since the call before. -/
structure World where
  img : Image
  d : Nat → Dentry
  dev : Nat → DeviceRead
  meanwhile : Nat → Kernel → Kernel

/-- Memory as the current process sees it from the address `p` on. -/
def userMem (k : Kernel) (p : Word) : Mem := fun i =>
  k.ram (userPhys k.task.currentProcess (p.toNat + i))

/-- `ece391_getargs(buf, nbytes)`. -/
def ece391Getargs (w : World) (n : Nat) (buf nbytes : Word) (k : Kernel) : Option (Int × Kernel) :=
  let k := w.meanwhile n k
  let r : Regs := ⟨7, buf, nbytes, 0⟩
  (getargs r).run w.img (w.d n) (w.dev n) r k

/-- `ece391_open(filename)`, on the string at that address. -/
def ece391Open (w : World) (n : Nat) (filename : Word) (k : Kernel) : Option (Int × Kernel) :=
  let k := w.meanwhile n k
  syscallOpen w.img (w.d n) filename (upToNul (userMem k filename) addressSpace 0) k

/-- `ece391_read(fd, buf, nbytes)`. -/
def ece391Read (w : World) (n : Nat) (fd : Int) (buf nbytes : Word) (k : Kernel) :
    Option (Int × Kernel) :=
  let k := w.meanwhile n k
  let r : Regs := ⟨3, BitVec.ofInt 32 fd, buf, nbytes⟩
  (read r k).run w.img (w.d n) (w.dev n) r k

/-- `ece391_write(fd, buf, nbytes)`, with the bytes that reach the terminal. -/
def ece391Write (w : World) (n : Nat) (fd : Int) (buf nbytes : Word) (k : Kernel) :
    Option (Int × List Byte × Kernel) :=
  let k := w.meanwhile n k
  let r : Regs := ⟨4, BitVec.ofInt 32 fd, buf, nbytes⟩
  let out :=
    match write r k with
    | .kwrite i buf nbytes =>
        if (k.currentPcb.f i).optable = .stdout then
          (List.range nbytes.toNat).map (userMem k buf)
        else []
    | _ => []
  ((write r k).run w.img (w.d n) (w.dev n) r k).map fun (v, k) => (v, out, k)

/-! ## cat -/

/-- "could not read arguments\n" -/
def catNoArgs : List Byte :=
  [0x63, 0x6F, 0x75, 0x6C, 0x64, 0x20, 0x6E, 0x6F, 0x74, 0x20, 0x72, 0x65, 0x61, 0x64, 0x20,
    0x61, 0x72, 0x67, 0x75, 0x6D, 0x65, 0x6E, 0x74, 0x73, 0x0A]

/-- "file not found\n" -/
def catNotFound : List Byte :=
  [0x66, 0x69, 0x6C, 0x65, 0x20, 0x6E, 0x6F, 0x74, 0x20, 0x66, 0x6F, 0x75, 0x6E, 0x64, 0x0A]

/-- "file read failed\n" -/
def catReadFailed : List Byte :=
  [0x66, 0x69, 0x6C, 0x65, 0x20, 0x72, 0x65, 0x61, 0x64, 0x20, 0x66, 0x61, 0x69, 0x6C, 0x65,
    0x64, 0x0A]

/-- The loop of `cat`, its first call being the `n`-th. -/
def catLoop (w : World) (fd : Int) (buf : Word) : Nat → Nat → Kernel →
    Option (Int × List Byte × Kernel)
  | 0, _, _ => none
  | fuel + 1, n, k =>
      match ece391Read w n fd buf 1024 k with
      | none => none
      | some (cnt, k) =>
          if cnt = 0 then some (0, [], k)
          else if cnt = -1 then some (3, catReadFailed, k)
          else
            match ece391Write w (n + 1) 1 buf (BitVec.ofInt 32 cnt) k with
            | none => none
            | some (v, out, k) =>
                if v = -1 then some (3, out, k)
                else (catLoop w fd buf fuel (n + 2) k).map fun (v, rest, k) => (v, out ++ rest, k)

/-- `main` of `cat`: its exit value, its output and the machine it leaves. -/
def catMain (w : World) (fuel : Nat) (buf : Word) (k : Kernel) :
    Option (Int × List Byte × Kernel) :=
  match ece391Getargs w 0 buf 1024 k with
  | none => none
  | some (v, k) =>
      if v ≠ 0 then some (3, catNoArgs, k)
      else
        match ece391Open w 1 buf k with
        | none => none
        | some (fd, k) =>
            if fd = -1 then some (2, catNotFound, k) else catLoop w fd buf fuel 2 k

/-! ## ls -/

/-- "directory open failed\n" -/
def lsOpenFailed : List Byte :=
  [0x64, 0x69, 0x72, 0x65, 0x63, 0x74, 0x6F, 0x72, 0x79, 0x20, 0x6F, 0x70, 0x65, 0x6E, 0x20,
    0x66, 0x61, 0x69, 0x6C, 0x65, 0x64, 0x0A]

/-- "directory entry read failed\n" -/
def lsReadFailed : List Byte :=
  [0x64, 0x69, 0x72, 0x65, 0x63, 0x74, 0x6F, 0x72, 0x79, 0x20, 0x65, 0x6E, 0x74, 0x72, 0x79,
    0x20, 0x72, 0x65, 0x61, 0x64, 0x20, 0x66, 0x61, 0x69, 0x6C, 0x65, 0x64, 0x0A]

/-- The program stores a byte in its own page. -/
def userStore (k : Kernel) (p : Nat) (b : Byte) : Kernel :=
  { k with ram := store k.ram (userPhys k.task.currentProcess p) b }

/-- The loop of `ls`. -/
def lsLoop (w : World) (fd : Int) (buf : Word) : Nat → Nat → Kernel →
    Option (Int × List Byte × Kernel)
  | 0, _, _ => none
  | fuel + 1, n, k =>
      match ece391Read w n fd buf 32 k with
      | none => none
      | some (cnt, k) =>
          if cnt = 0 then some (0, [], k)
          else if cnt = -1 then some (3, lsReadFailed, k)
          else
            let k := userStore k (buf.toNat + cnt.toNat) 0x0A
            match ece391Write w (n + 1) 1 buf (BitVec.ofInt 32 (cnt + 1)) k with
            | none => none
            | some (v, out, k) =>
                if v = -1 then some (3, out, k)
                else (lsLoop w fd buf fuel (n + 2) k).map fun (v, rest, k) => (v, out ++ rest, k)

/-- `main` of `ls`; `dot` is where its constant "." lies. -/
def lsMain (w : World) (fuel : Nat) (dot buf : Word) (k : Kernel) :
    Option (Int × List Byte × Kernel) :=
  match ece391Open w 0 dot k with
  | none => none
  | some (fd, k) =>
      if fd = -1 then some (2, lsOpenFailed, k) else lsLoop w fd buf fuel 1 k

end Zbiggie
