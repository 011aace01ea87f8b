import Zbiggie.Machine.CString

/-!
# The library that runs the programs under Linux

`ece391emulate.c` offers the system calls of the kernel on top of those of Linux, so that
a program can be tried out before it is put on the disk. Two of its calls do work of their
own. `ece391_execute` takes the command apart for `execv`, in the buffer it was copied to,
and `ece391_getargs` puts the pieces together again in the process that was started. The
directory is read entry by entry from Linux and padded to what the kernel's calls return.
-/

namespace Zbiggie.Emulate

open Machine

/-! ## execute -/

/-- `buf[1026]` -/
def cmdBufSize : Nat := 1026

/-- `while (' ' == *scan) scan++` -/
def skipBlanks (buf : Mem) : Nat → Nat → Option Nat
  | 0, _ => none
  | fuel + 1, scan => if buf scan = 0x20 then skipBlanks buf fuel (scan + 1) else some scan

/-- `while ('\0' != *scan && ' ' != *scan && '\n' != *scan) scan++` -/
def skipWord (buf : Mem) : Nat → Nat → Option Nat
  | 0, _ => none
  | fuel + 1, scan =>
      if buf scan ≠ 0 ∧ buf scan ≠ 0x20 ∧ buf scan ≠ 0x0A then skipWord buf fuel (scan + 1)
      else some scan

/-- The loop over the arguments: where they begin, and the buffer cut into strings. -/
def parseArgs : Nat → Nat → List Nat → Mem → Option (List Nat × Mem)
  | 0, _, _, _ => none
  | fuel + 1, scan, args, buf =>
      match skipBlanks buf cmdBufSize scan with
      | none => none
      | some scan =>
          if buf scan = 0 ∨ buf scan = 0x0A then some (args, store buf scan 0)
          else
            let args := args ++ [scan]
            match skipWord buf cmdBufSize scan with
            | none => none
            | some scan =>
                if buf scan ≠ 0 then parseArgs fuel (scan + 1) args (store buf scan 0)
                else parseArgs fuel scan args buf

/-- "./" and the command, in the buffer. -/
def commandBuf (command : List Byte) (buf : Mem) : Mem :=
  memcpy (store (store buf 0 0x2E) 1 0x2F) 2 (cstr command) (command.length + 1)

/-- The pointers and the buffer that `ece391_execute` hands to `execv`. -/
def splitCommand (command : List Byte) (buf : Mem) : Option (List Nat × Mem) :=
  let buf := commandBuf command buf
  match skipWord buf cmdBufSize 2 with
  | none => none
  | some scan =>
      if buf scan ≠ 0 then parseArgs cmdBufSize (scan + 1) [0] (store buf scan 0)
      else some ([0], buf)

/-- The strings of `argv` as the new process gets them. -/
def argv (command : List Byte) (buf : Mem) : Option (List (List Byte)) :=
  (splitCommand command buf).map fun (args, buf) =>
    args.map fun a => upToNul (fun i => buf (a + i)) cmdBufSize 0

/-- What `wait` says of the child: it exited, or a signal ended it. -/
inductive WaitStatus where
  | exited (status : Nat)
  | signalled (sig : Nat)

/-- The end of `ece391_execute`. -/
def exitValue : WaitStatus → Int
  | .exited status => status
  | .signalled sig => if sig = 9 then -1 else 256

/-- `ece391_execute(command)`; `linux` is what becomes of the process that is started. -/
def ece391Execute (linux : List (List Byte) → WaitStatus) (command : List Byte) (buf : Mem) :
    Option Int :=
  if 1023 < command.length then some (-1)
  else (argv command buf).map fun argv => exitValue (linux argv)

/-! ## getargs -/

/-- The end of `ece391_getargs`. -/
def endArgs (buf : Nat) (nbytes : Int) (m : Mem) : Int × Mem :=
  if nbytes < 1 then (-1, m) else (0, store m buf 0)

/-- The loop of `ece391_getargs` over `argv[idx]`, `argv[idx + 1]`, …. -/
def joinArgs : List (List Byte) → Nat → Int → Mem → Int × Mem
  | [], buf, nbytes, m => endArgs buf nbytes m
  | arg :: args, buf, nbytes, m =>
      if (arg.length : Int) > nbytes then (-1, m)
      else
        let m := memcpy m buf (cstr arg) (arg.length + 1)
        let buf := buf + arg.length
        let nbytes := nbytes - arg.length
        if args = [] then endArgs buf nbytes m
        else if nbytes < 1 then (-1, m)
        else joinArgs args (buf + 1) (nbytes - 1) (store m buf 0x20)

/-- `ece391_getargs(buf, nbytes)` in a process that was started with these strings. -/
def ece391Getargs (argv : List (List Byte)) (buf : Nat) (nbytes : Int) (m : Mem) : Int × Mem :=
  joinArgs argv.tail buf nbytes m

/-! ## The directory -/

/-- `while ('\0' != *from)`: an entry's name, up to `nbytes` or 32 characters of it. -/
def copyName (nbytes : Int) (buf : Nat) : List Byte → Nat → Mem → (Int ⊕ Nat) × Mem
  | [], copied, m => (.inr copied, m)
  | c :: name, copied, m =>
      let m := store m (buf + copied) c
      let copied := copied + 1
      if (copied : Int) = nbytes then (.inl nbytes, m)
      else if copied = 32 then (.inl 32, m)
      else copyName nbytes buf name copied m

/-- `while (nbytes > copied && 32 > copied)`: the padding. -/
def padName (nbytes : Int) (buf : Nat) : Nat → Nat → Mem → Int × Mem
  | 0, copied, m => (copied, m)
  | n + 1, copied, m =>
      if nbytes > copied ∧ 32 > copied then
        padName nbytes buf n (copied + 1) (store m (buf + copied) 0)
      else (copied, m)

/-- `ece391_read` of the directory's descriptor; `dir` is what `readdir` has still to give. -/
def readDir (dir : List (List Byte)) (buf : Nat) (nbytes : Int) (m : Mem) :
    Int × List (List Byte) × Mem :=
  match dir with
  | [] => (0, [], m)
  | name :: dir =>
      match copyName nbytes buf name 0 m with
      | (.inl n, m) => (n, dir, m)
      | (.inr copied, m) =>
          let (n, m) := padName nbytes buf (32 - copied) copied m
          (n, dir, m)

end Zbiggie.Emulate
