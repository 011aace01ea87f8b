import Zbiggie.Kernel.Format

/-!
# Two programs that talk to the keyboard

`ece391shell.c` and `ece391counter.c`. Both ask for a line, put a NUL behind what came,
and treat it as a string; the shell first takes the newline off, the counter does not.

What the kernel answers is a `Console`: a read gives a count and leaves the buffer as it
leaves it, or fails, and a command that is executed comes back with a value. The buffer
is the program's own array, from address `0`.
-/

namespace Zbiggie

open Machine

/-- The answers a program gets, by the number of the call. A `read` of `-1` is `none`. -/
structure Console where
  read : Nat → Mem → Option Nat × Mem
  execute : Nat → List Byte → Int

/-- `BUFSIZE` -/
def consoleBufsize : Nat := 1024

/-- `ece391_strcmp(s1 + i, s2 + i)`; a string that does not end has no answer. -/
def ece391Strcmp (s1 s2 : Mem) : Nat → Nat → Option Int
  | 0, _ => none
  | fuel + 1, i =>
      if s1 i = s2 i then
        if s1 i = 0 then some 0 else ece391Strcmp s1 s2 fuel (i + 1)
      else some (((s1 i).toNat : Int) - (s2 i).toNat)

/-! ## The shell -/

/-- "Starting 391 Shell\n" -/
def shellBanner : List Byte :=
  [0x53, 0x74, 0x61, 0x72, 0x74, 0x69, 0x6E, 0x67, 0x20, 0x33, 0x39, 0x31, 0x20, 0x53, 0x68, 0x65,
    0x6C, 0x6C, 0x0A]

/-- "391OS> " -/
def shellPrompt : List Byte := [0x33, 0x39, 0x31, 0x4F, 0x53, 0x3E, 0x20]

/-- "read from keyboard failed\n" -/
def shellReadFailed : List Byte :=
  [0x72, 0x65, 0x61, 0x64, 0x20, 0x66, 0x72, 0x6F, 0x6D, 0x20, 0x6B, 0x65, 0x79, 0x62, 0x6F, 0x61,
    0x72, 0x64, 0x20, 0x66, 0x61, 0x69, 0x6C, 0x65, 0x64, 0x0A]

/-- "no such command\n" -/
def shellNoCommand : List Byte :=
  [0x6E, 0x6F, 0x20, 0x73, 0x75, 0x63, 0x68, 0x20, 0x63, 0x6F, 0x6D, 0x6D, 0x61, 0x6E, 0x64, 0x0A]

/-- "program terminated by exception\n" -/
def shellException : List Byte :=
  [0x70, 0x72, 0x6F, 0x67, 0x72, 0x61, 0x6D, 0x20, 0x74, 0x65, 0x72, 0x6D, 0x69, 0x6E, 0x61, 0x74,
    0x65, 0x64, 0x20, 0x62, 0x79, 0x20, 0x65, 0x78, 0x63, 0x65, 0x70, 0x74, 0x69, 0x6F, 0x6E, 0x0A]

/-- "program terminated abnormally\n" -/
def shellAbnormal : List Byte :=
  [0x70, 0x72, 0x6F, 0x67, 0x72, 0x61, 0x6D, 0x20, 0x74, 0x65, 0x72, 0x6D, 0x69, 0x6E, 0x61, 0x74,
    0x65, 0x64, 0x20, 0x61, 0x62, 0x6E, 0x6F, 0x72, 0x6D, 0x61, 0x6C, 0x6C, 0x79, 0x0A]

/-- "exit" -/
def exitCommand : List Byte := [0x65, 0x78, 0x69, 0x74]

/-- What the shell is seen to do. -/
inductive ShellAct where
  | wrote (s : List Byte)
  | ran (command : List Byte)

/-- What the shell has to say to the value of a command. -/
def shellReport (rval : Int) : List ShellAct :=
  if rval = -1 then [.wrote shellNoCommand]
  else if rval = 256 then [.wrote shellException]
  else if rval ≠ 0 then [.wrote shellAbnormal]
  else []

/--
The first `rounds` rounds of the `while (1)`, the next read being the `n`-th: what was done,
and the value the shell returned if it did.
-/
def shellLoop (c : Console) : Nat → Nat → Mem → List ShellAct × Option Int
  | 0, _, _ => ([], none)
  | rounds + 1, n, buf =>
      match c.read n buf with
      | (none, _) => ([.wrote shellPrompt, .wrote shellReadFailed], some 3)
      | (some cnt, buf) =>
          let cnt := if cnt > 0 ∧ buf (cnt - 1) = 0x0A then cnt - 1 else cnt
          let buf := store buf cnt 0
          if ece391Strcmp buf (cstr exitCommand) consoleBufsize 0 = some 0 then
            ([.wrote shellPrompt], some 0)
          else if buf 0 = 0 then
            let (acts, r) := shellLoop c rounds (n + 1) buf
            (.wrote shellPrompt :: acts, r)
          else
            let command := upToNul buf consoleBufsize 0
            let rval := c.execute n command
            let (acts, r) := shellLoop c rounds (n + 1) buf
            (.wrote shellPrompt :: .ran command :: (shellReport rval ++ acts), r)

/-- `main` of the shell, on the uninitialised `buf`. -/
def shellMain (c : Console) (rounds : Nat) (buf : Mem) : List ShellAct × Option Int :=
  let (acts, r) := shellLoop c rounds 0 buf
  (.wrote shellBanner :: acts, r)

/-! ## The counter -/

/-- "Enter the Test Number: (0): 100, (1): 10000, (2): 100000\n" -/
def counterPrompt : List Byte :=
  [0x45, 0x6E, 0x74, 0x65, 0x72, 0x20, 0x74, 0x68, 0x65, 0x20, 0x54, 0x65, 0x73, 0x74, 0x20, 0x4E,
    0x75, 0x6D, 0x62, 0x65, 0x72, 0x3A, 0x20, 0x28, 0x30, 0x29, 0x3A, 0x20, 0x31, 0x30, 0x30, 0x2C,
    0x20, 0x28, 0x31, 0x29, 0x3A, 0x20, 0x31, 0x30, 0x30, 0x30, 0x30, 0x2C, 0x20, 0x28, 0x32, 0x29,
    0x3A, 0x20, 0x31, 0x30, 0x30, 0x30, 0x30, 0x30, 0x0A]

/-- "Can't read the number from keyboard.\n" -/
def counterReadFailed : List Byte :=
  [0x43, 0x61, 0x6E, 0x27, 0x74, 0x20, 0x72, 0x65, 0x61, 0x64, 0x20, 0x74, 0x68, 0x65, 0x20, 0x6E,
    0x75, 0x6D, 0x62, 0x65, 0x72, 0x20, 0x66, 0x72, 0x6F, 0x6D, 0x20, 0x6B, 0x65, 0x79, 0x62, 0x6F,
    0x61, 0x72, 0x64, 0x2E, 0x0A]

/-- "Wrong Choice!\n" -/
def counterWrong : List Byte :=
  [0x57, 0x72, 0x6F, 0x6E, 0x67, 0x20, 0x43, 0x68, 0x6F, 0x69, 0x63, 0x65, 0x21, 0x0A]

/-- The `switch` on the first character; `max` is zero to begin with. -/
def counterMax (c : Byte) : Nat :=
  if c = 0x30 then 100 else if c = 0x31 then 10000 else if c = 0x32 then 100000 else 0

/-- The last `n` rounds of the `for` up to `max`, each through the one buffer. -/
def countLoop (max : Nat) : Nat → Mem → List Byte
  | 0, _ => []
  | n + 1, buf =>
      let i := max - (n + 1)
      let buf := itoa (BitVec.ofNat 32 (i + 1)) buf ⟨10, Nat.le_add_left 2 8⟩
      puts buf ++ [0x0A] ++ countLoop max n buf

/-- `main` of the counter: the value it returns and its output. -/
def counterMain (c : Console) (buf : Mem) : Int × List Byte :=
  match c.read 0 buf with
  | (none, _) => (3, counterPrompt ++ counterReadFailed)
  | (some cnt, buf) =>
      let buf := store buf cnt 0
      if strlen buf > 1 ∨ (strlen buf = 1 ∧ (buf 0 < 0x30 ∨ buf 0 > 0x32)) then
        (0, counterPrompt ++ counterWrong)
      else (0, counterPrompt ++ countLoop (counterMax (buf 0)) (counterMax (buf 0)) buf)

end Zbiggie
