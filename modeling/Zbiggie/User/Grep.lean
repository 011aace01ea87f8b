import Zbiggie.User.Programs

/-!
# grep

`do_one_file` of `ece391grep.c`. The file comes in pieces of what fits the array
`data`: 1024 bytes and one for a NUL. Lines are looked for in the array; what is left
behind the last newline is moved to the front, and the next piece is read behind it.

The array is a memory of its own here, `data` being its address `0`, and a string of
the program is the list of its characters. Output is returned, as for `cat`.
-/

namespace Zbiggie

open Machine

/-- `BUFSIZE` -/
def grepBufsize : Nat := 1024

/-- "file open failed\n" -/
def grepOpenFailed : List Byte :=
  [0x66, 0x69, 0x6C, 0x65, 0x20, 0x6F, 0x70, 0x65, 0x6E, 0x20, 0x66, 0x61, 0x69, 0x6C, 0x65,
    0x64, 0x0A]

/-- `ece391_strncmp(s1 + i, s2 + i, n)`, on unsigned characters. -/
def ece391Strncmp (s1 s2 : Mem) : Nat → Nat → Int
  | 0, _ => 0
  | n + 1, i =>
      if s1 i = s2 i then
        if s1 i = 0 ∨ n = 0 then 0 else ece391Strncmp s1 s2 n (i + 1)
      else ((s1 i).toNat : Int) - (s2 i).toNat

/-- `ece391_strcpy(data + i, data + src + i)`, forwards through the one array. -/
def ece391Strcpy (src : Nat) : Nat → Nat → Mem → Option Mem
  | 0, _, _ => none
  | fuel + 1, i, data =>
      let b := data (src + i)
      let data := store data i b
      if b = 0 then some data else ece391Strcpy src fuel (i + 1) data

/-- `while (line_end < last && '\n' != data[line_end]) line_end++`, with `last` that many
bytes ahead. -/
def findLineEnd (data : Mem) : Nat → Nat → Nat
  | 0, lineEnd => lineEnd
  | n + 1, lineEnd => if data lineEnd ≠ 0x0A then findLineEnd data n (lineEnd + 1) else lineEnd

/-- The string is found here. Its first character is a `char` and that of the line is not. -/
def matchesAt (s : List Byte) (data : Mem) (check : Nat) : Prop :=
  (cstr s 0).toInt = ((data check).toNat : Int) ∧
    ece391Strncmp (fun i => data (check + i)) (cstr s) s.length 0 = 0

instance (s : List Byte) (data : Mem) (check : Nat) : Decidable (matchesAt s data check) :=
  inferInstanceAs (Decidable (_ ∧ _))

/-- The `for` over the line: at the first place where the string is found, the line is
printed behind the name of the file. -/
def searchLine (s fname : List Byte) (data : Mem) (lineStart : Nat) : Nat → Nat → List Byte
  | 0, _ => []
  | n + 1, check =>
      if matchesAt s data check then
        fname ++ [0x3A] ++ upToNul (fun i => data (lineStart + i)) (grepBufsize + 1) 0 ++ [0x0A]
      else searchLine s fname data lineStart n (check + 1)

/-- The inner `while (1)`: what is printed, and what is kept for the next piece. -/
def scanLines (s fname : List Byte) (cnt : Int) (last : Nat) : Nat → Nat → Mem →
    Option (List Byte × Nat × Mem)
  | 0, _, _ => none
  | fuel + 1, lineStart, data =>
      let lineEnd := findLineEnd data (last - lineStart) lineStart
      if data lineEnd ≠ 0x0A ∧ cnt ≠ 0 ∧ lineStart ≠ 0 then
        (ece391Strcpy lineStart (grepBufsize + 1) 0 (store data lineEnd 0)).map fun data =>
          ([], last - lineStart, data)
      else
        let data := store data lineEnd 0
        let out := searchLine s fname data lineStart (lineEnd - lineStart) lineStart
        if lineEnd + 1 ≥ last then some (out, 0, data)
        else
          (scanLines s fname cnt last fuel (lineEnd + 1) data).map fun (rest, last, data) =>
            (out ++ rest, last, data)

/-- The outer `while (1)`, up to the close. -/
def grepLoop (img : Image) (d : Nat → Dentry) (dev : Nat → DeviceRead) (s fname : List Byte) :
    Nat → Nat → File → Nat → Mem → Option (Int × List Byte × File)
  | 0, _, _, _, _ => none
  | fuel + 1, n, f, last, data =>
      match kread img (d n) (dev n) f last (BitVec.ofNat 32 (grepBufsize - last)) data with
      | none => none
      | some (cnt, f, data) =>
          if cnt = -1 then some (-1, catReadFailed, f)
          else
            let last := last + cnt.toNat
            match scanLines s fname cnt last (last + 1) 0 data with
            | none => none
            | some (out, last, data) =>
                if cnt = 0 then some (0, out, f)
                else
                  (grepLoop img d dev s fname fuel (n + 1) f last data).map fun (v, rest, f) =>
                    (v, out ++ rest, f)

/-- `do_one_file(s, fname)`; `f` is the record the descriptor gets and `data` the array as
it is found on the stack. A descriptor is free, so `open` comes to `kopen`; and the `close`
at the end is left out, since closing an open descriptor above 1 cannot fail. -/
def doOneFile (img : Image) (d : Nat → Dentry) (dev : Nat → DeviceRead) (s fname : List Byte)
    (fuel : Nat) (f : File) (data : Mem) : Option (Int × List Byte × File) :=
  match kopen img (d 0) f (cstr fname) with
  | none => none
  | some (status, f) =>
      if status = -1 then some (-1, grepOpenFailed, f)
      else grepLoop img d dev s fname fuel 1 f 0 data

end Zbiggie
