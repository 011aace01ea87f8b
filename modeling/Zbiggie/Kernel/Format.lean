import Zbiggie.Kernel.Screen
import Zbiggie.Machine.CString

/-!
# Formatted output

`itoa`, `strrev`, `strlen`, `puts` and `printf` of `lib.c`. What they print is a list of
bytes here, each of which the source hands to `putc`.

`printf` is taken a step at a time: a step is one look at the format string, at the `while`
or at `format_char_switch`. The string is memory, so that what lies behind its terminator
is there to be looked at.
-/

namespace Zbiggie

open Machine

/-- Addresses a 32-bit counter can reach. -/
def addressSpace : Nat := 0x100000000

/-! ## Numbers -/

/-- `strlen(s)`, from `len` on. -/
def strlenFrom (s : Mem) : Nat → Nat → Nat
  | 0, len => len
  | fuel + 1, len => if s len ≠ 0 then strlenFrom s fuel (len + 1) else len

/-- `strlen(s)`: the counter is the bound on how far a string can go on. -/
def strlen (s : Mem) : Nat := strlenFrom s addressSpace 0

/-- The loop of `strrev`; `e` is its `end`. -/
def strrevLoop (b e : Int) (s : Mem) : Mem :=
  if b < e then
    let tmp := s e.toNat
    let s := store s e.toNat (s b.toNat)
    strrevLoop (b + 1) (e - 1) (store s b.toNat tmp)
  else s
termination_by (e - b).toNat
decreasing_by omega

/-- `strrev(s)`. -/
def strrev (s : Mem) : Mem := strrevLoop 0 ((strlen s : Int) - 1) s

/-- `lookup`. -/
def lookup : List Byte :=
  [0x30, 0x31, 0x32, 0x33, 0x34, 0x35, 0x36, 0x37, 0x38, 0x39, 0x41, 0x42,
   0x43, 0x44, 0x45, 0x46, 0x47, 0x48, 0x49, 0x4A, 0x4B, 0x4C, 0x4D, 0x4E,
   0x4F, 0x50, 0x51, 0x52, 0x53, 0x54, 0x55, 0x56, 0x57, 0x58, 0x59, 0x5A]

/-- A radix for which the loop of `itoa` ends. -/
abbrev Radix := { r : Nat // 2 ≤ r }

/-- `while (newval > 0)`: a digit at `i`, least significant first. Returns where it stopped. -/
def itoaLoop (radix : Radix) (newval i : Nat) (buf : Mem) : Nat × Mem :=
  if newval > 0 then
    itoaLoop radix (newval / radix) (i + 1) (store buf i (lookup.getD (newval % radix) 0))
  else (i, buf)
termination_by newval
decreasing_by exact Nat.div_lt_self (by omega) radix.2

/-- `itoa(value, buf, radix)`: what it leaves in `buf`. -/
def itoa (value : Word) (buf : Mem) (radix : Radix) : Mem :=
  if value = 0 then store (store buf 0 0x30) 1 0
  else
    let (n, buf) := itoaLoop radix value.toNat 0 buf
    strrev (store buf n 0)

/-! ## Output -/

/-- `puts(s)`: the bytes it puts. -/
def puts (s : Mem) : List Byte := upToNul s addressSpace 0

/-- The array from `o` on replaced: what a call on `&m[o]` leaves. -/
def within (m : Mem) (o : Nat) (f : Mem → Mem) : Mem :=
  fun i => if i < o then m i else f (fun j => m (o + j)) (i - o)

/-- The `%#x` branch, on the uninitialised `conv_buf`. -/
def putAlternate (v : Word) (convBuf : Mem) : List Byte :=
  let convBuf := within convBuf 8 (fun b => itoa v b ⟨16, by decide⟩)
  let startingIndex := strlen (fun j => convBuf (8 + j))
  let convBuf := forLoop (8 - startingIndex) (fun i m => store m (startingIndex + i) 0x30) convBuf
  puts (fun j => convBuf (startingIndex + j))

/-- The `%d` branch. -/
def putSigned (v : Word) (convBuf : Mem) : List Byte :=
  if v.toInt < 0 then
    puts (within (store convBuf 0 0x2D) 1 (fun b => itoa (-v) b ⟨10, by decide⟩))
  else puts (itoa v convBuf ⟨10, by decide⟩)

/-- What `printf` is called with besides the format. -/
structure PrintfArgs where
  /-- The words on the stack above `format`. -/
  words : Nat → Word
  /-- The string at an address, for `%s`. -/
  strings : Word → List Byte
  /-- What the local `conv_buf` happens to hold. -/
  convBuf : Mem

/-- Where a call of `printf` stands. -/
inductive Point where
  /-- At the test of the `while`. -/
  | top
  /-- At `format_char_switch`. -/
  | conversion (alternate : Bool)
  | returned
  deriving DecidableEq

/-- The locals of a call of `printf`, and what it has put so far. -/
structure Scan where
  point : Point
  /-- `buf - format`. -/
  buf : Nat
  /-- Arguments taken so far. -/
  esp : Nat
  out : List Byte

/-- The start of `printf`. -/
def Scan.start : Scan := ⟨.top, 0, 0, []⟩

/-- A conversion: what it puts, and how many arguments it takes. -/
def convert (args : PrintfArgs) (alternate : Bool) (c : Byte) (esp : Nat) : List Byte × Nat :=
  let v := args.words esp
  if c = 0x25 then ([0x25], 0)
  else if c = 0x78 then
    (if alternate then putAlternate v args.convBuf else puts (itoa v args.convBuf ⟨16, by decide⟩),
      1)
  else if c = 0x75 then (puts (itoa v args.convBuf ⟨10, by decide⟩), 1)
  else if c = 0x64 then (putSigned v args.convBuf, 1)
  else if c = 0x63 then ([v.setWidth 8], 1)
  else if c = 0x73 then (args.strings v, 1)
  else ([], 0)

/-- One look at the format string, at `buf`. -/
def printfStep (fmt : Mem) (args : PrintfArgs) (s : Scan) : Scan :=
  match s.point with
  | .top =>
      if fmt s.buf = 0 then { s with point := .returned }
      else if fmt s.buf = 0x25 then { s with point := .conversion false, buf := s.buf + 1 }
      else { s with buf := s.buf + 1, out := s.out ++ [fmt s.buf] }
  | .conversion alternate =>
      if fmt s.buf = 0x23 then { s with point := .conversion true, buf := s.buf + 1 }
      else
        let (out, taken) := convert args alternate (fmt s.buf) s.esp
        -- the `buf++` behind the switch, whatever was there
        ⟨.top, s.buf + 1, s.esp + taken, s.out ++ out⟩
  | .returned => s

/-- `printf` after `n` steps. -/
def printfRun (fmt : Mem) (args : PrintfArgs) (n : Nat) : Scan :=
  (printfStep fmt args)^[n] .start

end Zbiggie
