import Zbiggie.Proof.Execute

/-!
# A file, read in pieces

A program reads a file with one `kopen` and as many `kread`s as it likes, into
whatever buffers. What it has got after any number of them is the start of the file,
as long as what it asked for, or the whole file: how the requests were cut does not
show. The position in the `FILE` is the number of bytes delivered, and this one fact
is the invariant.
-/

namespace Zbiggie.Proof

open Zbiggie Machine

/-- One `kread`: buffer and size, and the memory and the locals it finds. -/
structure ReadCall where
  buf : Nat
  n : Word
  mem : Mem
  d : Dentry
  dev : DeviceRead

/-- What `n` bytes of a buffer hold. -/
def bytesAt (m : Mem) (buf n : Nat) : List Byte := (List.range' buf n).map m

/-- The bytes `[i, i + n)` of a file. -/
def fileSlice (img : Image) (inode i n : Nat) : List Byte :=
  (List.range' i n).map (img.fileByte inode)

/--
The calls in order, each on the `FILE` the one before left: all that was returned in
the buffers, and the `FILE` in the end. The program may do anything to its memory
between two calls.
-/
def kreads (img : Image) : File → List ReadCall → Option (List Byte × File)
  | f, [] => some ([], f)
  | f, c :: cs =>
      match kread img c.d c.dev f c.buf c.n c.mem with
      | none => none
      | some (r, f, m) =>
          (kreads img f cs).map fun (bytes, f) => (bytesAt m c.buf r.toNat ++ bytes, f)

/-- What the calls ask for, together. -/
def requested (cs : List ReadCall) : Nat := cs.foldr (fun c n => c.n.toNat + n) 0

theorem fileSlice_append (img : Image) (inode i n k : Nat) :
    fileSlice img inode i n ++ fileSlice img inode (i + n) k = fileSlice img inode i (n + k) := by
  unfold fileSlice
  rw [← List.map_append, List.range'_append_1]

/-- A slice copied to a buffer is in the buffer. -/
theorem bytesAt_memcpy (img : Image) (inode i buf n : Nat) (m : Mem) :
    bytesAt (memcpy m buf (img.fileFrom inode i) n) buf n = fileSlice img inode i n := by
  unfold bytesAt fileSlice
  refine List.ext_getElem (by simp) ?_
  intro j h1 h2
  rw [List.length_map, List.length_range'] at h1
  simp only [List.getElem_map, List.getElem_range', Nat.one_mul]
  rw [memcpy_apply, if_pos (by omega), Nat.add_sub_cancel_left]
  rfl

/-- An open regular file, `pos` bytes into it. -/
def regularAt (inode flags : Word) (pos : Nat) : File :=
  ⟨.regular, inode, BitVec.ofNat 32 pos, flags⟩

/-- Opening by name the regular file that is found under it. -/
theorem kopen_of_found {img : Image} {d e : Dentry} {name : Mem} (f : File)
    (hfind : readDentryByName img name d = (0, e)) (hreg : e.ftype = ftypeRegular) :
    kopen img d f name = some (0, regularAt e.inodeNum f.flags 0) := by
  unfold kopen
  rw [hfind]
  dsimp only
  rw [if_neg (by decide), if_pos hreg]
  rfl

/-- What a file of `len` bytes has of `n` bytes from `pos` on. -/
def portion (len pos n : Nat) : Nat := Min.min n (len - pos)

section Reads

variable {img : Image} {inode flags : Word}

/-- **One call.** It delivers what is left, up to its size, and moves on by as much. -/
theorem kread_regularAt (flags : Word) (hn : inode.toNat < img.numInode.toNat)
    (hlen : (fileLength img inode).toNat ≤ maxLength) {pos : Nat}
    (hpos : pos ≤ (fileLength img inode).toNat) (c : ReadCall) (hc : c.n.toNat < 2147483648) :
    kread img c.d c.dev (regularAt inode flags pos) c.buf c.n c.mem =
      some ((portion (fileLength img inode).toNat pos c.n.toNat : Int),
        regularAt inode flags (pos + portion (fileLength img inode).toNat pos c.n.toNat),
        memcpy c.mem c.buf (img.fileFrom inode.toNat pos)
          (portion (fileLength img inode).toNat pos c.n.toNat)) := by
  have hmax : maxLength = 4190208 := rfl
  obtain ⟨off, hoff⟩ : ∃ off, off = BitVec.ofNat 32 pos := ⟨_, rfl⟩
  have hoff' : off.toNat = pos := by
    rw [hoff, BitVec.toNat_ofNat]; omega
  have hsum : off.toNat + c.n.toNat < 4294967296 := by omega
  have hread := readData_eq hn (by omega) hsum c.buf c.mem
  have hslice :
      sliceLen img inode off c.n = portion (fileLength img inode).toNat pos c.n.toNat := by
    unfold sliceLen portion
    rw [hoff']
  rw [hslice, hoff'] at hread
  unfold kread regularAt regularRead
  dsimp only
  rw [← hoff, hread]
  dsimp only
  rw [if_neg (by omega), BitVec.ofInt_natCast, hoff, ← BitVec.ofNat_add]

/-- **Any number of calls.** They deliver one slice, from where the first found the file. -/
theorem kreads_regularAt (hn : inode.toNat < img.numInode.toNat)
    (hlen : (fileLength img inode).toNat ≤ maxLength) (flags : Word) :
    ∀ (cs : List ReadCall) (pos : Nat), pos ≤ (fileLength img inode).toNat →
      (∀ c ∈ cs, c.n.toNat < 2147483648) →
      kreads img (regularAt inode flags pos) cs =
        some
          (fileSlice img inode.toNat pos (portion (fileLength img inode).toNat pos (requested cs)),
            regularAt inode flags
              (pos + portion (fileLength img inode).toNat pos (requested cs))) := by
  intro cs
  induction cs with
  | nil =>
      intro pos _ _
      have hzero : portion (fileLength img inode).toNat pos (requested []) = 0 := Nat.zero_min _
      rw [hzero]
      rfl
  | cons c cs ih =>
      intro pos hpos hsize
      have hc := hsize c List.mem_cons_self
      have hreq : requested (c :: cs) = c.n.toNat + requested cs := by
        simp [requested]
      have hnext : pos + portion (fileLength img inode).toNat pos c.n.toNat
          ≤ (fileLength img inode).toNat := by
        unfold portion; omega
      have hsum : portion (fileLength img inode).toNat pos c.n.toNat
          + portion (fileLength img inode).toNat
              (pos + portion (fileLength img inode).toNat pos c.n.toNat) (requested cs)
          = portion (fileLength img inode).toNat pos (requested (c :: cs)) := by
        rw [hreq]
        unfold portion
        omega
      rw [kreads, kread_regularAt flags hn hlen hpos c hc]
      dsimp only
      rw [ih _ hnext fun c' hc' => hsize c' (List.mem_cons_of_mem _ hc'), Int.toNat_natCast,
        bytesAt_memcpy]
      simp only [Option.map_some]
      rw [fileSlice_append, Nat.add_assoc, hsum]

/-- What one call on `g` does: it returns `r` and leaves the `FILE` as `g'` and memory as `m'`. -/
structure Delivers (img : Image) (inode : Word) (c : ReadCall) (g : File) (r : Nat) (g' : File)
    (m' : Mem) : Prop where
  call : kread img c.d c.dev g c.buf c.n c.mem = some ((r : Int), g', m')
  count : r = Min.min c.n.toNat ((fileLength img inode).toNat - g.pos.toNat)
  /-- The position moves on by what was returned, and nothing else in the `FILE` changes. -/
  pos : g'.pos.toNat = g.pos.toNat + r ∧ g' = { g with pos := g'.pos }
  bytes : ∀ i, i < r → m' (c.buf + i) = img.fileByte inode.toNat (g.pos.toNat + i)
  frame : ∀ a, a < c.buf ∨ c.buf + r ≤ a → m' a = c.mem a
  /-- Once everything is delivered, nothing happens. -/
  done : g.pos.toNat = (fileLength img inode).toNat → r = 0 ∧ g' = g ∧ m' = c.mem

theorem delivers_regularAt (hn : inode.toNat < img.numInode.toNat)
    (hlen : (fileLength img inode).toNat ≤ maxLength) {pos : Nat}
    (hpos : pos ≤ (fileLength img inode).toNat) {c : ReadCall} (hc : c.n.toNat < 2147483648) :
    ∃ r g' m', Delivers img inode c (regularAt inode flags pos) r g' m' := by
  have hmax : maxLength = 4190208 := rfl
  have htoNat : ∀ p, p ≤ (fileLength img inode).toNat →
      (regularAt inode flags p).pos.toNat = p := by
    intro p hp
    show (BitVec.ofNat 32 p).toNat = p
    rw [BitVec.toNat_ofNat]
    omega
  refine ⟨_, _, _, kread_regularAt flags hn hlen hpos c hc, ?_, ⟨?_, rfl⟩, ?_, ?_, ?_⟩
  · rw [htoNat pos hpos]
    rfl
  · rw [htoNat pos hpos, htoNat _ (by unfold portion; omega)]
  · intro i hi
    rw [htoNat pos hpos, memcpy_apply, if_pos (by omega), Nat.add_sub_cancel_left]
    rfl
  · intro a ha
    rw [memcpy_apply, if_neg (by omega)]
  · intro hdone
    rw [htoNat pos hpos] at hdone
    have hzero : portion (fileLength img inode).toNat pos c.n.toNat = 0 := by
      unfold portion; omega
    rw [hzero]
    exact ⟨rfl, rfl, rfl⟩

end Reads

/--
**Sequential reads.** After one `kopen` of a regular file, any sequence of `kread`s
has delivered the first bytes of the file, as many as were requested or all of them,
and `pos` is their number. Whatever the calls before were, the next one returns what
is left of its size and fills its buffer with the bytes that follow.
-/
theorem sequential_reads {img : Image} {d e : Dentry} {name : Mem} (f : File)
    (hfind : readDentryByName img name d = (0, e)) (hreg : e.ftype = ftypeRegular)
    (hn : e.inodeNum.toNat < img.numInode.toNat)
    (hlen : (fileLength img e.inodeNum).toNat ≤ maxLength) :
    ∃ f0, kopen img d f name = some (0, f0) ∧
      ∀ cs : List ReadCall, (∀ c ∈ cs, c.n.toNat < 2147483648) →
        ∃ g, kreads img f0 cs = some (fileSlice img e.inodeNum.toNat 0
            (Min.min (requested cs) (fileLength img e.inodeNum).toNat), g) ∧
          g.pos.toNat = Min.min (requested cs) (fileLength img e.inodeNum).toNat ∧
          ∀ c : ReadCall, c.n.toNat < 2147483648 →
            ∃ r g' m', Delivers img e.inodeNum c g r g' m' := by
  have hmax : maxLength = 4190208 := rfl
  refine ⟨_, kopen_of_found f hfind hreg, ?_⟩
  intro cs hcs
  have hreads := kreads_regularAt hn hlen f.flags cs 0 (Nat.zero_le _) hcs
  have hportion : portion (fileLength img e.inodeNum).toNat 0 (requested cs)
      = Min.min (requested cs) (fileLength img e.inodeNum).toNat := rfl
  rw [hportion, Nat.zero_add] at hreads
  refine ⟨_, hreads, ?_, fun c hc => delivers_regularAt hn hlen (Nat.min_le_right _ _) hc⟩
  show (BitVec.ofNat 32 _).toNat = _
  rw [BitVec.toNat_ofNat]
  omega

/-- Two calls, of two bytes and of five. -/
def twoCalls : List ReadCall :=
  [⟨0, 2, fun _ => 0, someLocals.d, ⟨0, fun _ => 0⟩⟩,
    ⟨16, 5, fun _ => 0, someLocals.d, ⟨0, fun _ => 0⟩⟩]

/-- A file of three bytes, in two calls. -/
theorem sequential_reads_two_calls : ∃ f0 g,
    kopen (oneFile [0x61] [1, 2, 3]) someLocals.d .zero (cstr [0x61]) = some (0, f0) ∧
      kreads (oneFile [0x61] [1, 2, 3]) f0 twoCalls = some ([1, 2, 3], g) ∧ g.pos = 3 := by
  obtain ⟨e, he⟩ : ∃ e, e = (readDentryByName (oneFile [0x61] [1, 2, 3]) (cstr [0x61])
    someLocals.d).2 := ⟨_, rfl⟩
  have hstatus :
      (readDentryByName (oneFile [0x61] [1, 2, 3]) (cstr [0x61]) someLocals.d).1 = 0 := by
    decide
  have hfind : readDentryByName (oneFile [0x61] [1, 2, 3]) (cstr [0x61]) someLocals.d = (0, e) :=
    Prod.ext hstatus he.symm
  have hreg : e.ftype = ftypeRegular := by
    rw [he]; decide
  have hnum : e.inodeNum = 0 := by
    rw [he]; decide
  have hlen : (fileLength (oneFile [0x61] [1, 2, 3]) 0).toNat = 3 := by decide
  obtain ⟨f0, hopen, hreads⟩ := sequential_reads .zero hfind hreg
    (by rw [hnum]; decide) (by rw [hnum, hlen]; decide)
  obtain ⟨g, hg, hpos, _⟩ := hreads twoCalls (by unfold twoCalls; decide)
  have hreq : requested twoCalls = 7 := rfl
  have hslice :
      fileSlice (oneFile [0x61] [1, 2, 3]) (0 : Word).toNat 0 (Min.min 7 3) = [1, 2, 3] := by
    decide
  rw [hnum, hlen, hreq] at hg hpos
  rw [hslice] at hg
  exact ⟨f0, g, hopen, hg, BitVec.eq_of_toNat_eq hpos⟩

end Zbiggie.Proof
