import Mathlib.Data.Nat.Find
import Zbiggie.Machine.CString
import Zbiggie.Proof.Execute

/-!
# Names in the directory

A name is stored in a field of 32 bytes: up to the first NUL, or all 32. It is looked
up with a comparison of 31, so a name that fills the field is found under every name
that agrees with it that far; and it is listed by a copy that stops at a NUL or at
the caller's limit, and a name that fills the field has no NUL of its own. Both are
exact for every shorter name. What exactly goes wrong with the others is stated here.
-/

namespace Zbiggie.Proof

open Zbiggie Machine

/-- The name of entry `i`: its field up to the first NUL, or all of it. -/
def storedName (img : Image) (i : Nat) : List Byte := upToNul (img.fname i) fnameMaxLen 0

/-! ## Lookup -/

/-- The entry is found under the name: they agree in the bytes that are compared. -/
def Found (img : Image) (name : Mem) (i : Nat) : Prop :=
  upToNul name (fnameMaxLen - 1) 0 = upToNul (img.fname i) (fnameMaxLen - 1) 0

/-- **The search returns the first entry found.** -/
theorem dentrySearch_some_iff {img : Image} {name : Mem} : ∀ {fuel i j : Nat},
    dentrySearch img name fuel i = some j ↔
      i ≤ j ∧ j < i + fuel ∧ Found img name j ∧ ∀ k, i ≤ k → k < j → ¬ Found img name k := by
  intro fuel
  induction fuel with
  | zero =>
      intro i j
      refine iff_of_false nofun ?_
      intro h
      omega
  | succ fuel ih =>
      intro i j
      rw [dentrySearch]
      by_cases hi : Found img name i
      · rw [if_pos ((strncmp_eq_zero_iff _ _ _).mpr hi)]
        constructor
        · intro h
          cases h
          exact ⟨Nat.le_refl i, by omega, hi, fun k h1 h2 => absurd h1 (by omega)⟩
        · rintro ⟨h1, h2, h3, h4⟩
          by_cases hij : i = j
          · rw [hij]
          · exact absurd hi (h4 i (Nat.le_refl i) (by omega))
      · rw [if_neg fun h0 => hi ((strncmp_eq_zero_iff _ _ _).mp h0), ih]
        constructor
        · rintro ⟨h1, h2, h3, h4⟩
          refine ⟨by omega, by omega, h3, ?_⟩
          intro k hk1 hk2
          by_cases hki : k = i
          · subst hki; exact hi
          · exact h4 k (by omega) hk2
        · rintro ⟨h1, h2, h3, h4⟩
          have hij : i ≠ j := fun he => hi (he ▸ h3)
          exact ⟨by omega, by omega, h3, fun k hk1 hk2 => h4 k (by omega) hk2⟩

/-- With none found, it returns none. -/
theorem dentrySearch_none_iff {img : Image} {name : Mem} : ∀ {fuel i : Nat},
    dentrySearch img name fuel i = none ↔ ∀ k, i ≤ k → k < i + fuel → ¬ Found img name k := by
  intro fuel
  induction fuel with
  | zero =>
      intro i
      exact iff_of_true rfl fun k h1 h2 => absurd h1 (by omega)
  | succ fuel ih =>
      intro i
      rw [dentrySearch]
      by_cases hi : Found img name i
      · rw [if_pos ((strncmp_eq_zero_iff _ _ _).mpr hi)]
        exact iff_of_false (Option.some_ne_none i) fun h => h i (Nat.le_refl i) (by omega) hi
      · rw [if_neg fun h0 => hi ((strncmp_eq_zero_iff _ _ _).mp h0), ih]
        constructor
        · intro h k h1 h2
          by_cases hki : k = i
          · subst hki; exact hi
          · exact h k (by omega) (by omega)
        · intro h k h1 h2
          exact h k (by omega) (by omega)

/-- For a NUL-terminated name: the first 31 bytes agree. -/
theorem found_cstr_iff {img : Image} {s : List Byte} (hs : 0 ∉ s) {i : Nat} :
    Found img (cstr s) i ↔ (storedName img i).take 31 = s.take 31 := by
  have h31 : (storedName img i).take 31 = upToNul (img.fname i) 31 0 :=
    upToNul_take (img.fname i) 0 (by decide)
  unfold Found
  rw [upToNul_cstr hs, List.drop_zero, h31]
  exact eq_comm

/-- The name `read_dentry_by_index` leaves in the entry: the stored one, padded. -/
theorem readDentryByIndex_fname {img : Image} {i : Nat} (hi : i < img.numDentry.toNat) (d : Dentry)
    (j : Fin 32) : (readDentryByIndex img i d).2.fname j = (storedName img i).getD j 0 := by
  have hname : strncpy d.bytes (img.fname i) fnameMaxLen j = (storedName img i).getD j 0 := by
    have hj : j.val < fnameMaxLen := j.isLt
    rw [strncpy_apply, if_pos hj]
    rfl
  unfold readDentryByIndex
  rw [if_neg (by omega)]
  dsimp only
  split <;> exact hname

theorem readDentryByIndex_status {img : Image} {i : Nat} (hi : i < img.numDentry.toNat)
    (d : Dentry) : (readDentryByIndex img i d).1 = 0 := by
  unfold readDentryByIndex
  rw [if_neg (by omega)]
  dsimp only
  split <;> rfl

/-- Entries that read the same have the same name. -/
theorem storedName_of_readDentryByIndex {img : Image} {i j : Nat} (hi : i < img.numDentry.toNat)
    (hj : j < img.numDentry.toNat) {d : Dentry}
    (h : readDentryByIndex img i d = readDentryByIndex img j d) :
    storedName img i = storedName img j := by
  refine upToNul_ext ?_
  intro k hk
  have hik := readDentryByIndex_fname hi d ⟨k, hk⟩
  have hjk := readDentryByIndex_fname hj d ⟨k, hk⟩
  rw [h] at hik
  exact hik.symm.trans hjk

/-- What a lookup under `s` comes to, when it is exact. -/
structure ExactLookup (img : Image) (s : List Byte) : Prop where
  /-- The first entry of that name is returned, if there is one. -/
  entry : ∀ i, i < img.numDentry.toNat → storedName img i = s →
    (∀ j, j < i → storedName img j ≠ s) →
    ∀ d, readDentryByName img (cstr s) d = readDentryByIndex img i d ∧
      (readDentryByIndex img i d).1 = 0
  /-- And otherwise none. -/
  missing : (∀ i, i < img.numDentry.toNat → storedName img i ≠ s) →
    ∀ d, readDentryByName img (cstr s) d = (-1, d)
  /-- So a file is opened only under its own name. -/
  opened : ∀ d f, kopen img d f (cstr s) = some (-1, f) ↔
    ∀ i, i < img.numDentry.toNat → storedName img i ≠ s

/--
Entry `i` is found under `s`, which is not its name, and no entry before it has that
name: both are at least 31 bytes long and differ only behind the 31st.
-/
def Mistaken (img : Image) (s : List Byte) (i : Nat) : Prop :=
  i < img.numDentry.toNat ∧ (storedName img i).take 31 = s.take 31 ∧ storedName img i ≠ s ∧
    ∀ j, j < i → storedName img j ≠ s

/-- Only long names are mistaken for each other. -/
theorem Mistaken.length_le {img : Image} {s : List Byte} {i : Nat} (h : Mistaken img s i) :
    31 ≤ s.length ∧ 31 ≤ (storedName img i).length := by
  obtain ⟨_, htake, hne, _⟩ := h
  have hlen : Min.min 31 (storedName img i).length = Min.min 31 s.length := by
    rw [← List.length_take, ← List.length_take, htake]
  by_contra hshort
  refine hne ?_
  rwa [List.take_of_length_le (by omega), List.take_of_length_le (by omega)] at htake


/-- `kopen` refuses a name exactly if the lookup does. -/
theorem kopen_refuses_iff (img : Image) (d : Dentry) (f : File) (name : Mem) :
    kopen img d f name = some (-1, f) ↔ (readDentryByName img name d).1 ≠ 0 := by
  have hopen : ∀ (t : OpTable) (g : File), t.openOp.map (fun r => (r, g)) ≠ some (-1, f) := by
    intro t g h
    obtain ⟨r, hr, he⟩ := Option.map_eq_some_iff.mp h
    cases he
    revert hr
    cases t <;> decide
  unfold kopen
  generalize readDentryByName img name d = r
  obtain ⟨status, e⟩ := r
  dsimp only
  by_cases hs : status ≠ 0
  · rw [if_pos hs]
    exact iff_of_true rfl hs
  · rw [if_neg hs]
    exact iff_of_false (hopen _ _) hs

section Lookup

variable {img : Image} {s : List Byte}

/-- The lookup, when the first entry found is `i`. -/
theorem readDentryByName_of_first (hs : 0 ∉ s) {i : Nat} (hi : i < img.numDentry.toNat)
    (hfound : (storedName img i).take 31 = s.take 31)
    (hfirst : ∀ j, j < i → (storedName img j).take 31 ≠ s.take 31) (d : Dentry) :
    readDentryByName img (cstr s) d = readDentryByIndex img i d := by
  have hsearch : dentrySearch img (cstr s) img.numDentry.toNat 0 = some i := by
    refine dentrySearch_some_iff.mpr ⟨Nat.zero_le i, by omega, (found_cstr_iff hs).mpr hfound,
      fun j _ hj hf => hfirst j hj ((found_cstr_iff hs).mp hf)⟩
  unfold readDentryByName
  rw [hsearch]

/-- Without a mistaken entry the lookup is exact. -/
theorem exactLookup_of_not_mistaken (hs : 0 ∉ s) (h : ¬ ∃ i, Mistaken img s i) :
    ExactLookup img s := by
  -- an entry found under `s` has an entry of that name at or before it
  have hfound : ∀ i, i < img.numDentry.toNat → (storedName img i).take 31 = s.take 31 →
      ∃ j, j ≤ i ∧ storedName img j = s := by
    intro i hi htake
    by_contra hno
    refine h ⟨i, hi, htake, fun he => hno ⟨i, Nat.le_refl i, he⟩, ?_⟩
    intro j hj he
    exact hno ⟨j, Nat.le_of_lt hj, he⟩
  have hmissing : (∀ i, i < img.numDentry.toNat → storedName img i ≠ s) →
      ∀ d, readDentryByName img (cstr s) d = (-1, d) := by
    intro hno d
    refine readDentryByName_missing (dentrySearch_none_iff.mpr ?_)
    intro k _ hk hf
    obtain ⟨j, hj, he⟩ := hfound k (by omega) ((found_cstr_iff hs).mp hf)
    exact hno j (by omega) he
  have hentry : ∀ i, i < img.numDentry.toNat → storedName img i = s →
      (∀ j, j < i → storedName img j ≠ s) →
      ∀ d, readDentryByName img (cstr s) d = readDentryByIndex img i d ∧
        (readDentryByIndex img i d).1 = 0 := by
    intro i hi he hfirst d
    refine ⟨readDentryByName_of_first hs hi (by rw [he]) ?_ d, readDentryByIndex_status hi d⟩
    intro j hj htake
    obtain ⟨j', hj', he'⟩ := hfound j (by omega) htake
    exact hfirst j' (by omega) he'
  refine ⟨hentry, hmissing, ?_⟩
  intro d f
  rw [kopen_refuses_iff]
  constructor
  · intro hstatus i hi he
    classical
    -- of the entries of that name, the first is returned
    have hex : ∃ i, i < img.numDentry.toNat ∧ storedName img i = s := ⟨i, hi, he⟩
    obtain ⟨hi', he'⟩ := Nat.find_spec hex
    obtain ⟨hread, h0⟩ := hentry _ hi' he'
      (fun j hj hej => Nat.find_min hex hj ⟨by omega, hej⟩) d
    rw [hread] at hstatus
    exact hstatus h0
  · intro hno
    rw [hmissing hno d]
    exact Int.neg_ne_zero.mpr (by decide)

/-- A mistaken entry makes the lookup inexact. -/
theorem Mistaken.not_exactLookup (hs : 0 ∉ s) {i : Nat} (h : Mistaken img s i) :
    ¬ ExactLookup img s := by
  intro hexact
  obtain ⟨hi, htake, hne, hnone⟩ := h
  classical
  -- the lookup returns the first entry found, which is not one of that name
  have hex : ∃ j, (storedName img j).take 31 = s.take 31 := ⟨i, htake⟩
  have hle : Nat.find hex ≤ i := Nat.find_min' hex htake
  have hlt : Nat.find hex < img.numDentry.toNat := Nat.lt_of_le_of_lt hle hi
  have hread := fun d => readDentryByName_of_first hs hlt (Nat.find_spec hex)
    (fun j hj => Nat.find_min hex hj) d
  have hother : storedName img (Nat.find hex) ≠ s := by
    rcases Nat.lt_or_eq_of_le hle with hbefore | heq
    · exact hnone _ hbefore
    · rw [heq]
      exact hne
  by_cases hsome : ∃ k, k < img.numDentry.toNat ∧ storedName img k = s
  · obtain ⟨hk, hks⟩ := Nat.find_spec hsome
    obtain ⟨hentry, _⟩ := hexact.entry _ hk hks
      (fun j hj hej => Nat.find_min hsome hj ⟨by omega, hej⟩) someLocals.d
    rw [hread] at hentry
    exact hother ((storedName_of_readDentryByIndex hlt hk hentry).trans hks)
  · have hmiss := hexact.missing (fun k hk he => hsome ⟨k, hk, he⟩) someLocals.d
    rw [hread] at hmiss
    have h0 := readDentryByIndex_status hlt someLocals.d
    rw [hmiss] at h0
    cases h0

end Lookup

/--
**When name lookup is exact.** For every image and every NUL-terminated name, the
lookup returns the first entry of that name, and fails if there is none, exactly if
no entry comes before them that agrees with the name in 31 bytes and is another.
-/
theorem name_lookup_iff {s : List Byte} (hs : 0 ∉ s) (img : Image) :
    ExactLookup img s ↔ ¬ ∃ i, Mistaken img s i :=
  ⟨fun hexact ⟨_, hi⟩ => hi.not_exactLookup hs hexact, exactLookup_of_not_mistaken hs⟩

theorem name_lookup_short : ExactLookup (oneFile [0x61] [1]) [0x61] := by
  refine (name_lookup_iff (by decide) (oneFile [0x61] [1])).mpr ?_
  rintro ⟨i, hi⟩
  exact absurd hi.length_le.1 (by decide)

/-- A disk with one file, whose name fills its field. -/
def fullName : Image := oneFile (List.replicate 32 0x61) []

/-- The name less its last byte is no name in the directory, and is found. -/
theorem shorter_name_is_found :
    (∀ i, i < fullName.numDentry.toNat → storedName fullName i ≠ List.replicate 31 0x61) ∧
      (∀ d, (readDentryByName fullName (cstr (List.replicate 31 0x61)) d).1 = 0) ∧
      ¬ ExactLookup fullName (List.replicate 31 0x61) := by
  have hnum : fullName.numDentry.toNat = 1 := by decide
  have hname : storedName fullName 0 = List.replicate 32 0x61 := by decide
  have hno : ∀ i, i < fullName.numDentry.toNat →
      storedName fullName i ≠ List.replicate 31 0x61 := by
    intro i hi
    rw [hnum] at hi
    obtain rfl : i = 0 := by omega
    rw [hname]
    decide
  have hread : ∀ d, (readDentryByName fullName (cstr (List.replicate 31 0x61)) d).1 = 0 := by
    intro d
    rw [readDentryByName_of_first (by decide) (i := 0) (by rw [hnum]; decide)
      (by rw [hname]; decide) (fun j hj => absurd hj (Nat.not_lt_zero j)) d]
    exact readDentryByIndex_status (by rw [hnum]; decide) d
  refine ⟨hno, hread, ?_⟩
  intro hexact
  have h0 := hread someLocals.d
  rw [hexact.missing hno someLocals.d] at h0
  cases h0

/-! ## Listing -/

/-- One `directory_read`: buffer and size, and the memory and the local `dentry` it finds. -/
structure ListCall where
  buf : Nat
  n : Word
  mem : Mem
  d : Dentry

/-- The results of the calls in order, each on the `FILE` the one before left. -/
def directoryReads (img : Image) : File → List ListCall → List (Int × File × Mem)
  | _, [] => []
  | f, c :: cs =>
      let r := directoryRead img c.d f c.buf c.n c.mem
      r :: directoryReads img r.2.1 cs

/-- A `FILE` at position `p`. -/
def seek (f : File) (p : Nat) : File := { f with pos := BitVec.ofNat 32 p }

/-- The call returned its size and the name of entry `k`, cut or padded to the size. -/
structure Lists (img : Image) (f : File) (k : Nat) (c : ListCall) (r : Int × File × Mem) :
    Prop where
  count : r.1 = c.n.toInt
  pos : r.2.1 = seek f (k + 1)
  name : ∀ i, i < c.n.toNat → r.2.2 (c.buf + i) = ((storedName img k).take c.n.toNat).getD i 0
  frame : ∀ a, a < c.buf ∨ c.buf + c.n.toNat ≤ a → r.2.2 a = c.mem a

/-- Call after call an entry after the other is listed, and then nothing any more. -/
def Enumerates (img : Image) (f : File) (cs : List ListCall) : Prop :=
  ∀ k c r, cs[k]? = some c → (directoryReads img (seek f 0) cs)[k]? = some r →
    (k < img.numDentry.toNat → Lists img f k c r) ∧
      (img.numDentry.toNat ≤ k → r = (0, seek f img.numDentry.toNat, c.mem))

/--
The copy runs on into the type of the entry: the name fills its field, the caller
asks for more, and the next byte is no NUL.
-/
def Leaks (img : Image) (k : Nat) (c : ListCall) : Prop :=
  (storedName img k).length = fnameMaxLen ∧ fnameMaxLen < c.n.toNat ∧
    (img.ftype k).extractLsb' 0 8 ≠ 0

/-- The local `dentry` as the second copy reads it. -/
theorem readDentryByIndex_bytes {img : Image} {k : Nat} (hk : k < img.numDentry.toNat)
    (d : Dentry) :
    (∀ j, j < fnameMaxLen → (readDentryByIndex img k d).2.bytes j = cstr (storedName img k) j) ∧
      (readDentryByIndex img k d).2.bytes fnameMaxLen = (img.ftype k).extractLsb' 0 8 := by
  have hftype : (readDentryByIndex img k d).2.ftype = img.ftype k := by
    unfold readDentryByIndex
    rw [if_neg (by omega)]
    dsimp only
    split <;> rfl
  constructor
  · intro j hj
    have hj' : j < 32 := hj
    unfold Dentry.bytes
    rw [dif_pos hj', readDentryByIndex_fname hk d ⟨j, hj'⟩]
    rfl
  · unfold Dentry.bytes fnameMaxLen
    rw [dif_neg (by omega), if_pos (by omega), hftype]

/-- A call that has an entry to list. -/
theorem directoryRead_entry {img : Image} {k : Nat} (hk : k < img.numDentry.toNat) (f : File)
    (c : ListCall) : directoryRead img c.d (seek f k) c.buf c.n c.mem =
      (c.n.toInt, seek f (k + 1), memcpy c.mem c.buf (strncpy (fun i => c.mem (c.buf + i))
        (readDentryByIndex img k c.d).2.bytes c.n.toNat) c.n.toNat) := by
  have hpos : (seek f k).pos.toNat = k := by
    show (BitVec.ofNat 32 k).toNat = k
    rw [BitVec.toNat_ofNat]
    omega
  have hstatus := readDentryByIndex_status hk c.d
  unfold directoryRead
  rw [hpos]
  generalize readDentryByIndex img k c.d = r at hstatus
  obtain ⟨status, e⟩ := r
  dsimp only at hstatus ⊢
  rw [if_neg (not_not.mpr hstatus)]
  show (_, ({ f with pos := BitVec.ofNat 32 k + 1 } : File), _) = _
  rw [show BitVec.ofNat 32 k + 1 = BitVec.ofNat 32 (k + 1) from (BitVec.ofNat_add k 1).symm]
  rfl

/-- A call behind the last entry. -/
theorem directoryRead_end {img : Image} {f : File} {p : Nat} (hp : img.numDentry.toNat ≤ p)
    (hp' : p < 4294967296) (c : ListCall) :
    directoryRead img c.d (seek f p) c.buf c.n c.mem = (0, seek f p, c.mem) := by
  have hpos : (seek f p).pos.toNat = p := by
    show (BitVec.ofNat 32 p).toNat = p
    rw [BitVec.toNat_ofNat]
    omega
  have hread : readDentryByIndex img (seek f p).pos.toNat c.d = (-1, c.d) := by
    unfold readDentryByIndex
    rw [hpos, if_pos hp]
  unfold directoryRead
  rw [hread]
  rfl

/-- **One call.** It lists its entry, unless the copy runs on. -/
theorem lists_iff {img : Image} {k : Nat} (hk : k < img.numDentry.toNat) (f : File) (c : ListCall) :
    Lists img f k c (directoryRead img c.d (seek f k) c.buf c.n c.mem) ↔ ¬ Leaks img k c := by
  obtain ⟨hbytes, hnext⟩ := readDentryByIndex_bytes hk c.d
  have hlen : (storedName img k).length ≤ fnameMaxLen := upToNul_length_le _ _ _
  have hzero : 0 ∉ storedName img k := zero_not_mem_upToNul _ _ _
  rw [directoryRead_entry hk f c]
  have hbuf : ∀ i, i < c.n.toNat → memcpy c.mem c.buf (strncpy (fun i => c.mem (c.buf + i))
      (readDentryByIndex img k c.d).2.bytes c.n.toNat) c.n.toNat (c.buf + i)
        = (upToNul (readDentryByIndex img k c.d).2.bytes c.n.toNat 0).getD i 0 := by
    intro i hi
    rw [memcpy_apply, if_pos (by omega), Nat.add_sub_cancel_left, strncpy_apply, if_pos hi]
  constructor
  · rintro hlist ⟨hfull, hmore, hne⟩
    -- the name has no NUL in it, and the type none where it starts
    have hno : ∀ j, j ≤ fnameMaxLen → (readDentryByIndex img k c.d).2.bytes j ≠ 0 := by
      intro j hj
      by_cases hj32 : j < fnameMaxLen
      · rw [hbytes j hj32]
        unfold cstr
        rw [List.getD_eq_getElem _ _ (by omega)]
        exact fun h0 => hzero (h0 ▸ List.getElem_mem _)
      · obtain rfl : j = fnameMaxLen := by omega
        rw [hnext]
        exact hne
    have hname := hlist.name fnameMaxLen hmore
    dsimp only at hname
    rw [hbuf _ hmore, upToNul_getD hmore hno, hnext,
      List.getD_eq_default _ _ (by rw [List.length_take]; omega)] at hname
    exact hne hname
  · intro hleak
    refine ⟨rfl, rfl, ?_, ?_⟩
    · intro i hi
      dsimp only
      rw [hbuf i hi, upToNul_of_reads hzero fun j hj hjl => ?_]
      by_cases hj32 : j < fnameMaxLen
      · exact hbytes j hj32
      · obtain rfl : j = fnameMaxLen := by omega
        have hend : (img.ftype k).extractLsb' 0 8 = 0 := by
          by_contra hne
          exact hleak ⟨by omega, hj, hne⟩
        rw [hnext, hend]
        unfold cstr
        rw [List.getD_eq_default _ _ hlen]
    · intro a ha
      dsimp only
      rw [memcpy_apply, if_neg (by omega)]

/-- The position before call `k` is `k`, up to the number of entries. -/
theorem directoryReads_getElem {img : Image} {f : File} : ∀ (cs : List ListCall) (p k : Nat),
    p ≤ img.numDentry.toNat → (directoryReads img (seek f p) cs)[k]? = (cs[k]?).map fun c =>
      directoryRead img c.d (seek f (Min.min (p + k) img.numDentry.toNat)) c.buf c.n c.mem := by
  intro cs
  induction cs with
  | nil => intro p k _; rfl
  | cons c cs ih =>
      intro p k hp
      have hnum : img.numDentry.toNat < 4294967296 := img.numDentry.isLt
      cases k with
      | zero =>
          rw [Nat.add_zero, Nat.min_eq_left hp]
          rfl
      | succ k =>
          show (directoryReads img
            (directoryRead img c.d (seek f p) c.buf c.n c.mem).2.1 cs)[k]? = _
          rw [List.getElem?_cons_succ]
          rcases Nat.lt_or_eq_of_le hp with hlt | heq
          · rw [directoryRead_entry hlt]
            dsimp only
            rw [ih (p + 1) k hlt, Nat.add_assoc, Nat.add_comm 1 k]
          · rw [directoryRead_end (Nat.le_of_eq heq.symm) (by omega)]
            dsimp only
            rw [ih p k hp, Nat.min_eq_right (by omega), Nat.min_eq_right (by omega)]

/--
**When listing a directory lists the names.** For every image and every sequence of
`directory_read`s on a freshly opened directory: each call returns its size and the
name of the next entry, cut or padded to the size, and every call after the last
entry returns `0` and changes nothing — exactly if no call asks for more than 32
bytes of a name that fills its field, in an entry whose type does not start with a
NUL.
-/
theorem directory_enumeration_iff (img : Image) (f : File) (cs : List ListCall) :
    Enumerates img f cs ↔
      ∀ k c, cs[k]? = some c → k < img.numDentry.toNat → ¬ Leaks img k c := by
  have hnum : img.numDentry.toNat < 4294967296 := img.numDentry.isLt
  constructor
  · intro henum k c hc hk
    have hr := directoryReads_getElem (f := f) cs 0 k (Nat.zero_le img.numDentry.toNat)
    rw [hc, Option.map_some, Nat.zero_add, Nat.min_eq_left (Nat.le_of_lt hk)] at hr
    exact (lists_iff hk f c).mp ((henum k c _ hc hr).1 hk)
  · intro hleak k c r hc hr
    rw [directoryReads_getElem cs 0 k (Nat.zero_le _), hc, Option.map_some, Nat.zero_add] at hr
    cases hr
    constructor
    · intro hk
      rw [Nat.min_eq_left (Nat.le_of_lt hk)]
      exact (lists_iff hk f c).mpr (hleak k c hc hk)
    · intro hk
      rw [Nat.min_eq_right hk]
      exact directoryRead_end (Nat.le_refl _) hnum c

/-- One call on a disk whose only name is short. -/
theorem directory_enumeration_short :
    Enumerates (oneFile [0x61] [1]) .zero [⟨0, 33, fun _ => 1, someLocals.d⟩] := by
  refine (directory_enumeration_iff _ _ _).mpr ?_
  intro k c _ hk hleak
  have hnum : (oneFile [0x61] [1]).numDentry.toNat = 1 := by decide
  obtain rfl : k = 0 := by omega
  exact absurd hleak.1 (by decide)

/-- A name of 32 bytes, with room for one more: the type of the file comes out behind it. -/
theorem directory_read_copies_type :
    (directoryRead fullName someLocals.d (seek .zero 0) 0 33 (fun _ => 1)).2.2 32 = 2 ∧
      ¬ Enumerates fullName .zero [⟨0, 33, fun _ => 1, someLocals.d⟩] := by
  have hbyte :
      (directoryRead fullName someLocals.d (seek .zero 0) 0 33 (fun _ => 1)).2.2 32 = 2 := by
    decide +kernel
  refine ⟨hbyte, ?_⟩
  intro henum
  have hlist := (henum 0 _ _ rfl rfl).1 (by decide)
  have hname : (directoryRead fullName someLocals.d (seek .zero 0) 0 33 (fun _ => 1)).2.2 (0 + 32)
      = ((storedName fullName 0).take 33).getD 32 0 := hlist.name 32 (by decide)
  rw [Nat.zero_add, hbyte] at hname
  exact absurd hname (by decide)

end Zbiggie.Proof
