import Mathlib.Data.Fintype.Card
import Mathlib.Data.List.Basic
import Zbiggie.User.Blink

/-!
# The list of blinking characters is a list of lamps

What the fish keeps on its list is, seen from the screen, a row of lamps: each is
lit for so many ticks, dark for so many, and changes one cell when it switches.
The code keeps it in an array of structures linked by indices, counts down in
sixteen bits with a signed test, and recognises a free entry by its location.

The two agree over every run in which no character is put at location `0`, the
value that also means free: each request and each tick returns, answers what the
lamps say, and leaves the structures linked exactly as the lamps are listed.
-/

namespace Zbiggie

open Machine

/-- A blinking character. -/
structure Lamp where
  location : BitVec 16
  onChar : Byte
  offChar : Byte
  /-- Ticks it stays lit, and dark. -/
  onFor : Nat
  offFor : Nat
  lit : Bool
  /-- Ticks until it switches. -/
  left : Nat
  deriving DecidableEq, Repr

namespace Lamp

/-- The cell of its character. -/
def cell (l : Lamp) : Nat := 2 * l.location.toNat

/-- What that cell ought to show. -/
def shows (l : Lamp) : Byte := if l.lit then l.onChar else l.offChar

def tick (l : Lamp) : Lamp :=
  if 1 < l.left then { l with left := l.left - 1 }
  else { l with lit := !l.lit, left := if l.lit then l.offFor else l.onFor }

/-- The screen after the tick: the cell changes only when the lamp does. -/
def draw (m : Mem) (l : Lamp) : Mem := if 1 < l.left then m else store m l.cell l.tick.shows

/-- The lamp brought into step with another. -/
def inStepWith (l a : Lamp) : Lamp :=
  { l with onFor := a.onFor, offFor := a.offFor, lit := a.lit, left := a.left }

end Lamp

/-- The lamps, the last added first, and the screen. -/
structure Lamps where
  lamps : List Lamp
  screen : Mem

namespace Lamps

/-- The first lamp listed at a location. -/
def at? (m : Lamps) (location : BitVec 16) : Option Lamp :=
  m.lamps.find? fun l => l.location = location

/-- `l` for the first lamp listed at its location. -/
def set (m : Lamps) (l : Lamp) : List Lamp :=
  m.lamps.replaceF fun l' => if l'.location = l.location then some l else none

end Lamps

/-- How many ticks a countdown of `w` lasts: the test is signed, and made after the count. -/
def span (w : BitVec 16) : Nat := if 1 ≤ w.toNat ∧ w.toNat ≤ 32768 then w.toNat else 1

/-- The lamp a new structure stands for. -/
def BlinkStruct.fresh (b : BlinkStruct) : Lamp :=
  ⟨b.location, b.onChar, b.offChar, span b.onLength, span b.offLength, true, span b.onLength⟩

/-- What each request does to the lamps, and what it answers. -/
def Lamps.op (m : Lamps) : FishOp → (Int × Option Lamp) × Lamps
  | .add b =>
      if 2000 ≤ b.location.toNat ∨ 2000 ≤ m.lamps.length then ((-1, none), m)
      else ((0, none), ⟨b.fresh :: m.lamps, store m.screen b.fresh.cell b.onChar⟩)
  | .remove arg =>
      match m.at? (arg.setWidth 16) with
      | none => ((-1, none), m)
      | some _ =>
          ((0, none), { m with lamps := m.lamps.eraseP fun l => l.location = arg.setWidth 16 })
  | .find location => ((if (m.at? location).isSome then 0 else -1, m.at? location), m)
  | .sync arg =>
      match m.at? ((arg >>> 16).setWidth 16), m.at? (arg.setWidth 16) with
      | some a, some l => ((0, none), ⟨m.set (l.inStepWith a), store m.screen l.cell l.offChar⟩)
      | _, _ => ((-1, none), m)
  | .tick => ((0, none), ⟨m.lamps.map Lamp.tick, m.lamps.foldl Lamp.draw m.screen⟩)

/-- One request after another. -/
def Lamps.runOps (m : Lamps) : List FishOp → List (Int × Option Lamp) × Lamps
  | [] => ([], m)
  | op :: ops => (((m.op op).1 :: ((m.op op).2.runOps ops).1), ((m.op op).2.runOps ops).2)

section Requests

variable {m : Lamps} {arg : Word}

theorem Lamps.op_remove_none (h : m.at? (arg.setWidth 16) = none) :
    m.op (.remove arg) = ((-1, none), m) := by
  simp only [op, h]

theorem Lamps.op_remove_some {l : Lamp} (h : m.at? (arg.setWidth 16) = some l) :
    m.op (.remove arg) =
      ((0, none), { m with lamps := m.lamps.eraseP fun l => l.location = arg.setWidth 16 }) := by
  simp only [op, h]

theorem Lamps.op_sync_some {a l : Lamp} (ha : m.at? ((arg >>> 16).setWidth 16) = some a)
    (hl : m.at? (arg.setWidth 16) = some l) : m.op (.sync arg) =
      ((0, none), ⟨m.set (l.inStepWith a), store m.screen l.cell l.offChar⟩) := by
  simp only [op, ha, hl]

theorem Lamps.op_sync_none
    (h : m.at? ((arg >>> 16).setWidth 16) = none ∨ m.at? (arg.setWidth 16) = none) :
    m.op (.sync arg) = ((-1, none), m) := by
  rcases h with h | h
  · simp only [op, h]
  · simp only [op, h]
    cases m.at? ((arg >>> 16).setWidth 16) <;> rfl

end Requests

/-! ## One structure, one lamp -/

/-- The lamp a listed structure stands for. -/
def BlinkStruct.lamp (b : BlinkStruct) : Lamp :=
  ⟨b.location, b.onChar, b.offChar, span b.onLength, span b.offLength, b.status &&& 1 ≠ 0,
    span b.countdown⟩

/-- The structure after its round of the tick. -/
def BlinkStruct.ticked (b : BlinkStruct) : BlinkStruct :=
  if 0 < (b.countdown - 1).toInt then { b with countdown := b.countdown - 1 }
  else if b.status &&& 1 = 0 then { b with countdown := b.onLength, status := b.status ^^^ 1 }
  else { b with countdown := b.offLength, status := b.status ^^^ 1 }

@[simp] theorem BlinkStruct.ticked_next (b : BlinkStruct) : b.ticked.next = b.next := by
  unfold ticked
  split
  · rfl
  · split <;> rfl

@[simp] theorem BlinkStruct.ticked_location (b : BlinkStruct) : b.ticked.location = b.location := by
  unfold ticked
  split
  · rfl
  · split <;> rfl

theorem toNat_decw (w : BitVec 16) : (w - 1).toNat = (65535 + w.toNat) % 65536 :=
  BitVec.toNat_sub w 1

/-- The signed test of the decremented count asks whether ticks are left. -/
theorem span_test (w : BitVec 16) : 0 < (w - 1).toInt ↔ 1 < span w := by
  have hlt := w.isLt
  rw [BitVec.toInt_eq_toNat_cond, toNat_decw]
  unfold span
  split <;> split <;> omega

theorem span_pred {w : BitVec 16} (h : 1 < span w) : span (w - 1) = span w - 1 := by
  have hlt := w.isLt
  unfold span at h ⊢
  rw [toNat_decw]
  split at h
  · rw [if_pos (by omega), if_pos (by omega)]
    omega
  · omega

theorem one_le_span (w : BitVec 16) : 1 ≤ span w := by
  unfold span
  split <;> omega

theorem status_flip (w : BitVec 16) : (w ^^^ 1) &&& 1 = 0 ↔ ¬ w &&& 1 = 0 := by
  have hbit : ∀ v : BitVec 16, v &&& 1 = 0 ↔ v.toNat % 2 = 0 := by
    intro v
    rw [← BitVec.toNat_inj, BitVec.toNat_and]
    exact iff_of_eq (congrArg (· = 0) (Nat.and_one_is_mod v.toNat))
  rw [hbit, hbit, BitVec.toNat_xor]
  have hone : (w.toNat ^^^ 1) % 2 = 1 ↔ ¬ (w.toNat % 2 = 1 ↔ 1 % 2 = 1) :=
    Nat.xor_mod_two_eq_one
  show (w.toNat ^^^ 1) % 2 = 0 ↔ _
  omega

theorem BlinkStruct.ticked_lamp (b : BlinkStruct) : b.ticked.lamp = b.lamp.tick := by
  unfold ticked Lamp.tick
  by_cases hleft : 1 < span b.countdown
  · rw [if_pos ((span_test _).mpr hleft), if_pos (show 1 < b.lamp.left from hleft)]
    simp only [lamp, span_pred hleft]
  · rw [if_neg (fun h => hleft ((span_test _).mp h)), if_neg (show ¬ 1 < b.lamp.left from hleft)]
    by_cases hlit : b.status &&& 1 = 0
    · have hflip : ¬ (b.status ^^^ 1) &&& 1 = 0 := fun h => (status_flip _).mp h hlit
      rw [if_pos hlit]
      simp only [lamp, ne_eq, hlit, hflip, not_true, not_false_iff, decide_true, decide_false,
        Bool.not_false, Bool.false_eq_true, if_false]
    · have hflip : (b.status ^^^ 1) &&& 1 = 0 := (status_flip _).mpr hlit
      rw [if_neg hlit]
      simp only [lamp, ne_eq, hlit, hflip, not_true, not_false_iff, decide_true, decide_false,
        Bool.not_true, if_true]

namespace Fish

/-- One round of the tick, as a lamp sees it. -/
theorem taskletRound_eq (s : Fish) (i : Slot) :
    s.taskletRound i = ⟨Function.update s.blinkArray i (s.blinkArray i).ticked, s.mp1ListHead,
      Lamp.draw s.vmem (s.blinkArray i).lamp⟩ := by
  have hcell : (s.blinkArray i).location.toNat <<< 1 = (s.blinkArray i).lamp.cell := by
    rw [Nat.shiftLeft_eq, Nat.mul_comm]
    rfl
  have hshows : (s.blinkArray i).lamp.tick.shows = (s.blinkArray i).ticked.lamp.shows := by
    rw [BlinkStruct.ticked_lamp]
  unfold taskletRound Lamp.draw
  by_cases hleft : 1 < span (s.blinkArray i).countdown
  · have htest := (span_test _).mpr hleft
    simp only [htest, if_true, BlinkStruct.ticked, show 1 < (s.blinkArray i).lamp.left from hleft]
    rfl
  · have htest : ¬ 0 < ((s.blinkArray i).countdown - 1).toInt := fun h => hleft ((span_test _).mp h)
    rw [if_neg (show ¬ 1 < (s.blinkArray i).lamp.left from hleft), hshows]
    simp only [htest, if_false, BlinkStruct.ticked, hcell]
    by_cases hlit : (s.blinkArray i).status &&& 1 = 0
    · have hflip : ¬ ((s.blinkArray i).status ^^^ 1) &&& 1 = 0 :=
        fun h => (status_flip _).mp h hlit
      rw [if_pos hlit, if_pos hlit]
      simp only [Lamp.shows, BlinkStruct.lamp, ne_eq, hflip, not_false_iff, decide_true, if_true]
      rfl
    · have hflip : ((s.blinkArray i).status ^^^ 1) &&& 1 = 0 := (status_flip _).mpr hlit
      rw [if_neg hlit, if_neg hlit]
      simp only [Lamp.shows, BlinkStruct.lamp, ne_eq, hflip, not_true, decide_false,
        Bool.false_eq_true, if_false]
      rfl

theorem taskletRound_links (s : Fish) (i : Slot) : (s.taskletRound i).links = s.links := by
  funext j
  rw [taskletRound_eq]
  unfold links
  by_cases hj : j = i
  · subst hj
    simp
  · simp [hj]

/-- All rounds of the tick, over nodes without a repetition. -/
theorem foldl_taskletRound : ∀ {L : List Slot} (_ : L.Nodup) (s : Fish),
    L.foldl taskletRound s = ⟨fun i => if i ∈ L then (s.blinkArray i).ticked else s.blinkArray i,
      s.mp1ListHead, (L.map fun i => (s.blinkArray i).lamp).foldl Lamp.draw s.vmem⟩ := by
  intro L
  induction L with
  | nil => intro _ s; simp
  | cons a L ih =>
      intro hnd s
      obtain ⟨ha, hnd⟩ := List.nodup_cons.mp hnd
      rw [List.foldl_cons, ih hnd, taskletRound_eq]
      have hmap : (L.map fun i => (Function.update s.blinkArray a (s.blinkArray a).ticked i).lamp)
          = L.map fun i => (s.blinkArray i).lamp := by
        refine List.map_congr_left ?_
        intro i hi
        have hia : i ≠ a := by
          rintro rfl
          exact ha hi
        rw [Function.update_of_ne hia]
      simp only [hmap, List.map_cons, List.foldl_cons, mk.injEq, and_true]
      funext i
      by_cases hia : i = a
      · subst hia
        simp [ha]
      · simp [hia]

/-! ## The allocator -/

theorem mallocFrom_some (s : Fish) {i : Slot} : ∀ {fuel j : Nat},
    mallocFrom s fuel j = some i → (s.blinkArray i).location = 0 := by
  intro fuel
  induction fuel with
  | zero => intro j h; cases h
  | succ fuel ih =>
      intro j h
      rw [mallocFrom] at h
      split at h
      · split at h
        · rename_i hfree
          cases h
          exact hfree
        · exact ih h
      · cases h

theorem mallocFrom_none (s : Fish) : ∀ {fuel j : Nat}, mallocFrom s fuel j = none →
    ∀ i : Slot, j ≤ i → (i : Nat) < j + fuel → (s.blinkArray i).location ≠ 0 := by
  intro fuel
  induction fuel with
  | zero => intro j _ i h1 h2; omega
  | succ fuel ih =>
      intro j h i h1 h2
      have hj : j < 2000 := by omega
      rw [mallocFrom, dif_pos hj] at h
      split at h
      · cases h
      · rename_i hused
        rcases Nat.lt_or_eq_of_le h1 with hlt | heq
        · exact ih h i hlt (by omega)
        · have : i = ⟨j, hj⟩ := Fin.ext heq.symm
          rwa [this]

/-- What the allocator hands out is free; it hands out nothing only when nothing is. -/
theorem mp1Malloc_spec (s : Fish) :
    (∃ i, s.mp1Malloc = some i ∧ (s.blinkArray i).location = 0) ∨
      (s.mp1Malloc = none ∧ ∀ i, (s.blinkArray i).location ≠ 0) := by
  cases h : s.mp1Malloc with
  | some i => exact .inl ⟨i, rfl, mallocFrom_some s h⟩
  | none => exact .inr ⟨rfl, fun i => mallocFrom_none s h i (Nat.zero_le _) (by omega)⟩

/-! ## Structures and lamps -/

/-- The list in the array is the list of lamps, and what is not on it is free. -/
structure Shows (s : Fish) (m : Lamps) : Prop where
  nodes : ∃ L, Chain s.links s.mp1ListHead L ∧ m.lamps = L.map (fun i => (s.blinkArray i).lamp) ∧
    ∀ i, i ∈ L ↔ (s.blinkArray i).location ≠ 0
  screen : s.vmem = m.screen

theorem start_shows (vmem : Mem) : (start vmem).Shows ⟨[], vmem⟩ :=
  ⟨⟨[], .null, rfl, fun i => by simp [start, BlinkStruct.zero]⟩, rfl⟩

/-- The list, with what follows from its being one. -/
theorem Shows.chain {s : Fish} {m : Lamps} (h : s.Shows m) : ∃ L,
    Chain s.links s.mp1ListHead L ∧ m.lamps = L.map (fun i => (s.blinkArray i).lamp) ∧
    (∀ i, i ∈ L ↔ (s.blinkArray i).location ≠ 0) ∧ L.Nodup ∧ L.length ≤ 2000 := by
  obtain ⟨L, hc, hl, hmem⟩ := h.nodes
  have hcard := hc.nodup.length_le_card
  rw [Fintype.card_fin] at hcard
  exact ⟨L, hc, hl, hmem, hc.nodup, hcard⟩

section Step

variable {s : Fish} {m : Lamps} {fuel : Nat}

/-- The search finds the structure of the first lamp at the location, and comes to an end. -/
theorem Shows.find_helper (h : s.Shows m) (hf : 2000 ≤ fuel) (loc : BitVec 16) :
    (s.mp1FindHelper fuel loc = some none ∧ m.at? loc = none) ∨
      ∃ L₁ t L₂, Chain s.links s.mp1ListHead (L₁ ++ t :: L₂) ∧
        m.lamps = (L₁ ++ t :: L₂).map (fun i => (s.blinkArray i).lamp) ∧
        (∀ i, i ∈ L₁ ++ t :: L₂ ↔ (s.blinkArray i).location ≠ 0) ∧
        (∀ i ∈ L₁, (s.blinkArray i).location ≠ loc) ∧ (s.blinkArray t).location = loc ∧
        L₁.length < fuel ∧ s.mp1FindHelper fuel loc = some (some t) ∧
        m.at? loc = some (s.blinkArray t).lamp := by
  obtain ⟨L, hc, hl, hmem, -, hlen⟩ := h.chain
  have hseek := seek_chain (fun i => decide ((s.blinkArray i).location = loc)) hc
    (Nat.le_trans hlen hf)
  have hat : m.at? loc = (L.find? fun i => decide ((s.blinkArray i).location = loc)).map
      fun i => (s.blinkArray i).lamp := by
    unfold Lamps.at?
    rw [hl, List.find?_map]
    rfl
  cases hfind : L.find? fun i => decide ((s.blinkArray i).location = loc) with
  | none =>
      refine .inl ⟨?_, ?_⟩
      · rw [← hfind]
        exact hseek
      · rw [hat, hfind]
        rfl
  | some t =>
      obtain ⟨hloc, L₁, L₂, rfl, hno⟩ := List.find?_eq_some_iff_append.mp hfind
      rw [List.length_append, List.length_cons] at hlen
      refine .inr ⟨L₁, t, L₂, hc, hl, hmem, ?_, by simpa using hloc, by omega, ?_, ?_⟩
      · intro i hi
        simpa using hno i hi
      · rw [← hfind]
        exact hseek
      · rw [hat, hfind]
        rfl

/-- The structure an addition writes. -/
def added (s : Fish) (b : BlinkStruct) : BlinkStruct :=
  { b with status := 1, countdown := b.onLength, next := s.mp1ListHead }

/-- What an addition leaves, once the allocator has found an entry. -/
theorem mp1IoctlAdd_some {b : BlinkStruct} {i : Slot} (hloc : ¬ 2000 ≤ b.location.toNat)
    (hmal : s.mp1Malloc = some i) : s.mp1IoctlAdd b =
      (0, ⟨Function.update s.blinkArray i (s.added b), some i,
        store s.vmem b.fresh.cell b.onChar⟩) := by
  have hcell : b.location.toNat <<< 1 = b.fresh.cell := by
    rw [Nat.shiftLeft_eq, Nat.mul_comm]
    rfl
  unfold mp1IoctlAdd
  rw [if_neg hloc, hmal, ← hcell]
  rfl

/-- A new character, at a location other than `0`. -/
theorem Shows.add (h : s.Shows m) {b : BlinkStruct} (h0 : b.location ≠ 0) :
    (s.mp1IoctlAdd b).1 = (m.op (.add b)).1.1 ∧
      (s.mp1IoctlAdd b).2.Shows (m.op (.add b)).2 := by
  obtain ⟨L, hc, hl, hmem, hnd, hlen⟩ := h.chain
  have hmlen : m.lamps.length = L.length := by rw [hl, List.length_map]
  by_cases hbig : 2000 ≤ b.location.toNat
  · rw [mp1IoctlAdd, if_pos hbig, Lamps.op, if_pos (.inl hbig)]
    exact ⟨rfl, h⟩
  · rcases s.mp1Malloc_spec with ⟨i, hmal, hfree⟩ | ⟨hmal, hfull⟩
    · -- the entry handed out is not on the list, so there was room
      have hi : i ∉ L := fun hi => (hmem i).mp hi hfree
      have hroom := (List.nodup_cons.mpr ⟨hi, hnd⟩).length_le_card
      rw [Fintype.card_fin, List.length_cons] at hroom
      rw [mp1IoctlAdd_some hbig hmal, Lamps.op, if_neg (by omega)]
      refine ⟨rfl, ⟨i :: L, ?_, ?_, ?_⟩, ?_⟩
      · refine (hc.push hi).congr ?_
        intro j _
        by_cases hj : j = i
        · subst hj
          simp [links, added]
        · simp [links, hj]
      · rw [List.map_cons, hl]
        refine List.cons_eq_cons.mpr ⟨?_, ?_⟩
        · simp [added, BlinkStruct.lamp, BlinkStruct.fresh]
        · refine List.map_congr_left ?_
          intro j hj
          have hji : j ≠ i := by
            rintro rfl
            exact hi hj
          simp [hji]
      · intro j
        by_cases hj : j = i
        · subst hj
          simpa [added] using h0
        · simp [hj, hmem]
      · show store s.vmem _ _ = _
        rw [h.screen]
    · have hall : 2000 ≤ L.length := by
        have hsub : (List.finRange 2000).Subperm L :=
          (List.nodup_finRange 2000).subperm fun i _ => (hmem i).mpr (hfull i)
        have hle := hsub.length_le
        rwa [List.length_finRange] at hle
      rw [mp1IoctlAdd, if_neg hbig, hmal, Lamps.op, if_pos (by omega)]
      exact ⟨rfl, h⟩

/-- Writing a link changes no lamp. -/
theorem putLink_same (s : Fish) (l v : Option Slot) (i : Slot) :
    ((s.putLink l v).blinkArray i).lamp = (s.blinkArray i).lamp ∧
      ((s.putLink l v).blinkArray i).location = (s.blinkArray i).location := by
  cases l with
  | none => exact ⟨rfl, rfl⟩
  | some a =>
      by_cases hi : i = a
      · subst hi
        simp [putLink, put, BlinkStruct.lamp]
      · simp [putLink, put, hi]

/-- The list with `t` linked out, wherever the link that led to it lies. -/
theorem putLink_chain {L₁ L₂ : List Slot} {t : Slot}
    (h : Chain s.links s.mp1ListHead (L₁ ++ t :: L₂)) :
    Chain (s.putLink ((none :: L₁.map some).getLast (by simp)) (s.links t)).links
      (s.putLink ((none :: L₁.map some).getLast (by simp)) (s.links t)).mp1ListHead
      (L₁ ++ L₂) := by
  rcases List.eq_nil_or_concat' L₁ with rfl | ⟨L₁, a, rfl⟩
  · generalize hp : s.mp1ListHead = p at h
    cases h with
    | node h => exact h
  · have hlast : (none :: (L₁ ++ [a]).map some).getLast (by simp) = some a := by simp
    rw [List.append_assoc, List.singleton_append] at h
    rw [hlast, List.append_assoc, List.singleton_append]
    refine h.unlink.congr ?_
    intro j _
    by_cases hj : j = a
    · subst hj
      simp [putLink, put, links]
    · simp [putLink, put, links, hj]

/-- A removal. -/
theorem Shows.remove (h : s.Shows m) (hf : 2000 ≤ fuel) (arg : Word) :
    ∃ s', s.mp1IoctlRemove fuel arg = some ((m.op (.remove arg)).1.1, s') ∧
      s'.Shows (m.op (.remove arg)).2 := by
  unfold mp1IoctlRemove
  rcases h.find_helper hf (arg.setWidth 16) with ⟨hnone, hat⟩ |
    ⟨L₁, t, L₂, hc, hl, hmem, hno, hloc, hlen, hsome, hat⟩
  · rw [hnone, Lamps.op_remove_none hat]
    exact ⟨s, rfl, h⟩
  · have hnd := hc.nodup
    have ht : t ∉ L₁ ++ L₂ := (List.nodup_cons.mp (List.nodup_middle.mp hnd)).1
    have hlink := seekLink_chain (fun hm => ht (List.mem_append_left _ hm)) hlen
      (show Chain s.links (linkAt s.links s.mp1ListHead none) _ from hc)
    rw [hsome, Lamps.op_remove_some hat]
    simp only [hlink]
    refine ⟨_, rfl, ⟨L₁ ++ L₂, ?_, ?_, ?_⟩, ?_⟩
    · refine (putLink_chain hc).congr ?_
      intro j hj
      have hjt : j ≠ t := by
        rintro rfl
        exact ht hj
      simp [mp1Free, put, links, hjt]
    · have herase : m.lamps.eraseP (fun l => l.location = arg.setWidth 16) =
          (L₁ ++ L₂).map fun i => (s.blinkArray i).lamp := by
        rw [hl, List.map_append, List.map_cons, List.eraseP_append_right,
          List.eraseP_cons_of_pos, List.map_append]
        · simpa [BlinkStruct.lamp] using hloc
        · intro l hm
          obtain ⟨i, hi, rfl⟩ := List.mem_map.mp hm
          simpa [BlinkStruct.lamp] using hno i hi
      refine herase.trans (List.map_congr_left ?_)
      intro j hj
      have hjt : j ≠ t := by
        rintro rfl
        exact ht hj
      simp [mp1Free, put, hjt, putLink_same]
    · intro j
      by_cases hj : j = t
      · subst hj
        simpa [mp1Free, put, BlinkStruct.zero] using ht
      · have hiff := hmem j
        simp only [List.mem_append, List.mem_cons, hj, false_or] at hiff
        simpa [mp1Free, put, hj, putLink_same] using hiff
    · have hv :
          (s.putLink ((none :: L₁.map some).getLast (by simp)) (s.links t)).vmem = s.vmem := by
        cases (none :: L₁.map some).getLast (by simp) <;> rfl
      exact hv.trans h.screen

/-- The first lamp at a location replaced, as the array has it. -/
theorem set_eq {L₁ L₂ : List Slot} {t : Slot} {l : Lamp}
    (hl : m.lamps = (L₁ ++ t :: L₂).map (fun i => (s.blinkArray i).lamp))
    (hno : ∀ i ∈ L₁, (s.blinkArray i).location ≠ l.location)
    (ht : (s.blinkArray t).location = l.location) :
    m.set l = L₁.map (fun i => (s.blinkArray i).lamp) ++
      l :: L₂.map (fun i => (s.blinkArray i).lamp) := by
  unfold Lamps.set
  rw [hl]
  clear hl
  induction L₁ with
  | nil =>
      have hhere :
          (if (s.blinkArray t).lamp.location = l.location then some l else none) = some l :=
        if_pos ht
      rw [List.nil_append, List.map_cons, List.replaceF_cons_of_some _ hhere]
      rfl
  | cons a L₁ ih =>
      rw [List.cons_append, List.map_cons, List.replaceF_cons_of_none]
      · rw [ih fun i hi => hno i (List.mem_cons_of_mem a hi)]
        rfl
      · exact if_neg (hno a List.mem_cons_self)

/-- A synchronisation; the cell is redrawn dark whether the lamp is or not. -/
theorem Shows.sync (h : s.Shows m) (hf : 2000 ≤ fuel) (arg : Word) :
    ∃ s', s.mp1IoctlSync fuel arg = some ((m.op (.sync arg)).1.1, s') ∧
      s'.Shows (m.op (.sync arg)).2 := by
  have hlow : (arg &&& 0xFFFF).setWidth 16 = arg.setWidth 16 := by
    rw [BitVec.setWidth_and]
    exact BitVec.and_allOnes
  unfold mp1IoctlSync
  rw [hlow]
  -- the character to copy from is looked up first, then the one to copy to
  rcases h.find_helper hf ((arg >>> 16).setWidth 16) with ⟨hnone, hat⟩ |
    ⟨-, a, -, -, -, -, -, -, -, hsa, hata⟩
  · rw [hnone, Lamps.op_sync_none (.inl hat)]
    exact ⟨s, rfl, h⟩
  rcases h.find_helper hf (arg.setWidth 16) with ⟨hnone, hat⟩ |
    ⟨L₁, t, L₂, hc, hl, hmem, hno, hloc, -, hst, hatt⟩
  · rw [hsa, hnone, Lamps.op_sync_none (.inr hat)]
    exact ⟨s, rfl, h⟩
  have hnd := hc.nodup
  have ht : t ∉ L₁ ++ L₂ := (List.nodup_cons.mp (List.nodup_middle.mp hnd)).1
  rw [hsa, hst, Lamps.op_sync_some hata hatt]
  refine ⟨_, rfl, ⟨L₁ ++ t :: L₂, ?_, ?_, ?_⟩, ?_⟩
  · refine hc.congr ?_
    intro j _
    by_cases hj : j = t
    · subst hj
      simp [mp1Poke, put, links]
    · simp [mp1Poke, put, links, hj]
  · have hset := set_eq (m := m) (l := (s.blinkArray t).lamp.inStepWith (s.blinkArray a).lamp) hl
      (fun i hi => by simpa [Lamp.inStepWith, BlinkStruct.lamp, hloc] using hno i hi) rfl
    refine hset.trans ?_
    rw [List.map_append, List.map_cons]
    have hsame : ∀ i ∈ L₁ ++ L₂, i ≠ t := by
      rintro i hi rfl
      exact ht hi
    congr 1
    · refine List.map_congr_left ?_
      intro i hi
      simp [mp1Poke, put, hsame i (List.mem_append_left _ hi)]
    · refine List.cons_eq_cons.mpr ⟨?_, List.map_congr_left ?_⟩
      · simp [mp1Poke, put, BlinkStruct.lamp, Lamp.inStepWith]
      · intro i hi
        simp [mp1Poke, put, hsame i (List.mem_append_right _ hi)]
  · intro j
    rw [hmem]
    by_cases hj : j = t
    · subst hj
      simp [mp1Poke, put]
    · simp [mp1Poke, put, hj]
  · have hcell : (s.blinkArray t).location.toNat <<< 1 = (s.blinkArray t).lamp.cell := by
      rw [Nat.shiftLeft_eq, Nat.mul_comm]
      rfl
    have hsf : ((s.blinkArray a).status.setWidth 8 &&& (1 : Byte)).msb = false := by
      rw [BitVec.msb_and]
      exact Bool.and_false _
    simp only [mp1Poke, put, Function.update_self, hsf, Bool.false_eq_true, if_false, hcell]
    rw [h.screen]
    rfl

/-- A search leaves everything as it is. -/
theorem Shows.find (h : s.Shows m) (hf : 2000 ≤ fuel) (loc : BitVec 16) :
    ∃ out, s.mp1IoctlFind fuel loc = some ((m.op (.find loc)).1.1, out) ∧
      out.map BlinkStruct.lamp = (m.op (.find loc)).1.2 := by
  unfold mp1IoctlFind
  simp only [Lamps.op]
  rcases h.find_helper hf loc with ⟨hnone, hat⟩ | ⟨-, t, -, -, -, -, -, -, -, hst, hatt⟩
  · rw [hnone, hat]
    exact ⟨none, rfl, rfl⟩
  · rw [hst, hatt]
    exact ⟨some (s.blinkArray t), rfl, rfl⟩

/-- A tick. -/
theorem Shows.tick (h : s.Shows m) (hf : 2000 ≤ fuel) :
    ∃ s', s.mp1RtcTasklet fuel = some s' ∧ s'.Shows (m.op .tick).2 := by
  obtain ⟨L, hc, hl, hmem, hnd, hlen⟩ := h.chain
  have hwalk := walk_chain taskletRound_links hc (Nat.le_trans hlen hf)
  rw [foldl_taskletRound hnd] at hwalk
  refine ⟨_, hwalk, ⟨L, ?_, ?_, ?_⟩, ?_⟩
  · refine hc.congr ?_
    intro i hi
    simp [links, hi]
  · show m.lamps.map Lamp.tick = _
    rw [hl, List.map_map]
    refine List.map_congr_left ?_
    intro i hi
    simp [hi, BlinkStruct.ticked_lamp]
  · intro i
    rw [hmem]
    by_cases hi : i ∈ L
    · simp [hi]
    · simp [hi]
  · show _ = m.lamps.foldl Lamp.draw m.screen
    rw [hl, h.screen]

end Step

end Fish

/-! ## Whole runs -/

/-- An addition names a location other than `0`. -/
def FishOp.NotZero : FishOp → Prop
  | .add b => b.location ≠ 0
  | _ => True

/-- What an answer says, in lamps. -/
def FishReply.seen (r : FishReply) : Int × Option Lamp := (r.eax, r.out.map BlinkStruct.lamp)

/-- **One step.** Every request and every tick returns, and does to the structures what it does
to the lamps. -/
theorem Fish.Shows.step {s : Fish} {m : Lamps} {fuel : Nat} (h : s.Shows m) (hf : 2000 ≤ fuel)
    {op : FishOp} (h0 : op.NotZero) :
    ∃ r s', op.run fuel s = some (r, s') ∧ r.seen = (m.op op).1 ∧ s'.Shows (m.op op).2 := by
  cases op with
  | add b =>
      obtain ⟨hret, hshows⟩ := h.add h0
      refine ⟨_, _, rfl, ?_, hshows⟩
      rw [FishReply.seen, hret]
      simp only [Lamps.op]
      split <;> rfl
  | remove arg =>
      obtain ⟨s', hrun, hshows⟩ := h.remove hf arg
      refine ⟨_, s', by rw [FishOp.run, hrun]; rfl, ?_, hshows⟩
      simp only [FishReply.seen, Lamps.op]
      split <;> rfl
  | find loc =>
      obtain ⟨out, hrun, hout⟩ := h.find hf loc
      refine ⟨_, s, by rw [FishOp.run, hrun]; rfl, ?_, h⟩
      rw [FishReply.seen, hout]
  | sync arg =>
      obtain ⟨s', hrun, hshows⟩ := h.sync hf arg
      refine ⟨_, s', by rw [FishOp.run, hrun]; rfl, ?_, hshows⟩
      simp only [FishReply.seen, Lamps.op]
      split <;> rfl
  | tick =>
      obtain ⟨s', hrun, hshows⟩ := h.tick hf
      exact ⟨_, s', by rw [FishOp.run, hrun]; rfl, rfl, hshows⟩

/-- **A whole run.** -/
theorem Fish.Shows.run {s : Fish} {m : Lamps} {fuel : Nat} (h : s.Shows m) (hf : 2000 ≤ fuel) :
    ∀ {ops : List FishOp}, (∀ op ∈ ops, op.NotZero) →
    ∃ rs s', s.runOps fuel ops = some (rs, s') ∧ rs.map FishReply.seen = (m.runOps ops).1 ∧
      s'.Shows (m.runOps ops).2 := by
  intro ops
  induction ops generalizing s m with
  | nil => intro _; exact ⟨[], s, rfl, rfl, h⟩
  | cons op ops ih =>
      intro h0
      obtain ⟨r, s', hrun, hr, hs⟩ := h.step hf (h0 op List.mem_cons_self)
      obtain ⟨rs, s'', hruns, hrs, hs'⟩ := ih hs fun o ho => h0 o (List.mem_cons_of_mem op ho)
      refine ⟨r :: rs, s'', ?_, ?_, hs'⟩
      · simp only [Fish.runOps, hrun, Option.bind_some, hruns, Option.map_some]
      · rw [List.map_cons, hr, hrs]
        rfl

/--
**The blink list is the list of lamps.** From the zeroed array, over any sequence of
additions, removals, searches, synchronisations and clock ticks that puts nothing at
location `0`: every one of them returns, the answers are those the lamps give, and at the
end the array holds the lamps in their order and the screen is theirs.
-/
theorem blink_list_refines_lamps (vmem : Mem) (ops : List FishOp) (h0 : ∀ op ∈ ops, op.NotZero) :
    ∃ rs s, (Fish.start vmem).runOps 2000 ops = some (rs, s) ∧
      rs.map FishReply.seen = (Lamps.runOps ⟨[], vmem⟩ ops).1 ∧
      s.Shows (Lamps.runOps ⟨[], vmem⟩ ops).2 :=
  (Fish.start_shows vmem).run (Nat.le_refl _) h0

/-- Two characters, the second brought into step with the first and the first then removed. -/
theorem blink_list_refines_lamps_two : ∃ rs s, (Fish.start fun _ => 0).runOps 2000
      [.add ⟨40, 0x49, 0x4D, 7, 6, 0, 0, none⟩, .tick, .add ⟨540, 0x41, 0x42, 1, 0, 0, 0, none⟩,
        .sync 0x0028021C, .tick, .remove 40, .find 540] = some (rs, s) ∧
    rs.map FishReply.seen = (Lamps.runOps ⟨[], fun _ => 0⟩
      [.add ⟨40, 0x49, 0x4D, 7, 6, 0, 0, none⟩, .tick, .add ⟨540, 0x41, 0x42, 1, 0, 0, 0, none⟩,
        .sync 0x0028021C, .tick, .remove 40, .find 540]).1 ∧
    s.Shows (Lamps.runOps ⟨[], fun _ => 0⟩
      [.add ⟨40, 0x49, 0x4D, 7, 6, 0, 0, none⟩, .tick, .add ⟨540, 0x41, 0x42, 1, 0, 0, 0, none⟩,
        .sync 0x0028021C, .tick, .remove 40, .find 540]).2 :=
  blink_list_refines_lamps (fun _ => 0) _ (by simp [FishOp.NotZero])

/-! ## Location `0` -/

/-- The allocator looks at the locations only. -/
theorem Fish.mp1Malloc_congr {s t : Fish}
    (h : ∀ i, (s.blinkArray i).location = (t.blinkArray i).location) :
    s.mp1Malloc = t.mp1Malloc := by
  have hfrom : ∀ fuel j, mallocFrom s fuel j = mallocFrom t fuel j := by
    intro fuel
    induction fuel with
    | zero => intro j; rfl
    | succ fuel ih =>
        intro j
        simp only [mallocFrom, h, ih]
  exact hfrom 2000 0

/--
**A character at location `0` does not keep its entry.** Whatever went before, once one has
been added there the next addition is handed the same entry again and links it to itself. In
the state the two leave no tick ends, and neither does the search for any location but that
of the second.
-/
theorem blink_zero_location_hangs (vmem : Mem) (ops : List FishOp) (b c : BlinkStruct)
    (h0 : ∀ op ∈ ops, op.NotZero) (hb : b.location = 0) (hc : c.location.toNat < 2000)
    (hroom : (Lamps.runOps ⟨[], vmem⟩ ops).2.lamps.length < 2000) :
    ∃ rs s t u i, (Fish.start vmem).runOps 2000 ops = some (rs, s) ∧
      (s.mp1Malloc = some i ∧ s.mp1IoctlAdd b = (0, t)) ∧
      (t.mp1Malloc = some i ∧ t.mp1IoctlAdd c = (0, u)) ∧
      u.mp1ListHead = some i ∧ u.links i = some i ∧
      (∀ fuel, u.mp1RtcTasklet fuel = none) ∧
      ∀ fuel loc, loc ≠ c.location → u.mp1FindHelper fuel loc = none := by
  obtain ⟨rs, s, hrun, -, hs⟩ := (Fish.start_shows vmem).run (Nat.le_refl 2000) h0
  obtain ⟨L, -, hl, hmem, -, -⟩ := hs.chain
  have hlen : L.length < 2000 := by rwa [hl, List.length_map] at hroom
  obtain ⟨i, hmal, hfree⟩ : ∃ i, s.mp1Malloc = some i ∧ (s.blinkArray i).location = 0 := by
    rcases s.mp1Malloc_spec with h | ⟨-, hfull⟩
    · exact h
    · have hsub : (List.finRange 2000).Subperm L :=
          (List.nodup_finRange 2000).subperm fun i _ => (hmem i).mpr (hfull i)
      have hle := hsub.length_le
      rw [List.length_finRange] at hle
      omega
  -- the entry is free again as far as the allocator can tell
  have hadd := Fish.mp1IoctlAdd_some (s := s) (b := b) (by rw [hb]; decide) hmal
  generalize ht : (⟨Function.update s.blinkArray i (s.added b), some i,
    store s.vmem b.fresh.cell b.onChar⟩ : Fish) = t at hadd
  have hmal' : t.mp1Malloc = some i := by
    rw [← hmal]
    refine Fish.mp1Malloc_congr fun j => ?_
    by_cases hj : j = i
    · subst hj
      simp [← ht, Fish.added, hb, hfree]
    · simp [← ht, hj]
  have hadd' := Fish.mp1IoctlAdd_some (s := t) (b := c) (by omega) hmal'
  generalize hu : (⟨Function.update t.blinkArray i (t.added c), some i,
    store t.vmem c.fresh.cell c.onChar⟩ : Fish) = u at hadd'
  have hhead : u.mp1ListHead = some i := by rw [← hu]
  have hself : u.links i = some i := by
    simp [← hu, ← ht, Fish.links, Fish.added]
  refine ⟨rs, s, t, u, i, hrun, ⟨hmal, hadd⟩, ⟨hmal', hadd'⟩, hhead, hself, ?_, ?_⟩
  · intro fuel
    rw [Fish.mp1RtcTasklet, hhead]
    exact walk_self Fish.taskletRound_links fuel u hself
  · intro fuel loc hloc
    rw [Fish.mp1FindHelper, hhead]
    refine seek_self hself ?_ fuel
    simpa [← hu, Fish.added] using fun h => hloc h.symm

/-- One addition at location `0`, one at `40`. -/
theorem blink_zero_location_hangs_first :
    ∃ rs s t u i, (Fish.start fun _ => 0).runOps 2000 [] = some (rs, s) ∧
      (s.mp1Malloc = some i ∧ s.mp1IoctlAdd .zero = (0, t)) ∧
      (t.mp1Malloc = some i ∧ t.mp1IoctlAdd { BlinkStruct.zero with location := 40 } = (0, u)) ∧
      u.mp1ListHead = some i ∧ u.links i = some i ∧
      (∀ fuel, u.mp1RtcTasklet fuel = none) ∧
      ∀ fuel loc, loc ≠ 40 → u.mp1FindHelper fuel loc = none :=
  blink_zero_location_hangs (fun _ => 0) [] .zero { BlinkStruct.zero with location := 40 } (by simp)
    rfl (by decide) (by decide)

end Zbiggie
