import Mathlib.Logic.Function.Iterate
import Zbiggie.Proof.Lamps

/-!
# What the lamps show

Three things about the screen behind the blink list. No request and no tick ever
touches a colour, or a byte outside the text page. A character that has its cell to
itself shows, after any number of ticks and whatever else is done to the other
characters in between, what its two lengths say and nothing else. And one that was
brought into step with another stays in step, though its cell is drawn dark to begin
with, lit or not.
-/

namespace Zbiggie

open Machine

/-! ## Nothing but characters -/

/-- Every entry's location is on the screen, and only characters were drawn over `vmem`. -/
structure Fish.Drawn (vmem : Mem) (s : Fish) : Prop where
  onScreen : ∀ i, (s.blinkArray i).location.toNat < 2000
  kept : ∀ a, a % 2 = 1 ∨ 4000 ≤ a → s.vmem a = vmem a

namespace Fish

variable {vmem : Mem} {s : Fish}

theorem Drawn.put (h : s.Drawn vmem) {i : Slot} {b : BlinkStruct} (hb : b.location.toNat < 2000) :
    (s.put i b).Drawn vmem := by
  refine ⟨?_, h.kept⟩
  intro j
  by_cases hj : j = i
  · subst hj
    simpa [Fish.put] using hb
  · simpa [Fish.put, hj] using h.onScreen j

theorem Drawn.poke (h : s.Drawn vmem) {n : Nat} {c : Byte} (hn : n < 2000) :
    (s.mp1Poke (n <<< 1) c).Drawn vmem := by
  refine ⟨h.onScreen, ?_⟩
  intro a ha
  rw [← h.kept a ha]
  refine store_of_ne ?_
  rw [Nat.shiftLeft_eq]
  omega

theorem Drawn.taskletRound (h : s.Drawn vmem) (i : Slot) : (s.taskletRound i).Drawn vmem := by
  have hi := h.onScreen i
  unfold Fish.taskletRound
  dsimp only
  split
  · exact h.put hi
  · split
    · exact (h.poke hi).put hi
    · exact (h.poke hi).put hi

theorem Drawn.putLink (h : s.Drawn vmem) (l v : Option Slot) : (s.putLink l v).Drawn vmem := by
  cases l with
  | none => exact ⟨h.onScreen, h.kept⟩
  | some a => exact h.put (h.onScreen a)

theorem Drawn.add (h : s.Drawn vmem) (b : BlinkStruct) : (s.mp1IoctlAdd b).2.Drawn vmem := by
  unfold mp1IoctlAdd
  split
  · exact h
  · rename_i hloc
    have hb : b.location.toNat < 2000 := by omega
    cases s.mp1Malloc with
    | none => exact h
    | some i =>
        have hput := h.put (i := i) (b := s.added b) hb
        exact Drawn.poke (s := { s.put i (s.added b) with mp1ListHead := some i })
          ⟨hput.onScreen, hput.kept⟩ hb

theorem Drawn.remove (h : s.Drawn vmem) {fuel : Nat} {arg : Word} {v : Int} {t : Fish}
    (ht : s.mp1IoctlRemove fuel arg = some (v, t)) : t.Drawn vmem := by
  unfold mp1IoctlRemove at ht
  split at ht
  · cases ht
  · cases ht
    exact h
  · split at ht
    · cases ht
      exact (h.putLink _ _).put (by decide)
    · cases ht

theorem Drawn.sync (h : s.Drawn vmem) {fuel : Nat} {arg : Word} {v : Int} {t : Fish}
    (ht : s.mp1IoctlSync fuel arg = some (v, t)) : t.Drawn vmem := by
  unfold mp1IoctlSync at ht
  split at ht
  · cases ht
  · cases ht
    exact h
  · split at ht
    · cases ht
    · cases ht
      exact h
    · rename_i edi _
      cases ht
      have hput : ∀ b : BlinkStruct, b.location = (s.blinkArray edi).location →
          (s.put edi b).Drawn vmem := by
        intro b hb
        exact h.put (hb ▸ h.onScreen edi)
      refine Drawn.poke (hput _ ?_) ((hput _ ?_).onScreen edi) <;> rfl

theorem Drawn.step (h : s.Drawn vmem) {fuel : Nat} {op : FishOp} {r : FishReply} {t : Fish}
    (ht : op.run fuel s = some (r, t)) : t.Drawn vmem := by
  cases op with
  | add b =>
      cases ht
      exact h.add b
  | remove arg =>
      obtain ⟨⟨v, u⟩, hrun, heq⟩ := Option.map_eq_some_iff.mp ht
      cases heq
      exact h.remove hrun
  | find loc =>
      obtain ⟨⟨v, out⟩, -, heq⟩ := Option.map_eq_some_iff.mp ht
      cases heq
      exact h
  | sync arg =>
      obtain ⟨⟨v, u⟩, hrun, heq⟩ := Option.map_eq_some_iff.mp ht
      cases heq
      exact h.sync hrun
  | tick =>
      obtain ⟨u, hrun, heq⟩ := Option.map_eq_some_iff.mp ht
      cases heq
      exact walk_inv (fun _ i hs => hs.taskletRound i) h hrun

theorem Drawn.run (h : s.Drawn vmem) {fuel : Nat} : ∀ {ops : List FishOp} {rs : List FishReply}
    {t : Fish}, s.runOps fuel ops = some (rs, t) → t.Drawn vmem := by
  intro ops
  induction ops generalizing s with
  | nil =>
      intro rs t ht
      cases ht
      exact h
  | cons op ops ih =>
      intro rs t ht
      obtain ⟨⟨r, u⟩, hop, ht⟩ := Option.bind_eq_some_iff.mp ht
      obtain ⟨⟨rs', u'⟩, hrun, heq⟩ := Option.map_eq_some_iff.mp ht
      cases heq
      exact ih (h.step hop) hrun

end Fish

/--
**The fish draws characters only.** Over every sequence of requests and ticks that returns,
location `0` and a list bent into a ring included, every colour byte and every byte behind
the text page is left as it was.
-/
theorem fish_draws_characters_only (vmem : Mem) (fuel : Nat) (ops : List FishOp)
    (rs : List FishReply) (s : Fish) (h : (Fish.start vmem).runOps fuel ops = some (rs, s))
    (a : Nat) (ha : a % 2 = 1 ∨ 4000 ≤ a) : s.vmem a = vmem a :=
  (Fish.Drawn.run (s := Fish.start vmem)
    ⟨fun _ => (by decide : BlinkStruct.zero.location.toNat < 2000), fun _ _ => rfl⟩ h).kept a ha

/-- A character in the last cell, switched twice: its colour stays. -/
theorem fish_draws_characters_only_corner :
    ∃ rs s, (Fish.start fun _ => 7).runOps 3
        [.add ⟨1999, 0x41, 0x42, 1, 1, 0, 0, none⟩, .tick, .tick] = some (rs, s) ∧
      s.vmem 3999 = 7 :=
  ⟨_, _, rfl, fish_draws_characters_only (fun _ => 7) 3
    [.add ⟨1999, 0x41, 0x42, 1, 1, 0, 0, none⟩, .tick, .tick] _ _ rfl 3999 (.inl rfl)⟩

/-! ## One lamp over many ticks -/

namespace Lamp

/-- No length is shorter than a tick. -/
structure Sound (l : Lamp) : Prop where
  onFor : 1 ≤ l.onFor
  offFor : 1 ≤ l.offFor
  left : 1 ≤ l.left

theorem Sound.tick {l : Lamp} (h : l.Sound) : l.tick.Sound := by
  unfold Lamp.tick
  split
  · exact ⟨h.onFor, h.offFor, Nat.le_sub_of_add_le (by omega)⟩
  · refine ⟨h.onFor, h.offFor, ?_⟩
    show 1 ≤ if l.lit then l.offFor else l.onFor
    split
    · exact h.offFor
    · exact h.onFor

@[simp] theorem tick_location (l : Lamp) : l.tick.location = l.location := by
  unfold tick
  split <;> rfl

/-- Until it switches, a lamp only counts down. -/
theorem iterate_tick_of_lt (l : Lamp) : ∀ {n : Nat}, n < l.left →
    Lamp.tick^[n] l = { l with left := l.left - n } := by
  intro n
  induction n with
  | zero => intro _; rfl
  | succ n ih =>
      intro hn
      rw [Function.iterate_succ_apply', ih (by omega), tick, if_pos (show 1 < l.left - n by omega)]
      rfl

theorem shows_iterate_of_lt (l : Lamp) {n : Nat} (hn : n < l.left) :
    (Lamp.tick^[n] l).shows = l.shows := by
  rw [iterate_tick_of_lt l hn]
  rfl

/-- The lamp `p` ticks into its period. -/
def phase (l : Lamp) (p : Nat) : Lamp :=
  { l with
    lit := decide (p < l.onFor)
    left := if p < l.onFor then l.onFor - p else l.onFor + l.offFor - p }

theorem phase_tick {l : Lamp} (h : l.Sound) {p : Nat} (hp : p < l.onFor + l.offFor) :
    (l.phase p).tick = l.phase (if p + 1 = l.onFor + l.offFor then 0 else p + 1) := by
  have hon := h.onFor
  have hoff := h.offFor
  have hleft : (l.phase p).left = if p < l.onFor then l.onFor - p else l.onFor + l.offFor - p := rfl
  unfold tick
  by_cases hlt : p < l.onFor
  · rw [if_pos hlt] at hleft
    rw [if_neg (show ¬ p + 1 = l.onFor + l.offFor by omega)]
    by_cases hmore : p + 1 < l.onFor
    · rw [if_pos (by omega)]
      simp only [phase, hlt, hmore, if_true]
      rfl
    · rw [if_neg (by omega)]
      simp only [phase, hlt, hmore, decide_true, decide_false, Bool.not_true, if_true, if_false,
        mk.injEq, true_and]
      omega
  · rw [if_neg hlt] at hleft
    by_cases hend : p + 1 = l.onFor + l.offFor
    · rw [if_neg (by omega), if_pos hend]
      simp only [phase, hlt, show 0 < l.onFor from hon, decide_true, decide_false, Bool.not_false,
        Bool.false_eq_true, if_true, if_false, Nat.sub_zero]
    · rw [if_pos (by omega), if_neg hend]
      simp only [phase, hlt, show ¬ p + 1 < l.onFor by omega, if_false]
      rfl

/-- Lit for its first length, dark for its second, and so on. -/
theorem iterate_tick_phase {l : Lamp} (h : l.Sound) (n : Nat) :
    Lamp.tick^[n] (l.phase 0) = l.phase (n % (l.onFor + l.offFor)) := by
  have hon := h.onFor
  have hoff := h.offFor
  induction n with
  | zero => rw [Nat.zero_mod]; rfl
  | succ n ih =>
      have hmod := Nat.mod_lt n (show 0 < l.onFor + l.offFor by omega)
      rw [Function.iterate_succ_apply', ih, phase_tick h hmod, Nat.add_mod_eq_ite,
        Nat.mod_eq_of_lt (show 1 < l.onFor + l.offFor by omega)]
      by_cases hend : n % (l.onFor + l.offFor) + 1 = l.onFor + l.offFor
      · rw [if_pos hend, if_pos (by omega), hend, Nat.sub_self]
      · rw [if_neg hend, if_neg (by omega)]

theorem shows_phase (l : Lamp) (p : Nat) :
    (l.phase p).shows = if p < l.onFor then l.onChar else l.offChar := by
  simp [shows, phase]

end Lamp

/-! ## One location over a run -/

/-- The request does nothing to the characters at a location. -/
def FishOp.Leaves (loc : BitVec 16) : FishOp → Prop
  | .add b => b.location ≠ loc
  | .remove arg => arg.setWidth 16 ≠ loc
  | .find _ => True
  | .sync arg => arg.setWidth 16 ≠ loc
  | .tick => True

/-- How many ticks are among the requests. -/
def ticks : List FishOp → Nat
  | [] => 0
  | .tick :: ops => ticks ops + 1
  | _ :: ops => ticks ops

/-- The lamps at a location, in their order on the list. -/
def Lamps.onAt (m : Lamps) (loc : BitVec 16) : List Lamp :=
  m.lamps.filter fun l => l.location = loc

section Location

variable {m : Lamps} {loc : BitVec 16}

theorem Lamps.at?_eq_head? (m : Lamps) (loc : BitVec 16) : m.at? loc = (m.onAt loc).head? := by
  unfold at? onAt
  rw [List.head?_filter]

theorem Lamps.cell_ne {l : Lamp} (h : l.location ≠ loc) : 2 * loc.toNat ≠ l.cell := by
  have hne : loc.toNat ≠ l.location.toNat := fun heq => h (BitVec.eq_of_toNat_eq heq).symm
  unfold Lamp.cell
  omega

/-- What one request leaves of the lamps at a location it does not name. -/
theorem Lamps.op_onAt {op : FishOp} (h : op.Leaves loc) :
    (m.op op).2.onAt loc = if op = .tick then (m.onAt loc).map Lamp.tick else m.onAt loc := by
  cases op with
  | add b =>
      rw [if_neg (by simp)]
      simp only [op]
      split
      · rfl
      · exact List.filter_cons_of_neg (by simp [BlinkStruct.fresh, show b.location ≠ loc from h])
  | remove arg =>
      rw [if_neg (by simp)]
      cases hat : m.at? (arg.setWidth 16) with
      | none => rw [Lamps.op_remove_none hat]
      | some l =>
          rw [Lamps.op_remove_some hat]
          unfold onAt
          rcases List.exists_or_eq_self_of_eraseP (fun l => decide (l.location = arg.setWidth 16))
            m.lamps with heq | ⟨a, l₁, l₂, -, ha, hsplit, heq⟩
          · rw [heq]
          -- the lamp that goes is at the location named, which is another one
          · have hloc : a.location ≠ loc := by
              rw [of_decide_eq_true ha]
              exact h
            rw [heq, hsplit, List.filter_append, List.filter_append,
              List.filter_cons_of_neg (by simpa using hloc)]
  | find l => rfl
  | sync arg =>
      rw [if_neg (by simp)]
      cases hat : m.at? (arg.setWidth 16) with
      | none => rw [Lamps.op_sync_none (.inr hat)]
      | some l =>
          cases hata : m.at? ((arg >>> 16).setWidth 16) with
          | none => rw [Lamps.op_sync_none (.inl hata)]
          | some a =>
              rw [Lamps.op_sync_some hata hat]
              have hl : l.location = arg.setWidth 16 := by simpa using List.find?_some hat
              unfold onAt set
              rcases List.exists_or_eq_self_of_replaceF (fun l' =>
                if l'.location = (l.inStepWith a).location then some (l.inStepWith a) else none)
                m.lamps with heq | ⟨c, c', l₁, l₂, -, hc, hsplit, heq⟩
              · rw [heq]
              -- the lamp replaced and the one put in its place are both elsewhere
              · obtain ⟨hcl, rfl⟩ : c.location = l.location ∧ l.inStepWith a = c' := by
                  by_cases hcl : c.location = l.location
                  · exact ⟨hcl, by simpa [Lamp.inStepWith, hcl] using hc⟩
                  · simp [Lamp.inStepWith, hcl] at hc
                have hloc : l.location ≠ loc := hl ▸ h
                rw [heq, hsplit, List.filter_append, List.filter_append,
                  List.filter_cons_of_neg (by simp [Lamp.inStepWith, hloc]),
                  List.filter_cons_of_neg (by simpa [hcl] using hloc)]
  | tick =>
      rw [if_pos rfl]
      simp only [op, onAt, List.filter_map]
      congr 1
      refine List.filter_congr ?_
      intro l _
      simp

/-- A cell sees only the lamps at its own location. -/
theorem Lamps.foldl_draw_cell (loc : BitVec 16) : ∀ (ls : List Lamp) (v w : Mem),
    v (2 * loc.toNat) = w (2 * loc.toNat) → ls.foldl Lamp.draw v (2 * loc.toNat) =
      (ls.filter fun l => l.location = loc).foldl Lamp.draw w (2 * loc.toNat) := by
  intro ls
  induction ls with
  | nil => intro v w h; exact h
  | cons l ls ih =>
      intro v w h
      by_cases hl : l.location = loc
      · rw [List.filter_cons_of_pos (by simpa using hl), List.foldl_cons, List.foldl_cons]
        refine ih _ _ ?_
        unfold Lamp.draw
        split
        · exact h
        · unfold Lamp.cell
          rw [hl, store_self, store_self]
      · rw [List.filter_cons_of_neg (by simpa using hl), List.foldl_cons]
        refine ih _ _ ?_
        unfold Lamp.draw
        split
        · exact h
        · rw [store_of_ne (cell_ne hl)]
          exact h

/-- What one request leaves in the cell of a location it does not name. -/
theorem Lamps.op_screen {op : FishOp} (h : op.Leaves loc) :
    (m.op op).2.screen (2 * loc.toNat) =
      if op = .tick then (m.onAt loc).foldl Lamp.draw m.screen (2 * loc.toNat)
      else m.screen (2 * loc.toNat) := by
  cases op with
  | add b =>
      rw [if_neg (by simp)]
      simp only [op]
      split
      · rfl
      · exact store_of_ne (cell_ne (l := b.fresh) h)
  | remove arg =>
      rw [if_neg (by simp)]
      simp only [op]
      split <;> rfl
  | find l => rfl
  | sync arg =>
      rw [if_neg (by simp)]
      cases hat : m.at? (arg.setWidth 16) with
      | none => rw [Lamps.op_sync_none (.inr hat)]
      | some l =>
          cases hata : m.at? ((arg >>> 16).setWidth 16) with
          | none => rw [Lamps.op_sync_none (.inl hata)]
          | some a =>
              rw [Lamps.op_sync_some hata hat]
              have hl : l.location = arg.setWidth 16 := by simpa using List.find?_some hat
              exact store_of_ne (cell_ne (hl ▸ h))
  | tick =>
      rw [if_pos rfl]
      exact foldl_draw_cell loc m.lamps m.screen m.screen rfl

end Location

/-! ## Whole runs, one location apart -/

theorem Lamps.runOps_append (m : Lamps) (ops ops' : List FishOp) :
    (m.runOps (ops ++ ops')).2 = ((m.runOps ops).2.runOps ops').2 := by
  induction ops generalizing m with
  | nil => rfl
  | cons op ops ih => exact ih (m.op op).2

theorem ticks_cons (op : FishOp) (ops : List FishOp) :
    ticks (op :: ops) = if op = .tick then ticks ops + 1 else ticks ops := by
  cases op <;> rfl

/-- The lamps at a location nothing names go on ticking. -/
theorem Lamps.run_onAt {loc : BitVec 16} : ∀ {ops : List FishOp} (m : Lamps),
    (∀ op ∈ ops, op.Leaves loc) →
    (m.runOps ops).2.onAt loc = (m.onAt loc).map Lamp.tick^[ticks ops] := by
  intro ops
  induction ops with
  | nil => intro m _; exact (List.map_id _).symm
  | cons op ops ih =>
      intro m h
      show ((m.op op).2.runOps ops).2.onAt loc = _
      rw [ih _ fun o ho => h o (List.mem_cons_of_mem op ho), op_onAt (h op List.mem_cons_self),
        ticks_cons]
      split
      · rw [List.map_map, Function.iterate_succ]
      · rfl

/-- The cell of a lamp that has it to itself: what it held, until the lamp first switches. -/
theorem Lamps.run_screen {loc : BitVec 16} : ∀ {ops : List FishOp} {m : Lamps} {l : Lamp},
    (∀ op ∈ ops, op.Leaves loc) → m.onAt loc = [l] → l.Sound →
    (m.runOps ops).2.screen (2 * loc.toNat) =
      if ticks ops < l.left then m.screen (2 * loc.toNat) else (Lamp.tick^[ticks ops] l).shows := by
  intro ops
  induction ops with
  | nil =>
      intro m l _ _ hl
      rw [if_pos (show ticks [] < l.left from hl.left)]
      rfl
  | cons op ops ih =>
      intro m l h hat hl
      have hop := h op List.mem_cons_self
      have hrest : ∀ o ∈ ops, o.Leaves loc := fun o ho => h o (List.mem_cons_of_mem op ho)
      have hloc : l.location = loc := by
        have hmem : l ∈ m.onAt loc := by rw [hat]; exact List.mem_singleton_self l
        simpa [onAt] using (List.mem_filter.mp hmem).2
      have hat' := op_onAt (m := m) hop
      have hsc := op_screen (m := m) hop
      rw [hat] at hat' hsc
      show ((m.op op).2.runOps ops).2.screen _ = _
      rw [ticks_cons]
      by_cases htick : op = .tick
      · rw [if_pos htick] at hat' hsc ⊢
        rw [ih hrest hat' hl.tick, hsc, List.foldl_cons, List.foldl_nil,
          ← Function.iterate_succ_apply]
        unfold Lamp.draw
        by_cases hmore : 1 < l.left
        · have hleft : l.tick.left = l.left - 1 := by rw [Lamp.tick, if_pos hmore]
          rw [if_pos hmore, hleft]
          by_cases hlt : ticks ops + 1 < l.left
          · rw [if_pos (by omega), if_pos hlt]
          · rw [if_neg (by omega), if_neg hlt]
        · -- this tick switches it, and the cell says so until the next time
          rw [if_neg hmore, if_neg (show ¬ ticks ops + 1 < l.left by omega), Lamp.cell, hloc,
            store_self]
          split
          · rename_i hlt
            rw [Function.iterate_succ_apply, Lamp.shows_iterate_of_lt _ hlt]
          · rfl
      · rw [if_neg htick] at hat' hsc ⊢
        rw [ih hrest hat' hl, hsc]

/-- The cell of a location with no lamp keeps what it holds. -/
theorem Lamps.run_screen_none {loc : BitVec 16} : ∀ {ops : List FishOp} {m : Lamps},
    (∀ op ∈ ops, op.Leaves loc) → m.onAt loc = [] →
    (m.runOps ops).2.screen (2 * loc.toNat) = m.screen (2 * loc.toNat) := by
  intro ops
  induction ops with
  | nil => intro m _ _; rfl
  | cons op ops ih =>
      intro m h hat
      have hop := h op List.mem_cons_self
      have hat' := op_onAt (m := m) hop
      have hsc := op_screen (m := m) hop
      rw [hat, List.map_nil, ite_self] at hat'
      rw [hat, List.foldl_nil, ite_self] at hsc
      exact (ih (fun o ho => h o (List.mem_cons_of_mem op ho)) hat').trans hsc

theorem BlinkStruct.fresh_sound (b : BlinkStruct) : b.fresh.Sound :=
  ⟨one_le_span _, one_le_span _, one_le_span _⟩

theorem BlinkStruct.fresh_phase (b : BlinkStruct) : b.fresh = b.fresh.phase 0 := by
  have hon : 0 < span b.onLength := one_le_span _
  simp [fresh, Lamp.phase, hon]

/-- An addition that succeeded. -/
theorem Lamps.op_add_zero {m : Lamps} {b : BlinkStruct} (h : (m.op (.add b)).1.1 = 0) :
    (m.op (.add b)).2 = ⟨b.fresh :: m.lamps, store m.screen b.fresh.cell b.onChar⟩ := by
  simp only [op] at h ⊢
  split at h
  · cases h
  · rename_i hroom
    rw [if_neg hroom]

/-- A lamp added where none was, over a run that leaves it alone. -/
theorem Lamps.add_screen {m : Lamps} {b : BlinkStruct} {ops : List FishOp}
    (hnew : m.at? b.location = none) (hadd : (m.op (.add b)).1.1 = 0)
    (h : ∀ op ∈ ops, op.Leaves b.location) :
    ((m.op (.add b)).2.runOps ops).2.screen (2 * b.location.toNat) =
      if ticks ops % (span b.onLength + span b.offLength) < span b.onLength then b.onChar
      else b.offChar := by
  rw [Lamps.op_add_zero hadd]
  have halone : (⟨b.fresh :: m.lamps, store m.screen b.fresh.cell b.onChar⟩ : Lamps).onAt
      b.location = [b.fresh] := by
    rw [Lamps.at?_eq_head?, List.head?_eq_none_iff] at hnew
    unfold Lamps.onAt at hnew ⊢
    rw [List.filter_cons_of_pos (by simp [BlinkStruct.fresh]), hnew]
  have hphase : (Lamp.tick^[ticks ops] b.fresh).shows =
      if ticks ops % (span b.onLength + span b.offLength) < span b.onLength then b.onChar
      else b.offChar := by
    rw [b.fresh_phase, Lamp.iterate_tick_phase b.fresh_sound, Lamp.shows_phase]
    rfl
  rw [Lamps.run_screen h halone b.fresh_sound, ← hphase]
  split
  · rename_i hlt
    rw [Lamp.shows_iterate_of_lt _ hlt]
    exact store_self _ _ _
  · rfl

/--
**When a character shows what.** Add one at a free location, on top of any run, and let any
further run follow that does not name that location: its cell shows the first character
for `on_length` ticks, the second for `off_length`, and so on, counted from the addition,
whatever happened to the others. A length of zero, and one above 32768, count as one.
-/
theorem blink_shows_its_phase (vmem : Mem) (ops₁ ops₂ : List FishOp) (b : BlinkStruct)
    (h₁ : ∀ op ∈ ops₁, op.NotZero) (h0 : b.location ≠ 0)
    (hnew : (Lamps.runOps ⟨[], vmem⟩ ops₁).2.at? b.location = none)
    (hadd : ((Lamps.runOps ⟨[], vmem⟩ ops₁).2.op (.add b)).1.1 = 0)
    (h₂ : ∀ op ∈ ops₂, op.NotZero ∧ op.Leaves b.location) :
    ∃ rs s, (Fish.start vmem).runOps 2000 (ops₁ ++ .add b :: ops₂) = some (rs, s) ∧
      s.vmem (2 * b.location.toNat) =
        if ticks ops₂ % (span b.onLength + span b.offLength) < span b.onLength then b.onChar
        else b.offChar := by
  have hall : ∀ op ∈ ops₁ ++ .add b :: ops₂, op.NotZero := by
    intro op hop
    rcases List.mem_append.mp hop with hop | hop
    · exact h₁ op hop
    · rcases List.mem_cons.mp hop with rfl | hop
      · exact h0
      · exact (h₂ op hop).1
  obtain ⟨rs, s, hrun, -, hs⟩ := (Fish.start_shows vmem).run (Nat.le_refl 2000) hall
  refine ⟨rs, s, hrun, ?_⟩
  rw [hs.screen, Lamps.runOps_append]
  exact Lamps.add_screen hnew hadd fun op hop => (h₂ op hop).2

/-- A character with another one added and synchronised beside it, five ticks later. -/
theorem blink_shows_its_phase_five : ∃ rs s, (Fish.start fun _ => 0).runOps 2000
      ([] ++ .add ⟨540, 0x49, 0x4D, 3, 0, 0, 0, none⟩ :: [.tick, .tick,
        .add ⟨40, 0x41, 0x42, 7, 6, 0, 0, none⟩, .tick, .sync 0x021C0028, .tick, .tick]) =
        some (rs, s) ∧ s.vmem (2 * 540) = if 5 % (3 + 1) < 3 then 0x49 else 0x4D :=
  blink_shows_its_phase (fun _ => 0) [] [.tick, .tick, .add ⟨40, 0x41, 0x42, 7, 6, 0, 0, none⟩,
      .tick, .sync 0x021C0028, .tick, .tick] ⟨540, 0x49, 0x4D, 3, 0, 0, 0, none⟩
    (by simp) (by decide) rfl rfl (by simp [FishOp.NotZero, FishOp.Leaves])

/-! ## In step -/

theorem Lamp.inStepWith_tick (l a : Lamp) : (l.inStepWith a).tick = l.inStepWith a.tick := by
  unfold tick inStepWith
  dsimp only
  split <;> rfl

theorem Lamp.iterate_tick_inStepWith (l a : Lamp) (n : Nat) :
    Lamp.tick^[n] (l.inStepWith a) = l.inStepWith (Lamp.tick^[n] a) := by
  induction n with
  | zero => rfl
  | succ n ih =>
      rw [Function.iterate_succ_apply', Function.iterate_succ_apply', ih, inStepWith_tick]

/-- The lamps at the location of the one replaced. -/
theorem Lamps.set_onAt {m : Lamps} {l l' : Lamp} {ls : List Lamp}
    (h : m.onAt l'.location = l :: ls) :
    (m.set l').filter (fun k => k.location = l'.location) = l' :: ls := by
  unfold onAt at h
  unfold set
  generalize m.lamps = ks at h ⊢
  induction ks with
  | nil => cases h
  | cons k ks ih =>
      by_cases hk : k.location = l'.location
      · rw [List.filter_cons_of_pos (by simpa using hk)] at h
        have hhere : (if k.location = l'.location then some l' else none) = some l' := if_pos hk
        rw [List.replaceF_cons_of_some _ hhere,
          List.filter_cons_of_pos (by simp), (List.cons.inj h).2]
      · rw [List.filter_cons_of_neg (by simpa using hk)] at h
        rw [List.replaceF_cons_of_none, List.filter_cons_of_neg (by simpa using hk)]
        · exact ih h
        · exact if_neg hk

theorem Fish.Shows.sound {s : Fish} {m : Lamps} (h : s.Shows m) {l : Lamp} (hl : l ∈ m.lamps) :
    l.Sound := by
  obtain ⟨L, -, heq, -⟩ := h.nodes
  rw [heq] at hl
  obtain ⟨i, -, rfl⟩ := List.mem_map.mp hl
  exact ⟨one_le_span _, one_le_span _, one_le_span _⟩

/--
**Synchronised characters stay in step.** After a synchronisation, over any run that names
neither of the two, both count and switch alike. The cell of the second was drawn dark: it
shows that until its first switch, as many ticks later as the first one had left, and what
the character really is from then on.
-/
theorem blink_sync_keeps_step (vmem : Mem) (ops₁ ops₂ : List FishOp) (arg : Word) (a l : Lamp)
    (h₁ : ∀ op ∈ ops₁, op.NotZero) (hne : (arg >>> 16).setWidth 16 ≠ arg.setWidth 16)
    (ha : (Lamps.runOps ⟨[], vmem⟩ ops₁).2.at? ((arg >>> 16).setWidth 16) = some a)
    (hl : (Lamps.runOps ⟨[], vmem⟩ ops₁).2.onAt (arg.setWidth 16) = [l])
    (h₂ : ∀ op ∈ ops₂, op.NotZero ∧ op.Leaves ((arg >>> 16).setWidth 16) ∧
      op.Leaves (arg.setWidth 16)) :
    ∃ rs s, (Fish.start vmem).runOps 2000 (ops₁ ++ .sync arg :: ops₂) = some (rs, s) ∧
      ∃ a' l' : BlinkStruct,
        s.mp1IoctlFind 2000 ((arg >>> 16).setWidth 16) = some (0, some a') ∧
        s.mp1IoctlFind 2000 (arg.setWidth 16) = some (0, some l') ∧
        a'.lamp = Lamp.tick^[ticks ops₂] a ∧ l'.lamp = l.inStepWith a'.lamp ∧
        s.vmem (2 * (arg.setWidth 16).toNat) =
          if ticks ops₂ < a.left then l.offChar else l'.lamp.shows := by
  have hall : ∀ op ∈ ops₁ ++ .sync arg :: ops₂, op.NotZero := by
    intro op hop
    rcases List.mem_append.mp hop with hop | hop
    · exact h₁ op hop
    · rcases List.mem_cons.mp hop with rfl | hop
      · exact trivial
      · exact (h₂ op hop).1
  obtain ⟨rs, s, hrun, -, hs⟩ := (Fish.start_shows vmem).run (Nat.le_refl 2000) hall
  obtain ⟨-, s₁, -, -, hs₁⟩ := (Fish.start_shows vmem).run (Nat.le_refl 2000) h₁
  rw [Lamps.runOps_append] at hs
  generalize (Lamps.runOps ⟨[], vmem⟩ ops₁).2 = m at ha hl hs hs₁
  have hs : s.Shows ((m.op (.sync arg)).2.runOps ops₂).2 := hs
  have hsound := hs₁.sound (List.mem_of_find?_eq_some ha)
  have hat : m.at? (arg.setWidth 16) = some l := by rw [Lamps.at?_eq_head?, hl]; rfl
  have hloc : l.location = arg.setWidth 16 := by simpa using List.find?_some hat
  have hop := Lamps.op_sync_some ha hat
  -- right after the request
  have hdst : (m.op (.sync arg)).2.onAt (arg.setWidth 16) = [l.inStepWith a] := by
    rw [hop, ← hloc]
    exact Lamps.set_onAt (show m.onAt (l.inStepWith a).location = [l] from hloc ▸ hl)
  have hsrc : ((m.op (.sync arg)).2.onAt ((arg >>> 16).setWidth 16)).head? = some a := by
    have hleaves : (FishOp.sync arg).Leaves ((arg >>> 16).setWidth 16) := fun h => hne h.symm
    rw [Lamps.op_onAt hleaves, if_neg (by simp),
      ← Lamps.at?_eq_head?, ha]
  have hscreen : (m.op (.sync arg)).2.screen (2 * (arg.setWidth 16).toNat) = l.offChar := by
    rw [hop, ← hloc]
    exact store_self _ _ _
  generalize (m.op (.sync arg)).2 = m' at hs hdst hsrc hscreen
  -- and after the run
  have hdst' : (m'.runOps ops₂).2.at? (arg.setWidth 16) =
      some (l.inStepWith (Lamp.tick^[ticks ops₂] a)) := by
    rw [Lamps.at?_eq_head?, Lamps.run_onAt _ fun op hop => (h₂ op hop).2.2, hdst,
      List.map_singleton, Lamp.iterate_tick_inStepWith]
    rfl
  have hsrc' : (m'.runOps ops₂).2.at? ((arg >>> 16).setWidth 16) =
      some (Lamp.tick^[ticks ops₂] a) := by
    rw [Lamps.at?_eq_head?, Lamps.run_onAt _ fun op hop => (h₂ op hop).2.1, List.head?_map, hsrc]
    rfl
  have hfind : ∀ loc k, (m'.runOps ops₂).2.at? loc = some k →
      ∃ b : BlinkStruct, s.mp1IoctlFind 2000 loc = some (0, some b) ∧ b.lamp = k := by
    intro loc k hk
    obtain ⟨out, hout, hlamp⟩ := hs.find (Nat.le_refl 2000) loc
    simp only [Lamps.op, hk] at hout hlamp
    obtain ⟨b, rfl, hb⟩ := Option.map_eq_some_iff.mp hlamp
    exact ⟨b, hout, hb⟩
  obtain ⟨a', hfa, ha'⟩ := hfind _ _ hsrc'
  obtain ⟨l', hfl, hl'⟩ := hfind _ _ hdst'
  refine ⟨rs, s, hrun, a', l', hfa, hfl, ha', ha' ▸ hl', ?_⟩
  rw [hs.screen, Lamps.run_screen (fun op hop => (h₂ op hop).2.2) hdst
    ⟨hsound.onFor, hsound.offFor, hsound.left⟩, hscreen, hl', Lamp.iterate_tick_inStepWith]
  rfl

/-- The second of two characters brought into step with the first, which is lit, and one tick. -/
theorem blink_sync_keeps_step_two : ∃ rs s, (Fish.start fun _ => 0).runOps 2000
      ([.add ⟨40, 0x49, 0x4D, 7, 6, 0, 0, none⟩, .add ⟨540, 0x41, 0x42, 1, 1, 0, 0, none⟩] ++
        .sync 0x0028021C :: [.tick]) = some (rs, s) ∧
    ∃ a' l' : BlinkStruct, s.mp1IoctlFind 2000 40 = some (0, some a') ∧
      s.mp1IoctlFind 2000 540 = some (0, some l') ∧
      a'.lamp = Lamp.tick^[1] ⟨40, 0x49, 0x4D, 7, 6, true, 7⟩ ∧
      l'.lamp = Lamp.inStepWith ⟨540, 0x41, 0x42, 1, 1, true, 1⟩ a'.lamp ∧
      s.vmem (2 * 540) = if 1 < 7 then 0x42 else l'.lamp.shows :=
  blink_sync_keeps_step (fun _ => 0)
    [.add ⟨40, 0x49, 0x4D, 7, 6, 0, 0, none⟩, .add ⟨540, 0x41, 0x42, 1, 1, 0, 0, none⟩] [.tick]
    0x0028021C ⟨40, 0x49, 0x4D, 7, 6, true, 7⟩ ⟨540, 0x41, 0x42, 1, 1, true, 1⟩
    (by simp [FishOp.NotZero]) (by decide) (by decide) (by decide)
    (by simp [FishOp.NotZero, FishOp.Leaves])

end Zbiggie
