import Mathlib.Data.List.Nodup
import Mathlib.Logic.Function.Basic

/-!
# Singly linked lists in a store

A node is an index into a store, its link is the index of the next node or null,
and the list begins at whatever a head variable holds. `Chain` says which nodes a
list has; being an inductive predicate it says at once that following the links
ends, hence that no node comes twice.

Three loops go over such a list: one that runs a body at every node, one that
stops at the first node wanted, and one that looks for the link leading to a
given node. Each is written as the code runs it, with fuel where a list bent into
a ring would keep it going, and each has one lemma saying what it does on a chain.
-/

namespace Zbiggie.Machine

variable {ι σ : Type}

/-- From `p`, the links lead through the nodes `L` and then to null. -/
inductive Chain (next : ι → Option ι) : Option ι → List ι → Prop where
  | null : Chain next none []
  | node {i : ι} {L : List ι} : Chain next (next i) L → Chain next (some i) (i :: L)

namespace Chain

variable {next next' : ι → Option ι} {p : Option ι} {L : List ι}

theorem null_inv (h : Chain next none L) : L = [] := by
  cases h
  rfl

theorem node_inv {i : ι} (h : Chain next (some i) L) :
    ∃ L', L = i :: L' ∧ Chain next (next i) L' := by
  cases h with
  | node h => exact ⟨_, rfl, h⟩

/-- The links determine the list. -/
theorem unique {L' : List ι} (h : Chain next p L) (h' : Chain next p L') : L = L' := by
  induction h generalizing L' with
  | null => exact h'.null_inv.symm
  | node _ ih =>
      obtain ⟨L'', rfl, h''⟩ := h'.node_inv
      rw [ih h'']

/-- Every end of a chain is the chain of its first node. -/
theorem drop {L₁ L₂ : List ι} {i : ι} (h : Chain next p (L₁ ++ i :: L₂)) :
    Chain next (some i) (i :: L₂) := by
  induction L₁ generalizing p with
  | nil =>
      cases h with
      | node h => exact .node h
  | cons a L₁ ih =>
      cases h with
      | node h => exact ih h

/-- **No node comes twice**: behind a node that came back, the list would be longer than itself. -/
theorem nodup (h : Chain next p L) : L.Nodup := by
  induction h with
  | null => exact List.nodup_nil
  | @node i L h ih =>
      refine List.nodup_cons.mpr ⟨?_, ih⟩
      intro hi
      obtain ⟨L₁, L₂, rfl⟩ := List.append_of_mem hi
      have heq := (Chain.node h).unique h.drop
      have hlen := congrArg List.length heq
      simp only [List.length_cons, List.length_append] at hlen
      omega

/-- A chain reads only the links of its own nodes. -/
theorem congr (h : Chain next p L) (hc : ∀ i ∈ L, next' i = next i) : Chain next' p L := by
  induction h with
  | null => exact .null
  | @node i L _ ih =>
      refine .node ?_
      rw [hc i List.mem_cons_self]
      exact ih fun j hj => hc j (List.mem_cons_of_mem i hj)

/-- A node linked in at the front. -/
theorem push [DecidableEq ι] (h : Chain next p L) {i : ι} (hi : i ∉ L) :
    Chain (Function.update next i p) (some i) (i :: L) := by
  refine .node ?_
  rw [Function.update_self]
  refine h.congr fun j hj => Function.update_of_ne ?_ _ _
  rintro rfl
  exact hi hj

/-- A node linked out from behind another. -/
theorem unlink [DecidableEq ι] {L₁ L₂ : List ι} {a i : ι}
    (h : Chain next p (L₁ ++ a :: i :: L₂)) :
    Chain (Function.update next a (next i)) p (L₁ ++ a :: L₂) := by
  induction L₁ generalizing p with
  | nil =>
      have hnd := h.nodup
      cases h with
      | node h =>
          obtain ⟨L', heq, htail⟩ : ∃ L', i :: L₂ = i :: L' ∧ Chain next (next i) L' := by
            cases hna : next a with
            | none =>
                rw [hna] at h
                cases h
            | some b =>
                rw [hna] at h
                cases h with
                | node h => exact ⟨L₂, rfl, h⟩
          obtain rfl : L₂ = L' := (List.cons.inj heq).2
          refine .node ?_
          rw [Function.update_self]
          refine htail.congr fun j hj => Function.update_of_ne ?_ _ _
          rintro rfl
          exact (List.nodup_cons.mp hnd).1 (List.mem_cons_of_mem _ hj)
  | cons b L₁ ih =>
      have hnd := h.nodup
      cases h with
      | node h =>
          refine .node ?_
          rw [Function.update_of_ne]
          · exact ih h
          · rintro rfl
            exact (List.nodup_cons.mp hnd).1 (by simp)

end Chain

/-! ## Running a body at every node -/

/-- `while (p) { body(p); p = p->next; }`; `none` when `fuel` rounds were not enough. -/
def walk (next : σ → ι → Option ι) (body : σ → ι → σ) : Nat → Option ι → σ → Option σ
  | _, none, s => some s
  | 0, some _, _ => none
  | fuel + 1, some i, s => walk next body fuel (next (body s i) i) (body s i)

/-- On a chain whose links the body leaves alone, the loop is a fold over its nodes. -/
theorem walk_chain {next : σ → ι → Option ι} {body : σ → ι → σ}
    (hlinks : ∀ s i, next (body s i) = next s) : ∀ {L : List ι} {fuel : Nat} {p : Option ι} {s : σ},
    Chain (next s) p L → L.length ≤ fuel → walk next body fuel p s = some (L.foldl body s) := by
  intro L
  induction L with
  | nil =>
      intro fuel p s h _
      cases h
      rw [walk]
      rfl
  | cons i L ih =>
      intro fuel p s h hf
      cases h with
      | node h =>
          obtain ⟨fuel, rfl⟩ : ∃ f, fuel = f + 1 := ⟨fuel - 1, by
            rw [List.length_cons] at hf
            omega⟩
          rw [walk, hlinks]
          refine ih ?_ (Nat.le_of_succ_le_succ hf)
          rw [hlinks]
          exact h

/-- What every round keeps, the loop keeps, on whatever links. -/
theorem walk_inv {next : σ → ι → Option ι} {body : σ → ι → σ} {P : σ → Prop}
    (hbody : ∀ s i, P s → P (body s i)) : ∀ {fuel : Nat} {p : Option ι} {s t : σ},
    P s → walk next body fuel p s = some t → P t := by
  intro fuel
  induction fuel with
  | zero =>
      intro p s t hs h
      cases p with
      | none =>
          rw [walk] at h
          cases h
          exact hs
      | some i => cases h
  | succ fuel ih =>
      intro p s t hs h
      cases p with
      | none =>
          rw [walk] at h
          cases h
          exact hs
      | some i => exact ih (hbody s i hs) h

/-- At a node that is its own successor the loop never ends. -/
theorem walk_self {next : σ → ι → Option ι} {body : σ → ι → σ}
    (hlinks : ∀ s i, next (body s i) = next s) {i : ι} : ∀ (fuel : Nat) (s : σ),
    next s i = some i → walk next body fuel (some i) s = none := by
  intro fuel
  induction fuel with
  | zero => intro s _; rfl
  | succ fuel ih =>
      intro s h
      rw [walk, hlinks, h]
      refine ih _ ?_
      rw [hlinks]
      exact h

/-! ## The first node wanted -/

/-- `while (p && !hit(p)) p = p->next; return p;`, the outer `none` when the fuel ran out. -/
def seek (next : ι → Option ι) (hit : ι → Bool) : Nat → Option ι → Option (Option ι)
  | _, none => some none
  | 0, some _ => none
  | fuel + 1, some i => if hit i then some (some i) else seek next hit fuel (next i)

/-- On a chain the search is `List.find?`. -/
theorem seek_chain {next : ι → Option ι} (hit : ι → Bool) : ∀ {L : List ι} {fuel : Nat}
    {p : Option ι}, Chain next p L → L.length ≤ fuel →
    seek next hit fuel p = some (L.find? hit) := by
  intro L
  induction L with
  | nil =>
      intro fuel p h _
      cases h
      rw [seek]
      rfl
  | cons i L ih =>
      intro fuel p h hf
      cases h with
      | node h =>
          obtain ⟨fuel, rfl⟩ : ∃ f, fuel = f + 1 := ⟨fuel - 1, by
            rw [List.length_cons] at hf
            omega⟩
          rw [seek, List.find?_cons]
          cases hit i with
          | true => rfl
          | false => exact ih h (Nat.le_of_succ_le_succ hf)

/-- At a node that is its own successor and not wanted the search never ends. -/
theorem seek_self {next : ι → Option ι} {hit : ι → Bool} {i : ι} (hi : next i = some i)
    (hno : hit i = false) : ∀ fuel, seek next hit fuel (some i) = none := by
  intro fuel
  induction fuel with
  | zero => rfl
  | succ fuel ih =>
      rw [seek, hno, hi]
      exact ih

/-! ## The link that leads to a node

A link lies either in the head variable, `none` here, or in a node. -/

/-- What a link holds. -/
def linkAt (next : ι → Option ι) (head : Option ι) : Option ι → Option ι
  | none => head
  | some a => next a

/--
`while (*l != t) l = &(*l)->next;`. The outer `none` is fuel run out, the inner one
a null link followed.
-/
def seekLink [DecidableEq ι] (next : ι → Option ι) (head : Option ι) (t : ι) :
    Nat → Option ι → Option (Option (Option ι))
  | 0, _ => none
  | fuel + 1, l =>
      if linkAt next head l = some t then some (some l)
      else
        match linkAt next head l with
        | none => some none
        | some a => seekLink next head t fuel (some a)

/-- On a chain the link found is the one in front of the node. -/
theorem seekLink_chain [DecidableEq ι] {next : ι → Option ι} {head : Option ι} {t : ι}
    {L₂ : List ι} : ∀ {L₁ : List ι} {fuel : Nat} {l : Option ι}, t ∉ L₁ → L₁.length < fuel →
    Chain next (linkAt next head l) (L₁ ++ t :: L₂) →
    seekLink next head t fuel l = some (some ((l :: L₁.map some).getLast (by simp))) := by
  intro L₁
  induction L₁ with
  | nil =>
      intro fuel l _ hf h
      obtain ⟨fuel, rfl⟩ : ∃ f, fuel = f + 1 := ⟨fuel - 1, by
        rw [List.length_nil] at hf
        omega⟩
      have hl : linkAt next head l = some t := by
        generalize linkAt next head l = p at h
        cases h
        rfl
      rw [seekLink, if_pos hl]
      rfl
  | cons a L₁ ih =>
      intro fuel l ht hf h
      rw [List.length_cons] at hf
      obtain ⟨fuel, rfl⟩ : ∃ f, fuel = f + 1 := ⟨fuel - 1, by omega⟩
      have ⟨hl, htail⟩ : linkAt next head l = some a ∧ Chain next (next a) (L₁ ++ t :: L₂) := by
        generalize linkAt next head l = p at h
        cases h with
        | node h => exact ⟨rfl, h⟩
      have hne : t ≠ a := fun hta => ht (hta ▸ List.mem_cons_self)
      rw [seekLink, hl, if_neg (fun heq => hne (Option.some.inj heq).symm)]
      rw [List.map_cons, List.getLast_cons (by simp)]
      exact ih (fun hm => ht (List.mem_cons_of_mem a hm)) (by omega) htail

end Zbiggie.Machine
