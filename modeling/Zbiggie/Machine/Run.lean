import Mathlib.Data.List.Basic

/-!
# Runs of a transition system, and counted loops

Two shapes of repetition carry every result about the kernel: a *run*, in which
the system takes one labelled step after another, and a *counted loop*, in which
one body is executed for `i = 0, 1, …, n - 1`. Each comes with the one induction
that is ever needed over it.

A run is stated over a relation, so that a step may be refused (a process that is
not scheduled takes no step) and so that a guard on the steps is itself just a
smaller relation.
-/

namespace Zbiggie.Machine

variable {σ α : Type}

/-- `Run step s as t`: from `s`, the steps labelled `as`, in order, lead to `t`. -/
inductive Run (step : σ → α → σ → Prop) (s : σ) : List α → σ → Prop where
  | nil : Run step s [] s
  | snoc {as : List α} {a : α} {t u : σ} :
      Run step s as t → step t a u → Run step s (as ++ [a]) u

/-- The steps of `step` whose source state and label satisfy `ok`. -/
def Guarded (step : σ → α → σ → Prop) (ok : σ → α → Prop) (s : σ) (a : α) (t : σ) : Prop :=
  ok s a ∧ step s a t

/-- **The invariant rule.** What holds at the start and survives each step holds at the end. -/
theorem Run.invariant {step : σ → α → σ → Prop} {I : σ → Prop} {s t : σ} {as : List α}
    (h0 : I s) (hstep : ∀ s a t, step s a t → I s → I t) (h : Run step s as t) : I t := by
  induction h with
  | nil => exact h0
  | snoc _ hs ih => exact hstep _ _ _ hs ih

/-- A run of a smaller relation is a run of a larger one. -/
theorem Run.mono {step step' : σ → α → σ → Prop} (hsub : ∀ s a t, step s a t → step' s a t)
    {s t : σ} {as : List α} (h : Run step s as t) : Run step' s as t := by
  induction h with
  | nil => exact .nil
  | snoc _ hs ih => exact .snoc ih (hsub _ _ _ hs)

theorem Run.one {step : σ → α → σ → Prop} {s t : σ} {a : α} (h : step s a t) :
    Run step s [a] t := by
  have := Run.snoc (.nil : Run step s [] s) h
  simpa using this

/-- Runs compose. -/
theorem Run.append {step : σ → α → σ → Prop} {s t u : σ} {as bs : List α}
    (h1 : Run step s as t) (h2 : Run step t bs u) : Run step s (as ++ bs) u := by
  induction h2 with
  | nil => simpa using h1
  | snoc _ hs ih => rw [← List.append_assoc]; exact .snoc ih hs

/-- Take the listed steps of a step function, as long as each is allowed. -/
def replay (next : σ → α → Option σ) (ok : σ → α → Prop) [∀ s a, Decidable (ok s a)] (s : σ) :
    List α → Option σ
  | [] => some s
  | a :: as => if ok s a then (next s a).bind fun t => replay next ok t as else none

/-- What replays is a run. -/
theorem run_replay {next : σ → α → Option σ} {ok : σ → α → Prop} [∀ s a, Decidable (ok s a)]
    {s t : σ} {as : List α} (h : replay next ok s as = some t) :
    Run (Guarded (fun s a t => next s a = some t) ok) s as t := by
  induction as generalizing s with
  | nil =>
      cases h
      exact .nil
  | cons a as ih =>
      rw [replay] at h
      split at h
      · rename_i hok
        obtain ⟨u, h1, h2⟩ := Option.bind_eq_some_iff.mp h
        exact (Run.one ⟨hok, h1⟩).append (ih h2)
      · cases h

/-- `body 0`, then `body 1`, …, then `body (n - 1)`. -/
def forLoop (n : Nat) (body : Nat → σ → σ) (s : σ) : σ :=
  match n with
  | 0 => s
  | n + 1 => body n (forLoop n body s)

@[simp] theorem forLoop_zero (body : Nat → σ → σ) (s : σ) : forLoop 0 body s = s := rfl

@[simp] theorem forLoop_succ (n : Nat) (body : Nat → σ → σ) (s : σ) :
    forLoop (n + 1) body s = body n (forLoop n body s) := rfl

/-- **The loop rule.** An invariant indexed by the number of rounds done. -/
theorem forLoop_inv {body : Nat → σ → σ} {P : Nat → σ → Prop} {s : σ} (h0 : P 0 s) :
    ∀ (n : Nat), (∀ i t, i < n → P i t → P (i + 1) (body i t)) → P n (forLoop n body s)
  | 0, _ => h0
  | n + 1, h => h n _ (Nat.lt_succ_self n)
      (forLoop_inv h0 n (fun i t hi => h i t (Nat.lt_succ_of_lt hi)))

end Zbiggie.Machine
