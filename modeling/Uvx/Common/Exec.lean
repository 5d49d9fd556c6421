import Mathlib.Data.Nat.Notation
import Mathlib.Logic.Basic

/-!
# Runs of a transition system

`Exec step s as s'`: the actions `as` lead from `s` to `s'`, one after another. What holds at the
start and is kept by every step holds at the end (`Exec.invariant`).
-/

/-- The runs of `step`, with their actions in order. -/
inductive Exec {σ α : Type*} (step : σ → α → σ → Prop) (s : σ) : List α → σ → Prop
  | nil : Exec step s [] s
  | snoc {as : List α} {s' : σ} {a : α} {s'' : σ} :
      Exec step s as s' → step s' a s'' → Exec step s (as ++ [a]) s''

/-- The steps taken where `P` holds. -/
def Guarded {σ α : Type*} (step : σ → α → σ → Prop) (P : σ → α → Prop) (s : σ) (a : α) (s' : σ) :
    Prop :=
  step s a s' ∧ P s a

namespace Exec

variable {σ α : Type*} {step step' : σ → α → σ → Prop} {s s' : σ} {as : List α}

/-- An invariant about the actions taken so far. -/
theorem invariant_actions {I : List α → σ → Prop} (h : Exec step s as s') (h₀ : I [] s)
    (hstep : ∀ as s a s', I as s → step s a s' → I (as ++ [a]) s') : I as s' := by
  induction h with
  | nil => exact h₀
  | snoc _ ha ih => exact hstep _ _ _ _ ih ha

/-- An invariant that only the actions with `P` preserve. -/
theorem invariant_of_forall {P : α → Prop} {I : List α → σ → Prop} (h : Exec step s as s')
    (hP : ∀ a ∈ as, P a) (h₀ : I [] s)
    (hstep : ∀ as s a s', I as s → P a → step s a s' → I (as ++ [a]) s') : I as s' := by
  refine h.invariant_actions (I := fun as s => (∀ a ∈ as, P a) → I as s) (fun _ => h₀) ?_ hP
  intro as s a s' ih ha hall
  exact hstep as s a s' (ih fun x hx => hall x (List.mem_append_left _ hx)) (hall a (by simp)) ha

theorem invariant {I : σ → Prop} (h : Exec step s as s') (h₀ : I s)
    (hstep : ∀ s a s', I s → step s a s' → I s') : I s' :=
  h.invariant_actions (I := fun _ => I) h₀ fun _ => hstep

theorem mono (h : Exec step s as s') (hstep : ∀ s a s', step s a s' → step' s a s') :
    Exec step' s as s' := by
  induction h with
  | nil => exact .nil
  | snoc _ ha ih => exact .snoc ih (hstep _ _ _ ha)

/-- The run without the guards. -/
theorem unguarded {P : σ → α → Prop} (h : Exec (Guarded step P) s as s') : Exec step s as s' :=
  h.mono fun _ _ _ hstep => hstep.1

/-- If every step uses up some of a potential `n`, a run has at most `n` steps. -/
theorem length_le_of_potential {I : ℕ → σ → Prop} {n : ℕ} (h : Exec step s as s') (h₀ : I n s)
    (hstep : ∀ n s a s', I n s → step s a s' → ∃ n' < n, I n' s') :
    ∃ n', as.length + n' ≤ n ∧ I n' s' := by
  induction h with
  | nil => exact ⟨n, Nat.le_of_eq (Nat.zero_add n), h₀⟩
  | snoc _ ha ih =>
    obtain ⟨n', hle, hn'⟩ := ih
    obtain ⟨n'', hlt, hn''⟩ := hstep n' _ _ _ hn' ha
    refine ⟨n'', ?_, hn''⟩
    rw [List.length_append, List.length_singleton]
    omega

/-- A step in front of a run. -/
theorem cons {a : α} {s₁ s₂ : σ} (ha : step s a s₁) (h : Exec step s₁ as s₂) :
    Exec step s (a :: as) s₂ := by
  induction h with
  | nil => exact .snoc .nil ha
  | snoc _ hb ih => exact .snoc ih hb

end Exec
