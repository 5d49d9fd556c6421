import Mathlib.Logic.Basic

/-!
# Preconditions of state programs that may fail

`Wp m E Q s`: run from `s`, the program `m` ends with a value and a state in `Q`, or fails with an
error in `E`. The rules follow the structure of the program. A program given in full is run by the
`run_` lemmas.
-/

section Run

variable {σ ε α β : Type} (s : σ)

theorem run_pure (a : α) : (pure a : StateT σ (Except ε) α) s = .ok (a, s) := rfl

theorem run_get : (get : StateT σ (Except ε) σ) s = .ok (s, s) := rfl

theorem run_set (s' : σ) : (set s' : StateT σ (Except ε) PUnit) s = .ok (⟨⟩, s') := rfl

theorem run_modify (f : σ → σ) : (modify f : StateT σ (Except ε) PUnit) s = .ok (⟨⟩, f s) := rfl

theorem run_bind (m : StateT σ (Except ε) α) (f : α → StateT σ (Except ε) β) :
    (m >>= f) s = (m s).bind fun r => f r.1 r.2 := rfl

theorem run_map (f : α → β) (m : StateT σ (Except ε) α) :
    (f <$> m) s = (m s).bind fun r => .ok (f r.1, r.2) := rfl

end Run

/-- `m` run from `s` ends in `Q`, or fails in `E`. -/
def Wp {σ ε α : Type} (m : StateT σ (Except ε) α) (E : ε → Prop) (Q : α → σ → Prop) (s : σ) :
    Prop :=
  match m s with
  | .ok (a, s') => Q a s'
  | .error e => E e

namespace Wp

variable {σ ε α β : Type} {E : ε → Prop} {s : σ}

theorem of_ok {m : StateT σ (Except ε) α} {Q : α → σ → Prop} {a : α} {s' : σ}
    (h : m s = .ok (a, s')) (hq : Q a s') : Wp m E Q s := by
  unfold Wp
  rw [h]
  exact hq

theorem of_error {m : StateT σ (Except ε) α} {Q : α → σ → Prop} {e : ε} (h : m s = .error e)
    (he : E e) : Wp m E Q s := by
  unfold Wp
  rw [h]
  exact he

/-- A run that ends, ends in the postcondition. -/
theorem ok {m : StateT σ (Except ε) α} {Q : α → σ → Prop} {a : α} {s' : σ} (h : Wp m E Q s)
    (hm : m s = .ok (a, s')) : Q a s' := by
  unfold Wp at h
  rw [hm] at h
  exact h

theorem error {m : StateT σ (Except ε) α} {Q : α → σ → Prop} {e : ε} (h : Wp m E Q s)
    (hm : m s = .error e) : E e := by
  unfold Wp at h
  rw [hm] at h
  exact h

/-- Without admitted errors the run ends. -/
theorem exists_ok {m : StateT σ (Except ε) α} {Q : α → σ → Prop} (h : Wp m E Q s)
    (hE : ∀ e, ¬ E e) : ∃ a s', m s = .ok (a, s') ∧ Q a s' := by
  cases hm : m s with
  | ok r => exact ⟨r.1, r.2, rfl, h.ok hm⟩
  | error e => exact absurd (h.error hm) (hE e)

theorem mono {m : StateT σ (Except ε) α} {Q Q' : α → σ → Prop} (h : Wp m E Q s)
    (hq : ∀ a s', Q a s' → Q' a s') : Wp m E Q' s := by
  cases hm : m s with
  | ok r => exact of_ok hm (hq _ _ (h.ok hm))
  | error e => exact of_error hm (h.error hm)

theorem pure {Q : α → σ → Prop} {a : α} (h : Q a s) : Wp (Pure.pure a) E Q s := h

theorem bind {m : StateT σ (Except ε) α} {f : α → StateT σ (Except ε) β} {Q : β → σ → Prop}
    (h : Wp m E (fun a s' => Wp (f a) E Q s') s) : Wp (m >>= f) E Q s := by
  have hrun := run_bind s m f
  cases hm : m s with
  | ok r =>
    have hf := h.ok hm
    unfold Wp at hf ⊢
    rw [hrun, hm]
    exact hf
  | error e => exact of_error (by rw [hrun, hm]; rfl) (h.error hm)

/-- Run the first part, then the second. -/
theorem seq {m : StateT σ (Except ε) α} {f : α → StateT σ (Except ε) β} {P : α → σ → Prop}
    {Q : β → σ → Prop} (h : Wp m E P s) (hf : ∀ a s', P a s' → Wp (f a) E Q s') :
    Wp (m >>= f) E Q s :=
  bind (h.mono hf)

theorem get {Q : σ → σ → Prop} (h : Q s s) : Wp MonadState.get E Q s := h

theorem modify {Q : Unit → σ → Prop} {f : σ → σ} (h : Q ⟨⟩ (f s)) :
    Wp (modify f) E Q s := h

/-- A loop over a list keeps what its body keeps. -/
theorem forM {f : α → StateT σ (Except ε) Unit} {I : σ → Prop} {l : List α}
    (hf : ∀ a ∈ l, ∀ s, I s → Wp (f a) E (fun _ => I) s) (hs : I s) :
    Wp (l.forM f) E (fun _ => I) s := by
  induction l generalizing s with
  | nil => exact pure hs
  | cons a l ih =>
    exact seq (hf a (by simp) s hs) fun _ s' hs' =>
      ih (fun b hb => hf b (List.mem_cons_of_mem a hb)) hs'

end Wp
