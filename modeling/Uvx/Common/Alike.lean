import Mathlib.Init

/-!
# Computations that go alike

`Alike R x y`: both computations end, with results related by `R`, or both stop for the same reason.
It is kept by sequencing (`Alike.bind`), so that a simulation of one program by another can be proved
along their text.
-/

/-- Both end with related results, or both stop for the same reason. -/
inductive Alike {ε α β : Type*} (R : α → β → Prop) : Except ε α → Except ε β → Prop
  | ok {a : α} {b : β} (h : R a b) : Alike R (.ok a) (.ok b)
  | error (e : ε) : Alike R (.error e) (.error e)

namespace Alike

variable {ε : Type*} {α β γ δ : Type _} {R : α → β → Prop} {Q : γ → δ → Prop} {x : Except ε α}
  {y : Except ε β}

theorem bind {f : α → Except ε γ} {g : β → Except ε δ} (h : Alike R x y)
    (hf : ∀ a b, R a b → Alike Q (f a) (g b)) : Alike Q (x.bind f) (y.bind g) := by
  cases h with
  | ok hab => exact hf _ _ hab
  | error e => exact .error e

theorem map {f : α → γ} {g : β → δ} (h : Alike R x y) (hf : ∀ a b, R a b → Q (f a) (g b)) :
    Alike Q (x.map f) (y.map g) := by
  cases h with
  | ok hab => exact .ok (hf _ _ hab)
  | error e => exact .error e

theorem refl (x : Except ε α) : Alike Eq x x := by
  cases x with
  | ok a => exact .ok rfl
  | error e => exact .error e

theorem exists_of_ok {a : α} (h : Alike R x y) (hx : x = .ok a) : ∃ b, y = .ok b ∧ R a b := by
  cases h with
  | ok hab => exact ⟨_, rfl, Except.ok.inj hx ▸ hab⟩
  | error e => cases hx

end Alike
