-- What a machine is bound to reach by its own steps, whichever of them it takes, while
-- nobody else acts on it. A rule with a measure.
import Mathlib.Logic.Basic

namespace progress

variable {σ α : Type*} (step : σ → α → Option σ) (own : α → Prop) (ok : σ → α → Prop)
  (P : σ → Prop)

/-- The property comes after `n` own steps at most, in whatever order they are taken, as long as
they are all right, and until it comes some own step is possible. -/
inductive Within : Nat → σ → Prop
  | here {n : Nat} {s : σ} : P s → Within n s
  | later {n : Nat} {s : σ} : (∃ a s', own a ∧ step s a = some s') →
      (∀ a s', own a → ok s a → step s a = some s' → Within n s') → Within (n + 1) s

variable {step own ok P}

/-- A measure that every own step lowers bounds how long it takes. -/
theorem within_of_measure {I : σ → Prop} {μ : σ → Nat}
    (hgo : ∀ s, I s → ¬ P s → 0 < μ s ∧ ∃ a s', own a ∧ step s a = some s')
    (hs : ∀ s a s', I s → ¬ P s → own a → ok s a → step s a = some s' → I s' ∧ μ s' < μ s)
    {s : σ} (h : I s) : Within step own ok P (μ s) s := by
  suffices hn : ∀ n s, I s → μ s ≤ n → Within step own ok P n s from hn _ _ h (Nat.le_refl _)
  intro n
  induction n with
  | zero =>
    intro s h hle
    by_cases hP : P s
    · exact .here hP
    · have := (hgo s h hP).1
      omega
  | succ n ih =>
    intro s h hle
    by_cases hP : P s
    · exact .here hP
    · refine .later (hgo s h hP).2 fun a s' ho hok he => ?_
      obtain ⟨hi, hlt⟩ := hs s a s' h hP ho hok he
      exact ih s' hi (by omega)

end progress
