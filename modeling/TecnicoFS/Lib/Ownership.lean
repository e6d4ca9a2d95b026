-- Exact ownership: every thing that is taken has one owner, and every thing
-- that is not taken has none. The laws say how giving a free thing to an
-- owner, and releasing what some owners hold, keep it.
import Mathlib.Data.Finset.Card
import Mathlib.Logic.Function.Basic
import Mathlib.Tactic.SplitIfs

namespace ownership

variable {ω β : Type*} {taken taken' : β → Prop} {own own' : ω → Option β}

/-- `own o` is what the owner `o` holds, or `none` for an owner that holds nothing. -/
structure Exact (taken : β → Prop) (own : ω → Option β) : Prop where
  taken_of_own : ∀ {o b}, own o = some b → taken b
  own_of_taken : ∀ {b}, taken b → ∃ o, own o = some b
  inj : ∀ {o o' b}, own o = some b → own o' = some b → o = o'

theorem Exact.existsUnique (h : Exact taken own) {b : β} (hb : taken b) :
    ∃! o, own o = some b := by
  obtain ⟨o, ho⟩ := h.own_of_taken hb
  exact ⟨o, ho, fun o' ho' => h.inj ho' ho⟩

theorem Exact.no_owner (h : Exact taken own) {b : β} (hb : ¬ taken b) (o : ω) :
    own o ≠ some b := fun ho => hb (h.taken_of_own ho)

theorem Exact.congr (h : Exact taken own) (ht : ∀ b, taken' b ↔ taken b)
    (ho : ∀ o, own' o = own o) : Exact taken' own' where
  taken_of_own := fun {o b} hb => (ht b).mpr (h.taken_of_own (by rw [← ho]; exact hb))
  own_of_taken := fun {b} hb => by
    obtain ⟨o, hob⟩ := h.own_of_taken ((ht b).mp hb)
    exact ⟨o, by rw [ho]; exact hob⟩
  inj := fun h1 h2 => h.inj (by rw [← ho]; exact h1) (by rw [← ho]; exact h2)

/-- A free thing goes to an owner that holds nothing. -/
theorem Exact.give [DecidableEq ω] (h : Exact taken own) {b : β} {o : ω} (hb : ¬ taken b)
    (ho : own o = none) :
    Exact (fun x => taken x ∨ x = b) (Function.update own o (some b)) where
  taken_of_own := by
    intro o' x hx
    by_cases hoo : o' = o
    · subst hoo
      rw [Function.update_self, Option.some.injEq] at hx
      exact Or.inr hx.symm
    · rw [Function.update_of_ne hoo] at hx
      exact Or.inl (h.taken_of_own hx)
  own_of_taken := by
    rintro x (hx | rfl)
    · obtain ⟨o', ho'⟩ := h.own_of_taken hx
      refine ⟨o', ?_⟩
      rw [Function.update_of_ne (by rintro rfl; rw [ho] at ho'; cases ho')]
      exact ho'
    · exact ⟨o, Function.update_self ..⟩
  inj := by
    intro o1 o2 x h1 h2
    have hnew : ∀ o', own o' = some x → x ≠ b := fun o' ho' hxb =>
      hb (hxb ▸ h.taken_of_own ho')
    by_cases ho1 : o1 = o <;> by_cases ho2 : o2 = o
    · rw [ho1, ho2]
    · subst ho1
      rw [Function.update_self, Option.some.injEq] at h1
      rw [Function.update_of_ne ho2] at h2
      exact absurd h1.symm (hnew _ h2)
    · subst ho2
      rw [Function.update_self, Option.some.injEq] at h2
      rw [Function.update_of_ne ho1] at h1
      exact absurd h2.symm (hnew _ h1)
    · rw [Function.update_of_ne ho1] at h1
      rw [Function.update_of_ne ho2] at h2
      exact h.inj h1 h2

/-- Some owners go, and what they held is free again. -/
theorem Exact.release (h : Exact taken own) (gone : ω → Prop) [DecidablePred gone] :
    Exact (fun b => taken b ∧ ∀ o, gone o → own o ≠ some b)
      (fun o => if gone o then none else own o) where
  taken_of_own := by
    intro o b hb
    split_ifs at hb with hg
    exact ⟨h.taken_of_own hb, fun o' hg' hb' => hg (h.inj hb' hb ▸ hg')⟩
  own_of_taken := by
    rintro b ⟨hb, hrest⟩
    obtain ⟨o, ho⟩ := h.own_of_taken hb
    refine ⟨o, ?_⟩
    rw [if_neg (fun hg => hrest o hg ho)]
    exact ho
  inj := by
    intro o o' b h1 h2
    split_ifs at h1 h2
    exact h.inj h1 h2

/-- There are as many owners as things that are taken. -/
theorem Exact.card_eq (h : Exact taken own) {T : Finset β} {O : Finset ω}
    (hT : ∀ b, b ∈ T ↔ taken b) (hO : ∀ o, o ∈ O ↔ (own o).isSome = true) : O.card = T.card := by
  refine Finset.card_bij (fun o ho => (own o).get ((hO o).mp ho)) (fun o ho => ?_)
    (fun o ho o' ho' he => ?_) (fun b hb => ?_)
  · exact (hT _).mpr (h.taken_of_own (Option.some_get _).symm)
  · apply h.inj (Option.some_get ((hO o).mp ho)).symm
    rw [he]
    exact (Option.some_get _).symm
  · obtain ⟨o, ho⟩ := h.own_of_taken ((hT b).mp hb)
    exact ⟨o, (hO o).mpr (by rw [ho]; rfl), by simp only [ho, Option.get_some]⟩

end ownership
