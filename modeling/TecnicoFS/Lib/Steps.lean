-- Runs of a machine that cannot take every action in every state: a thread
-- that waits for a lock, or a call whose behaviour is not defined. A rule
-- says when a property of all states is the same as a condition on the steps.
import Mathlib.Logic.Basic

namespace steps

variable {σ α : Type*} (step : σ → α → Option σ)

/-- The state after a list of actions, if each of them is possible. -/
def after : σ → List α → Option σ
  | s, [] => some s
  | s, a :: as => (step s a).bind fun s' => after s' as

/-- A state that some run from a start state leads to. -/
inductive Reachable (start : σ → Prop) : σ → Prop
  | start {s : σ} : start s → Reachable start s
  | step {s s' : σ} (a : α) : Reachable start s → step s a = some s' → Reachable start s'

/-- Every action that the run takes meets `ok` in the state before it. -/
def Meets (ok : σ → α → Prop) : σ → List α → Prop
  | _, [] => True
  | s, a :: as => ∀ s', step s a = some s' → ok s a ∧ Meets ok s' as

/-- Every state of the run has the property, the first and the last one too. -/
def Always (P : σ → Prop) : σ → List α → Prop
  | s, [] => P s
  | s, a :: as => P s ∧ ∀ s', step s a = some s' → Always P s' as

variable {step}

theorem Reachable.invariant {start : σ → Prop} {P : σ → Prop} (h0 : ∀ s, start s → P s)
    (hs : ∀ s a s', P s → step s a = some s' → P s') {s : σ} (h : Reachable step start s) :
    P s := by
  induction h with
  | start h => exact h0 _ h
  | step a _ he ih => exact hs _ a _ ih he

theorem Reachable.after {start : σ → Prop} {s s' : σ} (h : Reachable step start s) {as : List α}
    (he : after step s as = some s') : Reachable step start s' := by
  induction as generalizing s with
  | nil =>
    cases he
    exact h
  | cons a as ih =>
    obtain ⟨t, ht, he'⟩ := Option.bind_eq_some_iff.mp he
    exact ih (.step a h ht) he'

/-- A relation that every step keeps holds between any state and a later one. -/
theorem after_related {I : σ → Prop} {R : σ → σ → Prop} (hrefl : ∀ s, R s s)
    (htrans : ∀ s t u, R s t → R t u → R s u)
    (hs : ∀ s a s', I s → step s a = some s' → I s' ∧ R s s') {s s' : σ} {as : List α} (h : I s)
    (he : after step s as = some s') : I s' ∧ R s s' := by
  induction as generalizing s with
  | nil =>
    cases he
    exact ⟨h, hrefl _⟩
  | cons a as ih =>
    obtain ⟨t, ht, he'⟩ := Option.bind_eq_some_iff.mp he
    obtain ⟨hi, hr⟩ := hs s a t h ht
    obtain ⟨hi', hr'⟩ := ih hi he'
    exact ⟨hi', htrans _ _ _ hr hr'⟩

/-- The same for the runs whose steps are allowed. -/
theorem Meets.after_related {ok : σ → α → Prop} {I : σ → Prop} {R : σ → σ → Prop}
    (hrefl : ∀ s, R s s) (htrans : ∀ s t u, R s t → R t u → R s u)
    (hs : ∀ s a s', I s → ok s a → step s a = some s' → I s' ∧ R s s') {s s' : σ} {as : List α}
    (hm : Meets step ok s as) (h : I s) (he : after step s as = some s') : I s' ∧ R s s' := by
  induction as generalizing s with
  | nil =>
    cases he
    exact ⟨h, hrefl _⟩
  | cons a as ih =>
    obtain ⟨t, ht, he'⟩ := Option.bind_eq_some_iff.mp he
    obtain ⟨hok, hrest⟩ := hm t ht
    obtain ⟨hi, hr⟩ := hs s a t h hok ht
    obtain ⟨hi', hr'⟩ := ih hrest hi he'
    exact ⟨hi', htrans _ _ _ hr hr'⟩

/-- A condition may be replaced by one that it implies in the states of such a run. -/
theorem Meets.mono {ok ok' : σ → α → Prop} {I : σ → Prop}
    (hs : ∀ s a s', I s → ok s a → step s a = some s' → I s')
    (hok : ∀ s a, I s → ok s a → ok' s a) {s : σ} {as : List α} (h : I s)
    (hm : Meets step ok s as) : Meets step ok' s as := by
  induction as generalizing s with
  | nil => trivial
  | cons a as ih =>
    intro s' he
    obtain ⟨ha, hrest⟩ := hm s' he
    exact ⟨hok s a h ha, ih (hs s a s' h ha he) hrest⟩

theorem Meets.append {ok : σ → α → Prop} {s : σ} {as bs : List α}
    (h : Meets step ok s (as ++ bs)) :
    Meets step ok s as ∧ ∀ s', after step s as = some s' → Meets step ok s' bs := by
  induction as generalizing s with
  | nil =>
    refine ⟨trivial, fun s' he => ?_⟩
    cases he
    exact h
  | cons a as ih =>
    refine ⟨fun t ht => ⟨(h t ht).1, (ih (h t ht).2).1⟩, fun s' he => ?_⟩
    obtain ⟨t, ht, he'⟩ := Option.bind_eq_some_iff.mp he
    exact (ih (h t ht).2).2 s' he'

theorem Always.first {P : σ → Prop} {s : σ} {as : List α} (h : Always step P s as) : P s := by
  cases as with
  | nil => exact h
  | cons a as => exact h.1

theorem Always.last {P : σ → Prop} {s s' : σ} {as : List α} (h : Always step P s as)
    (he : after step s as = some s') : P s' := by
  induction as generalizing s with
  | nil =>
    cases he
    exact h
  | cons a as ih =>
    obtain ⟨t, ht, he'⟩ := Option.bind_eq_some_iff.mp he
    exact ih (h.2 t ht) he'

theorem Always.mono {P Q : σ → Prop} (hPQ : ∀ s, P s → Q s) {s : σ} {as : List α}
    (h : Always step P s as) : Always step Q s as := by
  induction as generalizing s with
  | nil => exact hPQ s h
  | cons a as ih => exact ⟨hPQ s h.1, fun s' he => ih (h.2 s' he)⟩

/-- A property that every allowed step keeps holds along every allowed run. -/
theorem always_of_meets {ok : σ → α → Prop} {I : σ → Prop}
    (hs : ∀ s a s', I s → ok s a → step s a = some s' → I s') {s : σ} {as : List α} (h : I s)
    (hm : Meets step ok s as) : Always step I s as := by
  induction as generalizing s with
  | nil => exact h
  | cons a as ih =>
    refine ⟨h, fun s' he => ?_⟩
    obtain ⟨hok, hrest⟩ := hm s' he
    exact ih (hs s a s' h hok he) hrest

theorem meets_cons {ok : σ → α → Prop} {s s' : σ} {a : α} {as : List α} (he : step s a = some s')
    (hok : ok s a) (hrest : Meets step ok s' as) : Meets step ok s (a :: as) := by
  intro t ht
  rw [he, Option.some.injEq] at ht
  exact ⟨hok, ht ▸ hrest⟩

theorem meets_cons_iff {ok : σ → α → Prop} {s s' : σ} {a : α} {as : List α}
    (he : step s a = some s') : Meets step ok s (a :: as) ↔ ok s a ∧ Meets step ok s' as :=
  ⟨fun h => h s' he, fun h => meets_cons he h.1 h.2⟩

theorem meets_of_stuck {ok : σ → α → Prop} {s : σ} {a : α} {as : List α}
    (he : step s a = none) : Meets step ok s (a :: as) := by
  intro s' hs'
  rw [he] at hs'
  cases hs'

/-- A condition that can be decided in a state can be decided along a run. -/
instance decidableMeets (step : σ → α → Option σ) (ok : σ → α → Prop)
    [∀ s a, Decidable (ok s a)] : (s : σ) → (as : List α) → Decidable (Meets step ok s as)
  | _, [] => isTrue trivial
  | s, a :: as =>
    match he : step s a with
    | none => isTrue (meets_of_stuck he)
    | some s' =>
      have := decidableMeets step ok s' as
      decidable_of_iff (ok s a ∧ Meets step ok s' as) (meets_cons_iff he).symm

theorem meets_true (s : σ) (as : List α) : Meets step (fun _ _ => True) s as := by
  induction as generalizing s with
  | nil => trivial
  | cons a as ih => exact fun s' _ => ⟨trivial, ih s'⟩

/-- If every step that is not allowed breaks the property, then the runs that have it throughout
are the runs of allowed steps. All of this is about the runs in the domain `dom`. -/
theorem always_iff_meets {dom ok : σ → α → Prop} {I P : σ → Prop} (hP : ∀ s, I s → P s)
    (hs : ∀ s a s', I s → dom s a → ok s a → step s a = some s' → I s')
    (hbad : ∀ s a s', I s → dom s a → ¬ ok s a → step s a = some s' → ¬ P s')
    {s : σ} {as : List α} (h : I s) (hd : Meets step dom s as) :
    Always step P s as ↔ Meets step ok s as := by
  induction as generalizing s with
  | nil => exact ⟨fun _ => trivial, fun _ => hP s h⟩
  | cons a as ih =>
    constructor
    · intro ha s' he
      obtain ⟨hda, hdr⟩ := hd s' he
      have hrest := ha.2 s' he
      have hok : ok s a :=
        Classical.byContradiction fun hno => hbad s a s' h hda hno he hrest.first
      exact ⟨hok, (ih (hs s a s' h hda hok he) hdr).mp hrest⟩
    · intro hm
      refine ⟨hP s h, fun s' he => ?_⟩
      obtain ⟨hda, hdr⟩ := hd s' he
      obtain ⟨hok, hrest⟩ := hm s' he
      exact (ih (hs s a s' h hda hok he) hdr).mpr hrest

end steps
