-- Runs of a machine: the states that a finite list of actions leads to, and
-- the rules that carry a property of one step to a whole run.
import Mathlib.Logic.Basic

namespace runs

/-! ## Machines that answer every action -/

section answering

variable {σ α ρ : Type*} (step : σ → α → ρ × σ)

/-- The answers of a list of actions, and the state after them. -/
def run : σ → List α → List ρ × σ
  | s, [] => ([], s)
  | s, a :: as =>
    let r := step s a
    let rest := run r.2 as
    (r.1 :: rest.1, rest.2)

/-- A state that some run from a start state leads to. -/
inductive Reachable (start : σ → Prop) : σ → Prop
  | start {s : σ} : start s → Reachable start s
  | step {s : σ} (a : α) : Reachable start s → Reachable start (step s a).2

/-- Every action of the run meets `ok` in the state before it. -/
def Meets (ok : σ → α → Prop) : σ → List α → Prop
  | _, [] => True
  | s, a :: as => ok s a ∧ Meets ok (step s a).2 as

/-- Every state of the run has the property, the first and the last one too. -/
def Always (P : σ → Prop) : σ → List α → Prop
  | s, [] => P s
  | s, a :: as => P s ∧ Always P (step s a).2 as

variable {step}

theorem Reachable.invariant {start : σ → Prop} {P : σ → Prop} (h0 : ∀ s, start s → P s)
    (hs : ∀ s a, P s → P (step s a).2) {s : σ} (h : Reachable step start s) : P s := by
  induction h with
  | start h => exact h0 _ h
  | step a _ ih => exact hs _ a ih

theorem Reachable.run {start : σ → Prop} {s : σ} (h : Reachable step start s) (as : List α) :
    Reachable step start (run step s as).2 := by
  induction as generalizing s with
  | nil => exact h
  | cons a as ih => exact ih (.step a h)

theorem run_append (s : σ) (as bs : List α) :
    run step s (as ++ bs) =
      ((run step s as).1 ++ (run step (run step s as).2 bs).1,
        (run step (run step s as).2 bs).2) := by
  induction as generalizing s with
  | nil => rfl
  | cons a as ih => simp only [List.cons_append, run, ih]

/-- A property that every allowed step keeps holds along every allowed run. -/
theorem always_of_meets {ok : σ → α → Prop} {P : σ → Prop}
    (hs : ∀ s a, P s → ok s a → P (step s a).2) {s : σ} {as : List α} (h : P s)
    (hm : Meets step ok s as) : Always step P s as := by
  induction as generalizing s with
  | nil => exact h
  | cons a as ih => exact ⟨h, ih (hs s a h hm.1) hm.2⟩

theorem Always.last {P : σ → Prop} {s : σ} {as : List α} (h : Always step P s as) :
    P (runs.run step s as).2 := by
  induction as generalizing s with
  | nil => exact h
  | cons a as ih => exact ih h.2

theorem Always.first {P : σ → Prop} {s : σ} {as : List α} (h : Always step P s as) : P s := by
  cases as with
  | nil => exact h
  | cons a as => exact h.1

/-- If the property after a step says that the step was allowed, then all steps of a run that has
it throughout were. -/
theorem Always.meets {ok : σ → α → Prop} {I P : σ → Prop} (hs : ∀ s a, I s → I (step s a).2)
    (hok : ∀ s a, I s → P (step s a).2 → ok s a) {s : σ} {as : List α} (h : I s)
    (ha : Always step P s as) : Meets step ok s as := by
  induction as generalizing s with
  | nil => trivial
  | cons a as ih => exact ⟨hok s a h ha.2.first, ih (hs s a h) ha.2⟩

/-- If every step that is not allowed breaks the property, then the runs that have it throughout
are the runs of allowed steps. -/
theorem always_iff_meets {ok : σ → α → Prop} {I P : σ → Prop} (hP : ∀ s, I s → P s)
    (hs : ∀ s a, I s → ok s a → I (step s a).2) (hbad : ∀ s a, I s → ¬ ok s a → ¬ P (step s a).2)
    {s : σ} {as : List α} (h : I s) : Always step P s as ↔ Meets step ok s as := by
  induction as generalizing s with
  | nil => exact ⟨fun _ => trivial, fun _ => hP s h⟩
  | cons a as ih =>
    constructor
    · rintro ⟨_, hrest⟩
      have hok : ok s a := Classical.byContradiction fun hno => hbad s a h hno hrest.first
      exact ⟨hok, (ih (hs s a h hok)).mp hrest⟩
    · rintro ⟨hok, hrest⟩
      exact ⟨hP s h, (ih (hs s a h hok)).mpr hrest⟩

theorem Always.mono {P Q : σ → Prop} (hPQ : ∀ s, P s → Q s) {s : σ} {as : List α}
    (h : Always step P s as) : Always step Q s as := by
  induction as generalizing s with
  | nil => exact hPQ s h
  | cons a as ih => exact ⟨hPQ s h.1, ih h.2⟩

/-- The actions of two runs go in pairs. `pair` may look at the state that the first run
has before the pair. -/
def Paired (step : σ → α → ρ × σ) (pair : σ → α → α → Prop) : σ → List α → List α → Prop
  | _, [], [] => True
  | s, a :: as, b :: bs => pair s a b ∧ Paired step pair (step s a).2 as bs
  | _, _, _ => False

/-- The answers of two runs go in pairs. `same` may look at the state and the action of the
first run that gave the answer. -/
def Agree (step : σ → α → ρ × σ) (same : σ → α → ρ → ρ → Prop) :
    σ → List α → List ρ → List ρ → Prop
  | _, [], [], [] => True
  | s, a :: as, x :: xs, y :: ys => same s a x y ∧ Agree step same (step s a).2 as xs ys
  | _, _, _, _ => False

/-- What the first run meets goes into the pairs. -/
theorem Paired.and_meets {pair : σ → α → α → Prop} {ok : σ → α → Prop} {as bs : List α} {s : σ}
    (hp : Paired step pair s as bs) (hm : Meets step ok s as) :
    Paired step (fun s a b => pair s a b ∧ ok s a) s as bs := by
  induction as generalizing bs s with
  | nil => cases bs with
    | nil => trivial
    | cons b bs => exact hp.elim
  | cons a as ih => cases bs with
    | nil => exact hp.elim
    | cons b bs => exact ⟨⟨hp.1, hm.1⟩, ih hp.2 hm.2⟩

/-- A relation between the states of two runs that every pair of steps keeps holds at the end
of paired runs, and their answers agree on the way. -/
theorem run_related {R : σ → σ → Prop} {pair : σ → α → α → Prop} {same : σ → α → ρ → ρ → Prop}
    (hs : ∀ s t a b, R s t → pair s a b →
      R (step s a).2 (step t b).2 ∧ same s a (step s a).1 (step t b).1)
    {as bs : List α} {s t : σ} (h : R s t) (hp : Paired step pair s as bs) :
    R (run step s as).2 (run step t bs).2 ∧
      Agree step same s as (run step s as).1 (run step t bs).1 := by
  induction as generalizing bs s t with
  | nil =>
    cases bs with
    | nil => exact ⟨h, trivial⟩
    | cons b bs => exact hp.elim
  | cons a as ih =>
    cases bs with
    | nil => exact hp.elim
    | cons b bs =>
      have h0 := hs s t a b h hp.1
      have hrest := ih h0.1 hp.2
      exact ⟨hrest.1, h0.2, hrest.2⟩

end answering

end runs
