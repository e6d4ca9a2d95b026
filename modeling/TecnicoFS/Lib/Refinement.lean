-- Refinement: a machine that may be undefined answers like another one that says
-- what it is for. What one step shows, a whole run shows.
import TecnicoFS.Lib.Runs

namespace refinement

variable {σ τ α ρ ρ' υ : Type*}

/-- The answers of a list of actions, and the state after them, if each of them is defined. -/
def run (step : σ → α → Option (ρ × σ)) : σ → List α → Option (List ρ × σ)
  | s, [] => some ([], s)
  | s, a :: as => (step s a).bind fun r => (run step r.2 as).map fun rest => (r.1 :: rest.1, rest.2)

/-- While the actions are allowed, each step of the machine is defined, its answer shows what the
answer of the specification shows, and the two states stay related. -/
structure Refines (step : σ → α → Option (ρ × σ)) (spec : τ → α → ρ' × τ) (ok : τ → α → Prop)
    (shown : ρ → υ) (shown' : ρ' → υ) (R : σ → τ → Prop) : Prop where
  step : ∀ {s t a}, R s t → ok t a → ∃ r s', step s a = some (r, s') ∧
    shown r = shown' (spec t a).1 ∧ R s' (spec t a).2

variable {step : σ → α → Option (ρ × σ)} {spec : τ → α → ρ' × τ} {ok : τ → α → Prop}
  {shown : ρ → υ} {shown' : ρ' → υ} {R : σ → τ → Prop}

/-- A whole run of allowed actions is defined and shows what the specification shows. -/
theorem Refines.run (h : Refines step spec ok shown shown' R) {s : σ} {t : τ} {as : List α}
    (hR : R s t) (hm : runs.Meets spec ok t as) :
    ∃ rs s', refinement.run step s as = some (rs, s') ∧
      rs.map shown = (runs.run spec t as).1.map shown' ∧ R s' (runs.run spec t as).2 := by
  induction as generalizing s t with
  | nil => exact ⟨[], s, rfl, rfl, hR⟩
  | cons a as ih =>
    obtain ⟨r, s', hr, hsame, hR'⟩ := h.step hR hm.1
    obtain ⟨rs, s'', hrs, hrest, hlast⟩ := ih hR' hm.2
    refine ⟨r :: rs, s'', ?_, ?_, hlast⟩
    · unfold refinement.run
      rw [hr, Option.bind_some, hrs, Option.map_some]
    · unfold runs.run
      rw [List.map_cons, List.map_cons, hsame, hrest]

/-- A run of translated actions. -/
theorem run_map {β : Type*} (f : β → α) (s : σ) (bs : List β) :
    refinement.run step s (bs.map f) = refinement.run (fun s b => step s (f b)) s bs := by
  induction bs generalizing s with
  | nil => rfl
  | cons b bs ih =>
    rw [List.map_cons]
    simp only [refinement.run, ih]

end refinement
