-- Threads that use up what they have. If every instruction takes something from what is left
-- at its place and in the shared data, then all operations return, in whatever order the
-- threads go on.
import TecnicoFS.Lib.LockOrder
import TecnicoFS.Lib.Progress
import Mathlib.Algebra.BigOperators.Group.Finset.Basic

namespace lock_order

variable {τ κ σ π ω : Type*}

/-! ## Where an instruction leads -/

/-- The place behind an instruction, and the data. -/
def Instr.result (i : Instr κ σ π) (x : σ) : π × σ :=
  match i with
  | .lock _ _ next => (next, x)
  | .unlock _ next => (next, x)
  | .run f => f x

theorem Instr.result_map {π' : Type*} (g : π → π') (i : Instr κ σ π) (x : σ) :
    (i.map g).result x = (g (i.result x).1, (i.result x).2) := by
  cases i <;> rfl

variable [DecidableEq τ] [DecidableEq κ] {prog : Program κ σ π ω} {held : π → List (κ × Mode)}
  {rank : κ → Nat} {s s' : Machine τ κ σ π} {t : τ}

theorem turn_go (he : turn prog s (Action.go t : Action τ ω) = some s') :
    ∃ i, prog.code (s.place t) = some i ∧
      s'.place = Function.update s.place t (i.result s.data).1 ∧
      s'.data = (i.result s.data).2 := by
  obtain ⟨i, hc, he⟩ := Option.bind_eq_some_iff.mp he
  refine ⟨i, hc, ?_⟩
  cases i with
  | lock l m next =>
    simp only [Machine.exec] at he
    split at he
    · cases he
      exact ⟨rfl, rfl⟩
    · cases he
  | unlock l next =>
    simp only [Machine.exec] at he
    split at he
    · cases he
      exact ⟨rfl, rfl⟩
    · cases he
  | run f =>
    cases he
    exact ⟨rfl, rfl⟩

/-- What each instruction keeps of the places holds wherever the threads are after a step. -/
theorem place_go {sound : π → Prop}
    (hkeeps : ∀ p i x, sound p → prog.code p = some i → sound (i.result x).1)
    (hs : ∀ u, sound (s.place u)) (he : turn prog s (Action.go t : Action τ ω) = some s') (u : τ) :
    sound (s'.place u) := by
  obtain ⟨i, hc, hplace, _⟩ := turn_go he
  rw [hplace]
  by_cases hu : u = t
  · rw [hu, Function.update_self]
    exact hkeeps _ _ _ (hs t) hc
  · rw [Function.update_of_ne hu]
    exact hs u

/-! ## The threads inside of operations -/

/-- No other threads are inside of operations. -/
def Machine.Busy (prog : Program κ σ π ω) (s : Machine τ κ σ π) (busy : Finset τ) : Prop :=
  ∀ t, t ∉ busy → prog.code (s.place t) = none

/-- A thread that goes on was inside, so no new one gets inside. -/
theorem Machine.Busy.go {busy : Finset τ} (h : s.Busy prog busy)
    (he : turn prog s (Action.go t : Action τ ω) = some s') : t ∈ busy ∧ s'.Busy prog busy := by
  obtain ⟨i, hc, hplace, _⟩ := turn_go he
  have ht : t ∈ busy := by
    by_contra hno
    rw [h t hno] at hc
    cases hc
  refine ⟨ht, fun u hu => ?_⟩
  have hne : u ≠ t := by
    rintro rfl
    exact hu ht
  rw [hplace, Function.update_of_ne hne]
  exact h u hu

/-- After any run, only as many threads are inside as were called. -/
theorem exists_busy
    (h : steps.Reachable (turn prog) (fun s : Machine τ κ σ π => s.AtRest prog) s) :
    ∃ busy, s.Busy prog busy := by
  refine h.invariant (P := fun s => ∃ busy, s.Busy prog busy) (fun s h0 => ?_) ?_
  · exact ⟨∅, fun t _ => h0.1 t⟩
  rintro s a s' ⟨busy, hbusy⟩ he
  cases a with
  | go t => exact ⟨busy, (hbusy.go he).2⟩
  | call t op =>
    simp only [turn] at he
    split at he
    · cases he
      refine ⟨insert t busy, fun u hu => ?_⟩
      rw [Finset.mem_insert, not_or] at hu
      simp only [Machine.move]
      rw [Function.update_of_ne hu.1]
      exact hbusy u hu.2
    · cases he

/-- A property of places that holds at the beginning of each operation and behind each
instruction holds wherever the threads are. -/
theorem place_invariant {sound : π → Prop} (houtside : ∀ p, prog.code p = none → sound p)
    (hentry : ∀ op, sound (prog.entry op))
    (hkeeps : ∀ p i x, sound p → prog.code p = some i → sound (i.result x).1)
    (h : steps.Reachable (turn prog) (fun s : Machine τ κ σ π => s.AtRest prog) s) (t : τ) :
    sound (s.place t) := by
  revert t
  refine h.invariant (P := fun s => ∀ t, sound (s.place t)) ?_ ?_
  · intro s h0 t
    exact houtside _ (h0.1 t)
  intro s a s' hs he u
  cases a with
  | go t => exact place_go hkeeps hs he u
  | call t op =>
    simp only [turn] at he
    split at he
    · cases he
      simp only [Machine.move]
      by_cases hu : u = t
      · rw [hu, Function.update_self]
        exact hentry op
      · rw [Function.update_of_ne hu]
        exact hs u
    · cases he

/-! ## What is left -/

/-- What is left at the places of the threads, and in what they share. -/
def Machine.total (left : π → Nat) (room : σ → Nat) (busy : Finset τ) (s : Machine τ κ σ π) : Nat :=
  ∑ t ∈ busy, left (s.place t) + room s.data

/-- Every instruction at a sound place takes `price` from what is left. -/
def Pays (prog : Program κ σ π ω) (sound : π → Prop) (fits : σ → Prop) (left : π → Nat)
    (room : σ → Nat) (price : Nat) : Prop :=
  ∀ p i x, sound p → fits x → prog.code p = some i →
    left (i.result x).1 + room (i.result x).2 + price ≤ left p + room x

theorem Pays.go {sound : π → Prop} {fits : σ → Prop} {left : π → Nat} {room : σ → Nat}
    {price : Nat} {busy : Finset τ} (hpays : Pays prog sound fits left room price)
    (ht : t ∈ busy) (hsound : sound (s.place t)) (hfits : fits s.data)
    (he : turn prog s (Action.go t : Action τ ω) = some s') :
    s'.total left room busy + price ≤ s.total left room busy := by
  obtain ⟨i, hc, hplace, hdata⟩ := turn_go he
  have hone := hpays _ _ _ hsound hfits hc
  have hrest : ∑ u ∈ busy.erase t, left (s'.place u) = ∑ u ∈ busy.erase t, left (s.place u) := by
    apply Finset.sum_congr rfl
    intro u hu
    rw [hplace, Function.update_of_ne (Finset.ne_of_mem_erase hu)]
  have hself : s'.place t = (i.result s.data).1 := by rw [hplace, Function.update_self]
  unfold Machine.total
  rw [← Finset.add_sum_erase _ _ ht, ← Finset.add_sum_erase _ _ ht, hrest, hself, hdata]
  omega

/-- The steps of one thread among the actions of all. -/
def Action.ofThread (t : τ) : Action τ ω → Bool
  | .go u => decide (u = t)
  | .call _ _ => false

/-- Where every instruction brings a thread closer to its end, it makes only so many steps before
it begins another operation, whatever the others do. -/
theorem steps_le {sound : π → Prop} (left : π → Nat)
    (hkeeps : ∀ p i x, sound p → prog.code p = some i → sound (i.result x).1)
    (hlt : ∀ p i x, sound p → prog.code p = some i → left (i.result x).1 < left p)
    {as : List (Action τ ω)} (hs : sound (s.place t)) (he : steps.after (turn prog) s as = some s')
    (hno : ∀ op, Action.call t op ∉ as) :
    as.countP (Action.ofThread t) + left (s'.place t) ≤ left (s.place t) := by
  induction as generalizing s with
  | nil =>
    cases he
    exact Nat.le_of_eq (Nat.zero_add _)
  | cons a as ih =>
    obtain ⟨s1, h1, he'⟩ := Option.bind_eq_some_iff.mp he
    have hrest : ∀ op, Action.call t op ∉ as := fun op hop => hno op (List.mem_cons_of_mem _ hop)
    have hstay : s1.place t = s.place t → Action.ofThread t a = false →
        (a :: as).countP (Action.ofThread t) + left (s'.place t) ≤ left (s.place t) := by
      intro hplace hother
      rw [← hplace] at hs ⊢
      rw [List.countP_cons_of_neg (by rw [hother]; exact Bool.false_ne_true)]
      exact ih hs he' hrest
    cases a with
    | call u op =>
      have hne : t ≠ u := by
        rintro rfl
        exact hno op List.mem_cons_self
      refine hstay ?_ rfl
      simp only [turn] at h1
      split at h1
      · cases h1
        exact Function.update_of_ne hne ..
      · cases h1
    | go u =>
      obtain ⟨i, hc, hplace, _⟩ := turn_go h1
      by_cases hu : u = t
      · subst hu
        have hnext : s1.place u = (i.result s.data).1 := by rw [hplace, Function.update_self]
        have hless := hlt _ _ s.data hs hc
        have hih := ih (by rw [hnext]; exact hkeeps _ _ _ hs hc) he' hrest
        have hself : Action.ofThread u (Action.go u : Action τ ω) = true := decide_eq_true rfl
        rw [List.countP_cons_of_pos hself]
        rw [hnext] at hih
        omega
      · refine hstay ?_ (decide_eq_false hu)
        rw [hplace, Function.update_of_ne (Ne.symm hu)]

/-- The thread goes on with its operation. -/
def Action.Goes : Action τ ω → Prop
  | .go _ => True
  | .call _ _ => False

/-- Suppose that what the shared data holds, with what the threads may still add to it, never
grows, and that each instruction takes something from another measure, which may depend on a
limit for that. Then all operations return when no new one begins, however the locks are handed
out. -/
theorem Ordered.all_return (ho : Ordered prog held rank) {bound : Nat} (hb : ∀ l, rank l ≤ bound)
    {sound : π → Prop} {add : π → Nat} {size : σ → Nat} {left : Nat → π → Nat}
    {room : Nat → σ → Nat} (hkeeps : ∀ p i x, sound p → prog.code p = some i → sound (i.result x).1)
    (hsize : Pays prog (fun _ => True) (fun _ => True) add size 0)
    (hpays : ∀ limit, Pays prog sound (fun x => size x ≤ limit) (left limit) (room limit) 1)
    {busy : Finset τ} (h : Agrees held s) (hbusy : s.Busy prog busy)
    (hsound : ∀ t, sound (s.place t)) :
    ∃ n, progress.Within (turn prog) Action.Goes (fun _ _ => True)
      (fun s => ∀ t, prog.code (s.place t) = none) n s := by
  -- the limit is fixed here, for the rest of the run
  let limit := s.total add size busy
  let Inv := fun s : Machine τ κ σ π => Agrees held s ∧ s.Busy prog busy ∧
    (∀ t, sound (s.place t)) ∧ s.total add size busy ≤ limit
  have hfits : ∀ {s}, Inv s → size s.data ≤ limit := by
    intro s h
    exact Nat.le_trans (Nat.le_add_left _ _) h.2.2.2
  have hstep : ∀ s t s', Inv s → turn prog s (Action.go t : Action τ ω) = some s' →
      Inv s' ∧ s'.total (left limit) (room limit) busy < s.total (left limit) (room limit) busy := by
    intro s t s' h he
    obtain ⟨ht, hbusy'⟩ := h.2.1.go he
    have hle := hsize.go ht trivial trivial he
    exact ⟨⟨h.1.turn ho he, hbusy', place_go hkeeps h.2.2.1 he, Nat.le_trans hle h.2.2.2⟩,
      (hpays limit).go ht (h.2.2.1 t) (hfits h) he⟩
  refine ⟨_, progress.within_of_measure (I := Inv)
    (μ := Machine.total (left limit) (room limit) busy) ?_ ?_ ⟨h, hbusy, hsound, Nat.le_refl _⟩⟩
  · intro s h hno
    obtain ⟨t, ht⟩ := not_forall.mp hno
    obtain ⟨u, _, hgo⟩ := ho.progress hb h.1 ht
    obtain ⟨s', he⟩ := Option.isSome_iff_exists.mp hgo
    have hlt := (hstep s u s' h he).2
    exact ⟨Nat.lt_of_le_of_lt (Nat.zero_le _) hlt, .go u, s', trivial, he⟩
  · intro s a s' h _ hgoes _ he
    cases a with
    | go t => exact hstep s t s' h he
    | call t op => exact hgoes.elim

end lock_order
