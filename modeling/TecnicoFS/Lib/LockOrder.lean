-- Threads that take locks in the order of their ranks. Each lock that a thread takes ranks
-- above all the locks it holds, so along a chain of threads that wait for each other the ranks
-- rise, and some thread of it can go on.
import TecnicoFS.Lib.Steps
import Mathlib.Data.List.Nodup
import Mathlib.Logic.Function.Basic

namespace lock_order

/-! ## Threads and locks -/

/-- A mutex is always taken `exclusive`. -/
inductive Mode
  | shared
  | exclusive
  deriving DecidableEq

/-- What a thread does next, and where it goes then: it takes a lock, it releases one, or it runs
code that does neither. -/
inductive Instr (κ σ π : Type*)
  | lock (l : κ) (m : Mode) (next : π)
  | unlock (l : κ) (next : π)
  | run (f : σ → π × σ)

/-- The instruction with its places renamed. -/
def Instr.map {κ σ π π' : Type*} (g : π → π') : Instr κ σ π → Instr κ σ π'
  | .lock l m next => .lock l m (g next)
  | .unlock l next => .unlock l (g next)
  | .run f => .run fun x => (g (f x).1, (f x).2)

/-- The instruction at each place, none outside of the operations, and the first place of an
operation. -/
structure Program (κ σ π ω : Type*) where
  code : π → Option (Instr κ σ π)
  entry : ω → π

/-- What the threads share, where they are, and who holds each lock, in which mode. -/
structure Machine (τ κ σ π : Type*) where
  data : σ
  place : τ → π
  holders : κ → List (τ × Mode)

inductive Action (τ ω : Type*)
  | call (t : τ) (op : ω)
  | go (t : τ)

variable {τ κ σ π ω : Type*}

/-- The lock can be taken beside these holders. -/
def admits (m : Mode) (holders : List (τ × Mode)) : Bool :=
  match m with
  | .exclusive => holders.isEmpty
  | .shared => holders.all fun h => decide (h.2 = .shared)

/-- A lock that cannot be taken has a holder. -/
theorem exists_holder {m : Mode} {holders : List (τ × Mode)} (h : admits m holders = false) :
    ∃ u m', (u, m') ∈ holders := by
  rcases holders with _ | ⟨⟨u, m'⟩, xs⟩
  · cases m <;> cases h
  · exact ⟨u, m', List.mem_cons_self⟩

/-- No thread is inside of an operation, and no lock is taken. -/
def Machine.AtRest (prog : Program κ σ π ω) (s : Machine τ κ σ π) : Prop :=
  (∀ t, prog.code (s.place t) = none) ∧ ∀ l, s.holders l = []

/-! ## The order of the locks -/

/-- `held p` are the locks that a thread holds at `p`, and `rank` orders the locks: the
instructions take and release them accordingly. -/
structure Ordered (prog : Program κ σ π ω) (held : π → List (κ × Mode)) (rank : κ → Nat) :
    Prop where
  outside : ∀ p, prog.code p = none → held p = []
  entry : ∀ op, held (prog.entry op) = []
  lock : ∀ p l m next, prog.code p = some (.lock l m next) →
    held next = (l, m) :: held p ∧ ∀ h ∈ held p, rank h.1 < rank l
  unlock : ∀ p l next, prog.code p = some (.unlock l next) → ∃ m, held p = (l, m) :: held next
  run : ∀ p f, prog.code p = some (.run f) → ∀ x, held (f x).1 = held p

/-- The holders of the locks are the threads at the places where they are held, each of them
once, and alone in `exclusive` mode. -/
structure Agrees (held : π → List (κ × Mode)) (s : Machine τ κ σ π) : Prop where
  holds : ∀ t l m, (t, m) ∈ s.holders l ↔ (l, m) ∈ held (s.place t)
  once : ∀ l, ((s.holders l).map Prod.fst).Nodup
  alone : ∀ l t, (t, .exclusive) ∈ s.holders l → ∀ h ∈ s.holders l, h.1 = t
  distinct : ∀ t, ((held (s.place t)).map Prod.fst).Nodup

variable {prog : Program κ σ π ω} {held : π → List (κ × Mode)} {rank : κ → Nat}
  {s s' : Machine τ κ σ π} {t : τ} {p : π}

/-- A thread waits for no lock that it holds. -/
theorem Ordered.not_held (ho : Ordered prog held rank) {l : κ} {m : Mode} {next : π}
    (hc : prog.code p = some (.lock l m next)) (m' : Mode) : (l, m') ∉ held p := by
  intro hmem
  exact Nat.lt_irrefl _ ((ho.lock p l m next hc).2 _ hmem)

theorem Machine.AtRest.agrees (ho : Ordered prog held rank) (h : s.AtRest prog) :
    Agrees held s where
  holds := by
    intro t l m
    rw [h.2 l, ho.outside _ (h.1 t)]
    simp
  once := by
    intro l
    rw [h.2 l]
    exact List.nodup_nil
  alone := by
    intro l t ht
    rw [h.2 l] at ht
    cases ht
  distinct := by
    intro t
    rw [ho.outside _ (h.1 t)]
    exact List.nodup_nil

/-- No thread waits for a lock that it holds, in either mode. -/
theorem Ordered.never_relocks (ho : Ordered prog held rank) (h : Agrees held s) {l : κ} {m : Mode}
    {next : π} (hc : prog.code (s.place t) = some (.lock l m next)) (m' : Mode) :
    (t, m') ∉ s.holders l := fun hmem => ho.not_held hc m' ((h.holds t l m').mp hmem)

/-- Two threads do not hold one lock when one of them has it alone. -/
theorem Agrees.exclusive (h : Agrees held s) {u : τ} {l : κ} {m : Mode}
    (ht : (l, .exclusive) ∈ held (s.place t)) (hu : (l, m) ∈ held (s.place u)) : u = t :=
  h.alone l t ((h.holds t l .exclusive).mpr ht) _ ((h.holds u l m).mpr hu)

/-- A thread at a place without locks holds nothing. -/
theorem Agrees.released (h : Agrees held s) (ht : held (s.place t) = []) (l : κ) (m : Mode) :
    (t, m) ∉ s.holders l := by
  intro hmem
  have := (h.holds t l m).mp hmem
  rw [ht] at this
  cases this

/-! ## The steps -/

variable [DecidableEq τ]

def Machine.move (s : Machine τ κ σ π) (t : τ) (p : π) : Machine τ κ σ π :=
  { s with place := Function.update s.place t p }

/-- The thread comes to a place with the same locks. -/
theorem Agrees.move (h : Agrees held s) (hp : held p = held (s.place t)) (x : σ) :
    Agrees held ({ s with data := x }.move t p) := by
  have hsame : ∀ u, held (Function.update s.place t p u) = held (s.place u) := by
    intro u
    by_cases hu : u = t
    · rw [hu, Function.update_self, hp]
    · rw [Function.update_of_ne hu]
  exact
    { holds := fun u l m => by
        simp only [Machine.move]
        rw [hsame]
        exact h.holds u l m
      once := h.once
      alone := h.alone
      distinct := fun u => by
        simp only [Machine.move]
        rw [hsame]
        exact h.distinct u }

variable [DecidableEq κ]

def Machine.setHolders (s : Machine τ κ σ π) (l : κ) (holders : List (τ × Mode)) :
    Machine τ κ σ π :=
  { s with holders := Function.update s.holders l holders }

/-- A lock that is not free is waited for. The release of a lock that the thread does not hold is
not defined. -/
def Machine.exec (s : Machine τ κ σ π) (t : τ) : Instr κ σ π → Option (Machine τ κ σ π)
  | .lock l m next =>
    if admits m (s.holders l) then some ((s.move t next).setHolders l ((t, m) :: s.holders l))
    else none
  | .unlock l next =>
    if (s.holders l).any fun h => decide (h.1 = t) then
      some ((s.move t next).setHolders l ((s.holders l).eraseP fun h => decide (h.1 = t)))
    else none
  | .run f => some ({ s with data := (f s.data).2 }.move t (f s.data).1)

/-- One step of the threads that run `prog`. -/
def turn (prog : Program κ σ π ω) (s : Machine τ κ σ π) : Action τ ω → Option (Machine τ κ σ π)
  | .call t op =>
    match prog.code (s.place t) with
    | none => some (s.move t (prog.entry op))
    | some _ => none
  | .go t => (prog.code (s.place t)).bind (s.exec t)

/-! ## What a step does to the locks -/

/-- The thread comes to a place where it holds the same locks but `l`, which has new holders. -/
theorem Agrees.setHolders (h : Agrees held s) {l : κ} {holders : List (τ × Mode)}
    (hself : ∀ u m, (u, m) ∈ holders ↔ (l, m) ∈ held (Function.update s.place t p u))
    (hother : ∀ k m, k ≠ l → ((k, m) ∈ held p ↔ (k, m) ∈ held (s.place t)))
    (honce : (holders.map Prod.fst).Nodup)
    (halone : ∀ u, (u, .exclusive) ∈ holders → ∀ x ∈ holders, x.1 = u)
    (hdistinct : ((held p).map Prod.fst).Nodup) :
    Agrees held ((s.move t p).setHolders l holders) where
  holds := by
    intro u k m
    simp only [Machine.move, Machine.setHolders]
    by_cases hk : k = l
    · rw [hk, Function.update_self]
      exact hself u m
    · rw [Function.update_of_ne hk, h.holds]
      by_cases hu : u = t
      · rw [hu, Function.update_self]
        exact (hother k m hk).symm
      · rw [Function.update_of_ne hu]
  once := by
    intro k
    simp only [Machine.move, Machine.setHolders]
    by_cases hk : k = l
    · rw [hk, Function.update_self]
      exact honce
    · rw [Function.update_of_ne hk]
      exact h.once k
  alone := by
    intro k
    simp only [Machine.move, Machine.setHolders]
    by_cases hk : k = l
    · rw [hk, Function.update_self]
      exact halone
    · rw [Function.update_of_ne hk]
      exact h.alone k
  distinct := by
    intro u
    simp only [Machine.move, Machine.setHolders]
    by_cases hu : u = t
    · rw [hu, Function.update_self]
      exact hdistinct
    · rw [Function.update_of_ne hu]
      exact h.distinct u

theorem Agrees.lock (h : Agrees held s) {l : κ} {m : Mode} (hfree : admits m (s.holders l) = true)
    (hp : held p = (l, m) :: held (s.place t)) (hno : ∀ m', (l, m') ∉ held (s.place t)) :
    Agrees held ((s.move t p).setHolders l ((t, m) :: s.holders l)) := by
  refine h.setHolders (fun u m' => ?_) (fun k m' hk => ?_) ?_ (fun u hu => ?_) ?_
  · by_cases hu : u = t
    · subst hu
      rw [Function.update_self, hp]
      simp [h.holds]
    · rw [Function.update_of_ne hu, ← h.holds]
      simp [hu]
  · rw [hp]
    simp [hk]
  · rw [List.map_cons, List.nodup_cons]
    refine ⟨?_, h.once l⟩
    rintro hmem
    obtain ⟨⟨u, m'⟩, hmem, he⟩ := List.mem_map.mp hmem
    cases he
    exact hno m' ((h.holds _ l m').mp hmem)
  · cases m with
    | exclusive =>
      -- nobody held it
      rw [List.isEmpty_iff.mp hfree] at hu ⊢
      rw [List.mem_singleton] at hu
      intro x hx
      rw [List.mem_singleton.mp hx]
      exact (congrArg Prod.fst hu).symm
    | shared =>
      rcases List.mem_cons.mp hu with he | hmem
      · cases he
      · have := List.all_eq_true.mp hfree _ hmem
        simp at this
  · rw [hp, List.map_cons, List.nodup_cons]
    refine ⟨?_, h.distinct t⟩
    rintro hmem
    obtain ⟨⟨k, m'⟩, hmem, he⟩ := List.mem_map.mp hmem
    cases he
    exact hno m' hmem

/-- A list with one entry for each thread loses the entry of `t`. -/
theorem mem_release {holders : List (τ × Mode)} (h : (holders.map Prod.fst).Nodup) (t u : τ)
    (m : Mode) :
    (u, m) ∈ holders.eraseP (fun h => decide (h.1 = t)) ↔ (u, m) ∈ holders ∧ u ≠ t := by
  induction holders with
  | nil => simp
  | cons x xs ih =>
    rw [List.map_cons, List.nodup_cons] at h
    by_cases hx : x.1 = t
    · rw [List.eraseP_cons_of_pos (by simpa using hx)]
      constructor
      · intro hmem
        refine ⟨List.mem_cons_of_mem _ hmem, fun hu => h.1 ?_⟩
        rw [hx, ← hu]
        exact List.mem_map.mpr ⟨(u, m), hmem, rfl⟩
      · rintro ⟨hmem, hu⟩
        rcases List.mem_cons.mp hmem with he | hmem
        · exact absurd ((congrArg Prod.fst he).trans hx) hu
        · exact hmem
    · rw [List.eraseP_cons_of_neg (by simpa using hx), List.mem_cons, List.mem_cons, ih h.2]
      constructor
      · rintro (he | ⟨hmem, hu⟩)
        · exact ⟨Or.inl he, fun hu => hx ((congrArg Prod.fst he).symm.trans hu)⟩
        · exact ⟨Or.inr hmem, hu⟩
      · rintro ⟨he | hmem, hu⟩
        · exact Or.inl he
        · exact Or.inr ⟨hmem, hu⟩

theorem Agrees.unlock (h : Agrees held s) {l : κ} {m : Mode}
    (hp : held (s.place t) = (l, m) :: held p) :
    Agrees held
      ((s.move t p).setHolders l ((s.holders l).eraseP fun h => decide (h.1 = t))) := by
  have hdistinct := h.distinct t
  rw [hp, List.map_cons, List.nodup_cons] at hdistinct
  have hno : ∀ m', (l, m') ∉ held p := fun m' hmem =>
    hdistinct.1 (List.mem_map.mpr ⟨(l, m'), hmem, rfl⟩)
  refine h.setHolders (fun u m' => ?_) (fun k m' hk => ?_) ?_ (fun u hu x hx => ?_) hdistinct.2
  · rw [mem_release (h.once l)]
    by_cases hu : u = t
    · subst hu
      rw [Function.update_self]
      exact iff_of_false (fun hr => hr.2 rfl) (hno m')
    · rw [Function.update_of_ne hu, h.holds]
      exact and_iff_left hu
  · rw [hp]
    simp [hk]
  · exact (h.once l).sublist (List.eraseP_sublist.map Prod.fst)
  · exact h.alone l u (List.mem_of_mem_eraseP hu) x (List.mem_of_mem_eraseP hx)

theorem Agrees.turn (ho : Ordered prog held rank) {a : Action τ ω} (h : Agrees held s)
    (he : turn prog s a = some s') : Agrees held s' := by
  cases a with
  | call t op =>
    simp only [lock_order.turn] at he
    split at he
    · rename_i hc
      cases he
      exact h.move ((ho.entry op).trans (ho.outside _ hc).symm) s.data
    · cases he
  | go t =>
    obtain ⟨i, hc, he⟩ := Option.bind_eq_some_iff.mp he
    cases i with
    | lock l m next =>
      simp only [Machine.exec] at he
      split at he
      · rename_i hfree
        cases he
        exact h.lock hfree (ho.lock _ _ _ _ hc).1 (ho.not_held hc)
      · cases he
    | unlock l next =>
      obtain ⟨m, hp⟩ := ho.unlock _ _ _ hc
      simp only [Machine.exec] at he
      split at he
      · cases he
        exact h.unlock hp
      · cases he
    | run f =>
      cases he
      exact h.move (ho.run _ _ hc s.data) (f s.data).2

theorem Ordered.agrees (ho : Ordered prog held rank)
    (h : steps.Reachable (lock_order.turn prog) (fun s => s.AtRest prog) s) : Agrees held s :=
  h.invariant (fun _ h0 => h0.agrees ho) fun _ _ _ h he => Agrees.turn ho h he

/-! ## Progress -/

/-- A release is always defined. -/
theorem Agrees.unlock_defined (ho : Ordered prog held rank) (h : Agrees held s) {l : κ} {next : π}
    (hc : prog.code (s.place t) = some (.unlock l next)) :
    (lock_order.turn prog s (.go t)).isSome = true := by
  obtain ⟨m, hp⟩ := ho.unlock _ _ _ hc
  have hmem : (t, m) ∈ s.holders l := by
    rw [h.holds, hp]
    exact List.mem_cons_self
  have hany : ((s.holders l).any fun h => decide (h.1 = t)) = true :=
    List.any_eq_true.mpr ⟨_, hmem, by simp⟩
  simp [lock_order.turn, hc, Machine.exec, hany]

/-- If the ranks have a bound, then some thread of the operations can make its next step as long
as a thread is in one. -/
theorem Ordered.progress (ho : Ordered prog held rank) {bound : Nat} (hb : ∀ l, rank l ≤ bound)
    (h : Agrees held s) (ht : prog.code (s.place t) ≠ none) :
    ∃ u, prog.code (s.place u) ≠ none ∧ (lock_order.turn prog s (.go u)).isSome = true := by
  -- along the waiting threads the rank of the lock rises, up to the bound
  suffices hwait : ∀ n (t : τ) (l : κ) (m : Mode) (next : π), bound - rank l = n →
      prog.code (s.place t) = some (.lock l m next) →
      ∃ u, prog.code (s.place u) ≠ none ∧ (lock_order.turn prog s (.go u)).isSome = true by
    rcases hc : prog.code (s.place t) with _ | i
    · exact absurd hc ht
    · cases i with
      | lock l m next => exact hwait _ t l m next rfl hc
      | unlock l next => exact ⟨t, ht, h.unlock_defined ho hc⟩
      | run f => exact ⟨t, ht, by simp [lock_order.turn, hc, Machine.exec]⟩
  intro n
  induction n using Nat.strongRecOn with
  | ind n ih =>
    intro t l m next hn hc
    by_cases hfree : admits m (s.holders l) = true
    · exact ⟨t, by simp [hc], by simp [lock_order.turn, hc, Machine.exec, hfree]⟩
    obtain ⟨u, m', hu⟩ := exists_holder (Bool.not_eq_true _ ▸ hfree)
    have hheld : (l, m') ∈ held (s.place u) := (h.holds u l m').mp hu
    rcases hcu : prog.code (s.place u) with _ | i
    · rw [ho.outside _ hcu] at hheld
      cases hheld
    · cases i with
      | lock l' m'' next' =>
        have hlt : rank l < rank l' := (ho.lock _ _ _ _ hcu).2 _ hheld
        have hle := hb l'
        exact ih (bound - rank l') (by omega) u l' m'' next' rfl hcu
      | unlock l' next' => exact ⟨u, by simp [hcu], h.unlock_defined ho hcu⟩
      | run f => exact ⟨u, by simp [hcu], by simp [lock_order.turn, hcu, Machine.exec]⟩

end lock_order
