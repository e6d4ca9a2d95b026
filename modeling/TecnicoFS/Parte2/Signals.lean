-- The shutdown returns. With no second shutdown, no open behind it and no wait that ends
-- without a signal, the close of the last file signals the thread that waits, and the
-- thread goes on.
import TecnicoFS.Lib.Progress
import TecnicoFS.Parte2.Waiting
import Mathlib.Algebra.Order.BigOperators.Group.Finset

namespace tecnicofs.parte2

/-! ## Waits that end by a signal -/

/-- A step in which no wait ends without a signal. -/
def condTurn (w : CondVar) (a : Action × Option Nat) : Option CondVar :=
  if EndsUnsignalled w a.1 then none else waitTurn w a

/-- A pending shutdown is the only one, and no file is opened behind it. -/
def ShutsOnce (w : CondVar) (a : Action × Option Nat) : Prop :=
  ¬ OpensInShutdown w.threads a.1 ∧ ¬ ShutsAgain w.threads a.1

instance (w : CondVar) (a : Action × Option Nat) : Decidable (ShutsOnce w a) :=
  inferInstanceAs (Decidable (_ ∧ _))

theorem condTurn_eq {w w' : CondVar} {a : Action × Option Nat} (he : condTurn w a = some w') :
    ¬ EndsUnsignalled w a.1 ∧ waitTurn w a = some w' := by
  unfold condTurn at he
  rwa [Option.ite_none_left_eq_some] at he

theorem condTurn_isSome {w : CondVar} {a : Action × Option Nat}
    (hsignalled : ¬ EndsUnsignalled w a.1) (he : (waitTurn w a).isSome) : (condTurn w a).isSome := by
  unfold condTurn
  rwa [if_neg hsignalled]

theorem condTurn_turn {w w' : CondVar} {a : Action × Option Nat} (he : condTurn w a = some w') :
    turn w.threads a.1 = some w'.threads := (waitTurn_cases (condTurn_eq he).2).1

/-- The lock has its owner, and a thread is blocked as long as files are open. -/
structure CondVar.Orderly (w : CondVar) : Prop where
  exclusive : Exclusive w.threads
  inv : w.Inv

theorem CondVar.Orderly.turn {w w' : CondVar} {a : Action × Option Nat} (h : w.Orderly)
    (hok : ShutsOnce w a) (he : condTurn w a = some w') : w'.Orderly :=
  ⟨h.exclusive.turn hok.1 (condTurn_turn he),
    h.inv.turn (condTurn_eq he).1 hok.2 (condTurn_eq he).2⟩

theorem CondVar.Initial.orderly {w : CondVar} (h : w.Initial) : w.Orderly := by
  refine ⟨fun t => ?_, h.inv⟩
  rw [h.1.lock_free, h.1.outside t]
  simp [Place.holds]

/-! ## The end of the wait -/

/-- The step begins no call. -/
def GoesOn (a : Action × Option Nat) : Prop := ∀ t op, a.1 ≠ .call t op

/-- A section is not defined: a read or a write goes beyond a buffer. -/
def CondVar.Undefined (w : CondVar) : Prop :=
  ∃ t op, w.threads.place t = .inside op ∧ exec w.threads.state op = none

/-- Only these threads are in calls. -/
def CondVar.Busy (w : CondVar) (busy : Finset Nat) : Prop :=
  ∀ t, t ∉ busy → w.threads.place t = .outside

theorem exists_busy_calls {w w' : CondVar} {a : Action × Option Nat} {busy : Finset Nat}
    (h : w.Busy busy) (he : condTurn w a = some w') : ∃ busy', w'.Busy busy' := by
  obtain ⟨_, t, p, hplace, _⟩ := turn_goes (condTurn_turn he)
  refine ⟨insert t busy, fun u hu => ?_⟩
  rw [Finset.mem_insert, not_or] at hu
  rw [hplace, Function.update_of_ne hu.1]
  exact h u hu.2

/-- The steps that are left to all threads. -/
def CondVar.left (busy : Finset Nat) (w : CondVar) : Nat := ∑ t ∈ busy, (w.threads.place t).left

theorem CondVar.Busy.step {w w' : CondVar} {a : Action × Option Nat} {busy : Finset Nat}
    (h : w.Busy busy) (ha : GoesOn a) (he : condTurn w a = some w') :
    w'.Busy busy ∧ w'.left busy < w.left busy := by
  obtain ⟨_, t, p, hplace, hgoes, _, hout, _⟩ := turn_goes (condTurn_turn he)
  have hne : w.threads.place t ≠ .outside := by
    intro ht
    obtain ⟨op, hcall⟩ := hout ht
    exact ha t op hcall
  have ht : t ∈ busy := by
    by_contra hno
    exact hne (h t hno)
  refine ⟨fun u hu => ?_, Finset.sum_lt_sum (fun u _ => ?_) ⟨t, ht, ?_⟩⟩
  · have hut : u ≠ t := by
      rintro rfl
      exact hu ht
    rw [hplace, Function.update_of_ne hut]
    exact h u hu
  · by_cases hut : u = t
    · subst hut
      rw [hplace, Function.update_self]
      exact Nat.le_of_lt (hgoes.left_lt hne)
    · rw [hplace, Function.update_of_ne hut]
  · rw [hplace, Function.update_self]
    exact hgoes.left_lt hne

theorem exists_blockedAfter (blocked : List Nat) (t : Nat) (r : Answer) :
    ∃ chosen blocked', blockedAfter blocked t r chosen = some blocked' := by
  unfold blockedAfter
  split_ifs
  · cases blocked with
    | nil => exact ⟨none, [], rfl⟩
    | cons u blocked => exact ⟨some u, _, if_pos List.mem_cons_self⟩
  · exact ⟨none, _, rfl⟩
  · exact ⟨none, _, rfl⟩

theorem mem_of_blockedAfter {blocked blocked' : List Nat} {t u : Nat} {r : Answer}
    {chosen : Option Nat} (hu : u ≠ t) (he : blockedAfter blocked t r chosen = some blocked')
    (hmem : u ∈ blocked') : u ∈ blocked := by
  unfold blockedAfter at he
  split_ifs at he
  · cases chosen with
    | none =>
      simp only [condSignal, Option.ite_none_right_eq_some, Option.some.injEq] at he
      rw [← he.2] at hmem
      cases hmem
    | some v =>
      simp only [condSignal, Option.ite_none_right_eq_some, Option.some.injEq] at he
      rw [← he.2] at hmem
      exact List.mem_of_mem_erase hmem
  · rw [← Option.some.inj he] at hmem
    exact (List.mem_cons.mp hmem).resolve_left hu
  · rwa [← Option.some.inj he] at hmem

/-- The owner of the lock can go on. -/
theorem owner_goes_on {w : CondVar} {u : Nat} (hu : (w.threads.place u).holds = true)
    (hdef : ¬ w.Undefined) : ∃ a, GoesOn a ∧ (condTurn w a).isSome := by
  rcases hplace : w.threads.place u with _ | op | op | _ | _ | _ | ret
  · simp [hplace, Place.holds] at hu
  · simp [hplace, Place.holds] at hu
  · obtain ⟨r, hr⟩ := Option.ne_none_iff_exists'.mp fun hr => hdef ⟨u, op, hplace, hr⟩
    obtain ⟨chosen, blocked, hblocked⟩ := exists_blockedAfter w.blocked u r.1
    exact ⟨(.runSection u, chosen), by simp [GoesOn],
      condTurn_isSome id (by simp [waitTurn, hplace, hr, hblocked])⟩
  · simp [hplace, Place.holds] at hu
  · simp [hplace, Place.holds] at hu
  · exact ⟨(.destroy u, none), by simp [GoesOn], condTurn_isSome id (by simp [waitTurn, turn, hplace])⟩
  · exact ⟨(.unlock u, none), by simp [GoesOn], condTurn_isSome id (by simp [waitTurn, turn, hplace])⟩

/-- Until the shutdown returns, some thread can go on. -/
theorem CondVar.Ended.goes_on {w : CondVar} {t : Nat} (h : w.Ended t) (hx : Exclusive w.threads)
    (hdef : ¬ w.Undefined) : ∃ a, GoesOn a ∧ (condTurn w a).isSome := by
  rcases h with ⟨hwait, hfree⟩ | hwoken | hdestroying
  · exact ⟨(.wake t, none), by simp [GoesOn], condTurn_isSome hfree (by simp [waitTurn, turn, hwait])⟩
  · rcases hlock : w.threads.single_global_lock with _ | u
    · exact ⟨(.lock t, none), by simp [GoesOn],
        condTurn_isSome id (by simp [waitTurn, turn, hlock, hwoken])⟩
    · exact owner_goes_on ((hx u).mp hlock) hdef
  · exact owner_goes_on (by rw [hdestroying]; rfl) hdef

/-- A wait that has ended leads to `tfs_destroy`, and to a return of 0. -/
theorem CondVar.Ended.step {w w' : CondVar} {t : Nat} {a : Action × Option Nat} (h : w.Ended t)
    (he : condTurn w a = some w') : w'.Ended t ∨ w'.threads.place t = .leaving 0 := by
  obtain ⟨hsignalled, he⟩ := condTurn_eq he
  obtain ⟨hturn, hcases⟩ := waitTurn_cases he
  obtain ⟨_, u, p, hplace, hgoes, _⟩ := turn_goes hturn
  unfold CondVar.Ended at h ⊢
  by_cases hut : t = u
  · subst hut
    rw [hplace, Function.update_self]
    generalize w.threads.place t = q at *
    cases hgoes with
    | wake => exact Or.inl (Or.inr (Or.inl rfl))
    | lockAgain => exact Or.inl (Or.inr (Or.inr rfl))
    | destroy => exact Or.inr rfl
    | _ => simp at h
  · rw [hplace, Function.update_of_ne hut]
    refine Or.inl (h.imp_left ?_)
    rintro ⟨hwait, hfree⟩
    refine ⟨hwait, fun hmem => hfree ?_⟩
    -- only a thread in its own section gets blocked
    rcases hcases with ⟨v, op, r, _, hop, _, _, hblocked⟩ | ⟨_, hblocked⟩
    · have hne : t ≠ v := by
        rintro rfl
        rw [hop] at hwait
        cases hwait
      exact mem_of_blockedAfter hne hblocked hmem
    · rwa [← hblocked hsignalled]

/-- A shutdown that is the only one, with no open behind it, calls `tfs_destroy` only while no
file is open. And the close of the last file ends its wait: from then on, when no new call begins,
the shutdown returns 0 after a number of steps that depends on the state only, unless a section is
not defined, and until then some thread can go on. -/
theorem the_last_close_ends_the_shutdown {w w' : CondVar} {as : List (Action × Option Nat)}
    (hw : w.Initial) (hm : steps.Meets condTurn ShutsOnce w as)
    (he : steps.after condTurn w as = some w') {t : Nat} :
    (w'.threads.place t = .destroying → w'.taken = 0) ∧
      (w'.threads.place t = .waiting → w'.taken = 0 →
        ∃ n, progress.Within condTurn GoesOn (fun w a => ¬ OpensInShutdown w.threads a.1)
          (fun w => w.threads.place t = .leaving 0 ∨ w.Undefined) n w') := by
  have horderly : w'.Orderly :=
    (steps.always_of_meets (fun _ _ _ h hok he => h.turn hok he) hw.orderly hm).last he
  have hinv := horderly.inv
  constructor
  · intro hdestroying
    exact hinv.count.none_taken.mpr (Or.inl (hinv.ended t (Or.inr (Or.inr hdestroying))))
  · intro hwait hclosed
    have hfree : t ∉ w'.blocked := by
      rcases hinv.blocked with hnone | ⟨u, _, hlt⟩
      · rw [hnone]
        exact List.not_mem_nil
      · have := hinv.count.none_taken.mp hclosed
        omega
    obtain ⟨busy, hbusy⟩ : ∃ busy, w'.Busy busy := by
      have hrun : steps.Reachable condTurn CondVar.Initial w' := (steps.Reachable.start hw).after he
      refine hrun.invariant (P := fun w => ∃ busy, w.Busy busy) ?_ ?_
      · exact fun w h => ⟨∅, fun u _ => h.1.outside u⟩
      · rintro w a w' ⟨busy, h⟩ he
        exact exists_busy_calls h he
    refine ⟨_, progress.within_of_measure (μ := CondVar.left busy)
      (I := fun w => (w.Ended t ∨ w.threads.place t = .leaving 0) ∧ Exclusive w.threads ∧
        w.Busy busy) ?_ ?_ ⟨Or.inl (Or.inl ⟨hwait, hfree⟩), horderly.exclusive, hbusy⟩⟩
    · rintro s ⟨hended, hx, hb⟩ hno
      rw [not_or] at hno
      obtain ⟨a, ha, hgo⟩ := (hended.resolve_right hno.1).goes_on hx hno.2
      obtain ⟨s', hs'⟩ := Option.isSome_iff_exists.mp hgo
      exact ⟨Nat.lt_of_le_of_lt (Nat.zero_le _) (hb.step ha hs').2, a, s', ha, hs'⟩
    · rintro s a s' ⟨hended, hx, hb⟩ hno ha hok hs'
      rw [not_or] at hno
      obtain ⟨hb', hlt⟩ := hb.step ha hs'
      exact ⟨⟨(hended.resolve_right hno.1).step hs', hx.turn hok (condTurn_turn hs'), hb'⟩, hlt⟩

/-- The server when it starts. -/
def firstCondVar : CondVar := ⟨firstThreads, []⟩

/-- Thread 0 opens a file and waits in a shutdown, and thread 1 closes the file. -/
def closedInShutdown : List (Action × Option Nat) := waitsInShutdown ++ closesInShutdown

theorem closedInShutdown_possible :
    (steps.after condTurn firstCondVar closedInShutdown).isSome = true := by decide +kernel

theorem the_waiting_shutdown_returns :
    ∃ w, steps.after condTurn firstCondVar closedInShutdown = some w ∧
      ∃ n, progress.Within condTurn GoesOn (fun w a => ¬ OpensInShutdown w.threads a.1)
        (fun w => w.threads.place 0 = .leaving 0 ∨ w.Undefined) n w := by
  have he := (Option.some_get closedInShutdown_possible).symm
  have hw : firstCondVar.Initial := ⟨firstThreads_initial, rfl⟩
  exact ⟨_, he, (the_last_close_ends_the_shutdown hw (by decide +kernel) he).2
    (by decide +kernel) (by decide +kernel)⟩

end tecnicofs.parte2
