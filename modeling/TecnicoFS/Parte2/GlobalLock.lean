-- The threads of the server around `single_global_lock`: any number of them,
-- each one at some place of a call. The lock is held inside a section only,
-- as long as no `tfs_open` comes while a shutdown is pending.
import TecnicoFS.Parte2.Shutdown

namespace tecnicofs.parte2

/-- Where a thread is. -/
inductive Place
  /-- Between two calls. -/
  | outside
  /-- At the `pthread_mutex_lock` of a call. -/
  | called (op : Op)
  /-- At the start of the section. -/
  | inside (op : Op)
  /-- In `pthread_cond_wait`, without the lock. -/
  | waiting
  /-- In `pthread_cond_wait`, awake: it wants the lock back. -/
  | woken
  /-- Behind `pthread_cond_wait`, at `tfs_destroy`. -/
  | destroying
  /-- At `pthread_mutex_unlock`, with the return value. -/
  | leaving (ret : Int)
  deriving DecidableEq

/-- The places at which the lock is held. -/
def Place.holds : Place → Bool
  | .inside _ => true
  | .destroying => true
  | .leaving _ => true
  | _ => false

structure Threads where
  state : State
  single_global_lock : Option Nat
  place : Nat → Place

/-- A step of the thread `t`. -/
inductive Action
  | call (t : Nat) (op : Op)
  | lock (t : Nat)
  | runSection (t : Nat)
  | wake (t : Nat)
  | destroy (t : Nat)
  | unlock (t : Nat)

def Threads.move (w : Threads) (t : Nat) (p : Place) : Threads :=
  { w with place := Function.update w.place t p }

def Threads.setLock (w : Threads) (owner : Option Nat) : Threads :=
  { w with single_global_lock := owner }

/-- The place behind the section, by the way in which it ended. -/
def Threads.leave (w : Threads) (t : Nat) (r : Answer) : Threads :=
  match r.exit with
  | .unlocks => w.move t (.leaving r.ret)
  | .keeps => w.move t .outside
  | .waits => (w.move t .waiting).setLock none

/-- A wait can end at any time, signalled or not. -/
def turn (w : Threads) : Action → Option Threads
  | .call t op => if w.place t = .outside then some (w.move t (.called op)) else none
  | .lock t =>
    if w.single_global_lock ≠ none then none
    else
      match w.place t with
      | .called op => some ((w.move t (.inside op)).setLock (some t))
      | .woken => some ((w.move t .destroying).setLock (some t))
      | _ => none
  | .runSection t =>
    match w.place t with
    | .inside op => (exec w.state op).map fun r => { w with state := r.2 }.leave t r.1
    | _ => none
  | .wake t => if w.place t = .waiting then some (w.move t .woken) else none
  | .destroy t => if w.place t = .destroying then some (w.move t (.leaving 0)) else none
  | .unlock t =>
    match w.place t with
    | .leaving _ => some ((w.move t .outside).setLock none)
    | _ => none

/-- Before the first call. -/
structure Threads.Initial (w : Threads) : Prop where
  state : parte2.Initial w.state
  lock_free : w.single_global_lock = none
  outside : ∀ t, w.place t = .outside

/-- The owner of the lock is inside a section, and when nobody is, every call can go on. -/
structure LockLaws (w : Threads) : Prop where
  owner_inside : ∀ t, w.single_global_lock = some t → (w.place t).holds = true
  next_enters : (∀ t, (w.place t).holds = false) →
    w.single_global_lock = none ∧ ∀ t op, w.place t = .called op → ∃ w', turn w (.lock t) = some w'

/-- The step is the section of a `tfs_open` while a shutdown is pending. -/
def OpensInShutdown (w : Threads) : Action → Prop
  | .runSection t => w.state.openFiles < 0 ∧ ∃ name flags, w.place t = .inside (.tfsOpen name flags)
  | _ => False

/-- A `tfs_open` is at its section. -/
def Place.opens : Place → Bool
  | .inside (.tfsOpen _ _) => true
  | _ => false

theorem Place.opens_iff {p : Place} :
    p.opens = true ↔ ∃ name flags, p = .inside (.tfsOpen name flags) := by
  constructor
  · intro h
    unfold opens at h
    split at h
    · exact ⟨_, _, rfl⟩
    · cases h
  · rintro ⟨name, flags, rfl⟩
    rfl

instance (w : Threads) : (a : Action) → Decidable (OpensInShutdown w a)
  | .runSection t =>
    decidable_of_iff (w.state.openFiles < 0 ∧ (w.place t).opens = true)
      (and_congr_right fun _ => Place.opens_iff)
  | .call _ _ | .lock _ | .wake _ | .destroy _ | .unlock _ => inferInstanceAs (Decidable False)

/-! ## Mutual exclusion -/

/-- The lock and the places agree. -/
def Exclusive (w : Threads) : Prop :=
  ∀ t, w.single_global_lock = some t ↔ (w.place t).holds = true

theorem Exclusive.laws {w : Threads} (h : Exclusive w) : LockLaws w where
  owner_inside := fun t => (h t).mp
  next_enters := by
    intro hnone
    have hfree : w.single_global_lock = none := by
      rcases hl : w.single_global_lock with _ | t
      · rfl
      · have := (h t).mp hl
        rw [hnone t] at this
        cases this
    exact ⟨hfree, fun t op ht => by simp [turn, hfree, ht]⟩

/-- A thread goes from a place without the lock to another one. -/
theorem Exclusive.move_out {w : Threads} (h : Exclusive w) {t : Nat} {p : Place}
    (ht : (w.place t).holds = false) (hp : p.holds = false) : Exclusive (w.move t p) := by
  intro u
  unfold Threads.move
  by_cases hu : u = t
  · subst hu
    simp only [Function.update_self, hp, Bool.false_eq_true, iff_false]
    intro hl
    rw [(h u).mp hl] at ht
    cases ht
  · simp only [Function.update_of_ne hu]
    exact h u

/-- A thread stays inside. -/
theorem Exclusive.move_in {w : Threads} (h : Exclusive w) {t : Nat} {p : Place}
    (ht : (w.place t).holds = true) (hp : p.holds = true) : Exclusive (w.move t p) := by
  intro u
  unfold Threads.move
  by_cases hu : u = t
  · subst hu
    simp only [Function.update_self, hp, iff_true]
    exact (h u).mpr ht
  · simp only [Function.update_of_ne hu]
    exact h u

theorem Exclusive.not_holds {w : Threads} (h : Exclusive w) {u : Nat}
    (hu : w.single_global_lock ≠ some u) : (w.place u).holds = false := by
  rw [Bool.eq_false_iff]
  exact fun hc => hu ((h u).mpr hc)

/-- A thread takes the free lock. -/
theorem Exclusive.enter {w : Threads} (h : Exclusive w) {t : Nat} {p : Place}
    (hfree : w.single_global_lock = none) (hp : p.holds = true) :
    Exclusive ((w.move t p).setLock (some t)) := by
  intro u
  unfold Threads.setLock Threads.move
  by_cases hu : u = t
  · subst hu
    simp [hp]
  · have hno := h.not_holds (u := u) (by simp [hfree])
    simp [Ne.symm hu, Function.update_of_ne hu, hno]

/-- The owner gives the lock back. -/
theorem Exclusive.exit {w : Threads} (h : Exclusive w) {t : Nat} {p : Place}
    (ht : (w.place t).holds = true) (hp : p.holds = false) :
    Exclusive ((w.move t p).setLock none) := by
  have howner := (h t).mpr ht
  intro u
  unfold Threads.setLock Threads.move
  by_cases hu : u = t
  · subst hu
    simp [hp]
  · have hno := h.not_holds (u := u) (by simp [howner, Ne.symm hu])
    simp [Function.update_of_ne hu, hno]

/-! ## Every step -/

/-- Only a `tfs_open` in a shutdown keeps the lock. -/
theorem exec_exit {s : State} {op : Op} {r : Answer × State} (hr : exec s op = some r) :
    r.1.exit = .keeps ↔ s.openFiles < 0 ∧ ∃ name flags, op = .tfsOpen name flags := by
  cases op with
  | tfsLookup name =>
    cases hr
    simp [tfsLookup]
  | tfsOpen name flags =>
    rcases tfsOpen_cases hr with ⟨h0, rfl⟩ | ⟨h0, d, rfl⟩ | ⟨h0, d, i, _, _, _, _, _, rfl⟩
    · simp [h0]
    · simpa using h0
    · simpa using h0
  | tfsClose fhandle =>
    cases hr
    rcases tfsClose_cases s fhandle with ⟨_, he⟩ | ⟨i, _, _, _, he⟩ <;> simp [he]
  | tfsRead fhandle len =>
    obtain ⟨_, _, i, o, rfl⟩ := tfsRead_cases hr
    simp
  | tfsWrite fhandle buffer =>
    obtain ⟨_, d, i, o, rfl⟩ := tfsWrite_cases hr
    simp
  | tfsDestroyAfterAllClosed =>
    cases hr
    unfold tfsDestroyAfterAllClosed
    simp only [reduceCtorEq, exists_false, and_false, iff_false]
    split <;> simp

theorem Exclusive.turn {w w' : Threads} {a : Action} (h : Exclusive w)
    (hok : ¬ OpensInShutdown w a) (he : turn w a = some w') : Exclusive w' := by
  cases a with
  | call t op =>
    simp only [parte2.turn, Option.ite_none_right_eq_some, Option.some.injEq] at he
    obtain ⟨ht, rfl⟩ := he
    exact h.move_out (by rw [ht]; rfl) rfl
  | lock t =>
    simp only [parte2.turn] at he
    split at he
    · cases he
    · rename_i hfree
      rw [not_not] at hfree
      split at he <;> cases he
      · exact h.enter hfree rfl
      · exact h.enter hfree rfl
  | runSection t =>
    simp only [parte2.turn] at he
    split at he
    · rename_i op hop
      obtain ⟨r, hr, rfl⟩ := Option.map_eq_some_iff.mp he
      have hin : (w.place t).holds = true := by rw [hop]; rfl
      have hstate : Exclusive { w with state := r.2 } := h
      unfold Threads.leave
      split
      · exact hstate.move_in hin rfl
      · rename_i hexit
        obtain ⟨h0, name, flags, rfl⟩ := (exec_exit hr).mp hexit
        exact (hok ⟨h0, name, flags, hop⟩).elim
      · exact hstate.exit hin rfl
    · cases he
  | wake t =>
    simp only [parte2.turn, Option.ite_none_right_eq_some, Option.some.injEq] at he
    obtain ⟨ht, rfl⟩ := he
    exact h.move_out (by rw [ht]; rfl) rfl
  | destroy t =>
    simp only [parte2.turn, Option.ite_none_right_eq_some, Option.some.injEq] at he
    obtain ⟨ht, rfl⟩ := he
    exact h.move_in (by rw [ht]; rfl) rfl
  | unlock t =>
    simp only [parte2.turn] at he
    split at he
    · rename_i ret hret
      cases he
      exact h.exit (by rw [hret]; rfl) rfl
    · cases he

/-- The refused `tfs_open` returns as the owner of the lock. -/
theorem Exclusive.open_in_shutdown {w w' : Threads} {a : Action} (h : Exclusive w)
    (hbad : OpensInShutdown w a) (he : parte2.turn w a = some w') : ¬ LockLaws w' := by
  cases a with
  | runSection t =>
    obtain ⟨h0, name, flags, hop⟩ := hbad
    simp only [parte2.turn, hop] at he
    obtain ⟨r, hr, rfl⟩ := Option.map_eq_some_iff.mp he
    have hexit := (exec_exit hr).mpr ⟨h0, name, flags, rfl⟩
    have howner := (h t).mpr (by rw [hop]; rfl)
    intro hlaws
    have := hlaws.owner_inside t
    simp [Threads.leave, hexit, Threads.move, howner, Place.holds] at this
  | _ => exact hbad.elim

/-- The owner of the lock is inside a section all along a run, and the next call can go on when
nobody is, exactly when no section of a `tfs_open` runs while a shutdown is pending. -/
theorem the_lock_is_free_outside_of_the_sections {w : Threads} (hw : w.Initial)
    (as : List Action) :
    steps.Always turn LockLaws w as ↔
      steps.Meets turn (fun w a => ¬ OpensInShutdown w a) w as := by
  refine steps.always_iff_meets (I := Exclusive) (fun _ h => h.laws)
    (fun _ _ _ h _ hok he => h.turn hok he)
    (fun _ _ _ h _ hbad he => h.open_in_shutdown (not_not.mp hbad) he) ?_ (steps.meets_true _ _)
  intro t
  rw [hw.lock_free, hw.outside t]
  simp [Place.holds]

/-- The threads of the server when it starts. -/
def firstThreads : Threads := ⟨firstState, none, fun _ => .outside⟩

theorem firstThreads_initial : firstThreads.Initial := ⟨firstState_initial, rfl, fun _ => rfl⟩

/-- Thread 0 opens a file, thread 1 closes it, and thread 2 shuts down. -/
def opensAndCloses : List Action :=
  [.call 0 (.tfsOpen (some pathA) TFS_O_CREAT), .call 1 (.tfsClose 0), .lock 0, .runSection 0,
    .call 2 .tfsDestroyAfterAllClosed, .unlock 0, .lock 1, .runSection 1, .unlock 1, .lock 2,
    .runSection 2, .unlock 2]

theorem each_call_gives_the_lock_back :
    firstThreads.Initial ∧ steps.Always turn LockLaws firstThreads opensAndCloses ∧
      (steps.after turn firstThreads opensAndCloses).map (fun w =>
        (w.single_global_lock, w.place 0, w.place 1, w.place 2)) =
      some (none, .outside, .outside, .outside) :=
  ⟨firstThreads_initial, (the_lock_is_free_outside_of_the_sections firstThreads_initial _).mpr
    (by decide +kernel), by decide +kernel⟩

/-- Thread 0 opens a file and waits in a shutdown. Then thread 1 calls `tfs_open`, and is outside
again with the lock. -/
theorem a_refused_open_keeps_the_lock :
    (steps.after turn firstThreads
        [.call 0 (.tfsOpen (some pathA) TFS_O_CREAT), .lock 0, .runSection 0, .unlock 0,
          .call 0 .tfsDestroyAfterAllClosed, .lock 0, .runSection 0,
          .call 1 (.tfsOpen (some pathB) TFS_O_CREAT), .lock 1, .runSection 1]).map
      (fun w => (w.single_global_lock, w.place 0, w.place 1)) =
    some (some 1, .waiting, .outside) := by
  decide +kernel

end tecnicofs.parte2
