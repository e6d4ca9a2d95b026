-- A shutdown and the wait in it. A thread that waits is blocked on `condVar` until a close
-- signals it, or until its wait ends by itself. The counter is tested once, before the wait, so
-- what ends the wait decides whether files are still open.
import TecnicoFS.Parte2.GlobalLock

namespace tecnicofs.parte2

/-! ## The threads and `condVar` -/

/-- The threads, with those that are blocked on `condVar`. -/
structure CondVar where
  threads : Threads
  blocked : List Nat

def CondVar.taken (w : CondVar) : Nat := takenCount w.threads.state.free_open_file_entries

/-- `pthread_cond_signal` unblocks one of the blocked threads, if there are any. -/
def condSignal (blocked : List Nat) : Option Nat → Option (List Nat)
  | none => if blocked = [] then some [] else none
  | some u => if u ∈ blocked then some (blocked.erase u) else none

/-- What a section of thread `t` does to `condVar`. -/
def blockedAfter (blocked : List Nat) (t : Nat) (r : Answer) (chosen : Option Nat) :
    Option (List Nat) :=
  if r.signals then condSignal blocked chosen
  else if r.exit = .waits then some (t :: blocked)
  else some blocked

/-- A step of a thread, with the thread that it unblocks if it signals. A wait can end at any
time, and whoever was blocked in it is so no more. -/
def waitTurn (w : CondVar) (a : Action × Option Nat) : Option CondVar :=
  match a.1 with
  | .runSection t =>
    match w.threads.place t with
    | .inside op =>
      (exec w.threads.state op).bind fun r =>
        (blockedAfter w.blocked t r.1 a.2).map fun blocked =>
          ⟨{ w.threads with state := r.2 }.leave t r.1, blocked⟩
    | _ => none
  | .wake t => (turn w.threads (.wake t)).map fun threads => ⟨threads, w.blocked.erase t⟩
  | a => (turn w.threads a).map fun threads => { w with threads }

/-- Before the first call. -/
def CondVar.Initial (w : CondVar) : Prop := w.threads.Initial ∧ w.blocked = []

/-- The step ends a wait that nobody has signalled. -/
def EndsUnsignalled (w : CondVar) : Action → Prop
  | .wake t => t ∈ w.blocked
  | _ => False

/-- The step is the section of a shutdown while another one is pending. -/
def ShutsAgain (w : Threads) : Action → Prop
  | .runSection t => w.state.openFiles < 0 ∧ w.place t = .inside .tfsDestroyAfterAllClosed
  | _ => False

instance (w : CondVar) : (a : Action) → Decidable (EndsUnsignalled w a)
  | .wake _ => inferInstanceAs (Decidable (_ ∈ _))
  | .call _ _ | .lock _ | .runSection _ | .destroy _ | .unlock _ =>
    inferInstanceAs (Decidable False)

instance (w : Threads) : (a : Action) → Decidable (ShutsAgain w a)
  | .runSection _ => inferInstanceAs (Decidable (_ ∧ _))
  | .call _ _ | .lock _ | .wake _ | .destroy _ | .unlock _ => inferInstanceAs (Decidable False)

/-- A step is the section of a thread that is inside, or leaves `condVar` alone, unless it ends a
wait that nobody has signalled. -/
theorem waitTurn_cases {w w' : CondVar} {a : Action × Option Nat} (he : waitTurn w a = some w') :
    turn w.threads a.1 = some w'.threads ∧
      ((∃ t op r, a.1 = .runSection t ∧ w.threads.place t = .inside op ∧
          exec w.threads.state op = some r ∧
          w'.threads = { w.threads with state := r.2 }.leave t r.1 ∧
          blockedAfter w.blocked t r.1 a.2 = some w'.blocked) ∨
        ((∀ t, a.1 ≠ .runSection t) ∧ (¬ EndsUnsignalled w a.1 → w'.blocked = w.blocked))) := by
  obtain ⟨a, chosen⟩ := a
  cases a with
  | runSection t =>
    simp only [waitTurn] at he
    split at he
    · rename_i op hop
      obtain ⟨r, hr, he⟩ := Option.bind_eq_some_iff.mp he
      obtain ⟨blocked, hblocked, rfl⟩ := Option.map_eq_some_iff.mp he
      exact ⟨by simp [turn, hop, hr], Or.inl ⟨t, op, r, rfl, hop, hr, rfl, hblocked⟩⟩
    · cases he
  | wake t =>
    obtain ⟨threads, hturn, rfl⟩ := Option.map_eq_some_iff.mp he
    exact ⟨hturn, Or.inr ⟨by simp, fun hno => List.erase_of_not_mem hno⟩⟩
  | _ =>
    obtain ⟨threads, hturn, rfl⟩ := Option.map_eq_some_iff.mp he
    exact ⟨hturn, Or.inr ⟨by simp, fun _ => rfl⟩⟩

/-! ## The calls -/

/-- The threads, with the call that each of them has made last. -/
structure Calls where
  waits : CondVar
  lastCall : Nat → Option Op

def lastCallAfter (lastCall : Nat → Option Op) : Action → Nat → Option Op
  | .call t op => Function.update lastCall t (some op)
  | _ => lastCall

def callTurn (w : Calls) (a : Action × Option Nat) : Option Calls :=
  (waitTurn w.waits a).map fun waits => ⟨waits, lastCallAfter w.lastCall a.1⟩

/-- Before the first call. -/
def Calls.Initial (w : Calls) : Prop := w.waits.Initial ∧ ∀ t, w.lastCall t = none

/-- The thread is about to call `tfs_destroy`, or to return 0 from the shutdown. -/
def Calls.Destroys (w : Calls) (t : Nat) : Prop :=
  w.waits.threads.place t = .destroying ∨
    (w.waits.threads.place t = .leaving 0 ∧ w.lastCall t = some .tfsDestroyAfterAllClosed)

/-- Nobody destroys the file system while a file is open. -/
def NoneOpen (w : Calls) : Prop := ∀ t, w.Destroys t → w.waits.taken = 0

/-- A wait ends only after it was signalled, and no shutdown comes behind another one. -/
def ShutsDownOnce (w : Calls) (a : Action × Option Nat) : Prop :=
  ¬ EndsUnsignalled w.waits a.1 ∧ ¬ ShutsAgain w.waits.threads a.1

instance (w : Calls) (a : Action × Option Nat) : Decidable (ShutsDownOnce w a) :=
  inferInstanceAs (Decidable (_ ∧ _))

/-! ## The counter -/

/-- The counter is the number of open files, or -(number + 1), as often as the sign was turned. -/
def SignedCount (s : State) : Prop :=
  let n := takenCount s.free_open_file_entries
  s.openFiles = n ∨ s.openFiles = -((n : Int) + 1)

theorem SignedCount.exec {s : State} {op : Op} {r : Answer × State} (h : SignedCount s)
    (hr : exec s op = some r) : SignedCount r.2 := by
  unfold SignedCount at *
  rcases exec_counter hr with ⟨_, ho, hf⟩ | ⟨_, h0, ho, i, hi, hfree, hf⟩ |
    ⟨_, ho, i, hi, ht, hf⟩ | ⟨_, ho, hf⟩
  · rw [ho, hf]
    exact h
  · have hcount := takenCount_take hi hfree
    simp only [ho, hf, hcount]
    simp only at h
    omega
  · have hcount := takenCount_release hi ht
    simp only [ho, hf]
    simp only at h
    split <;> omega
  · simp only [ho, hf]
    simp only at h
    omega

theorem SignedCount.none_taken {s : State} (h : SignedCount s) :
    takenCount s.free_open_file_entries = 0 ↔ s.openFiles = -1 ∨ s.openFiles = 0 := by
  unfold SignedCount at h
  simp only at h
  omega

/-! ## The place behind a step -/

/-- How many steps a thread has to the end of its call, at most. -/
def Place.left : Place → Nat
  | .outside => 0
  | .leaving _ => 1
  | .destroying => 2
  | .woken => 3
  | .waiting => 4
  | .inside _ => 5
  | .called _ => 6

theorem Threads.leave_place (w : Threads) (t : Nat) (r : Answer) :
    (w.leave t r).state = w.state ∧
      ∃ p, (w.leave t r).place = Function.update w.place t p ∧ p.left ≤ 4 ∧
        (p = .waiting ↔ r.exit = .waits) ∧ p ≠ .woken ∧ p ≠ .destroying := by
  unfold Threads.leave
  split
  all_goals
    rename_i hexit
    refine ⟨rfl, _, rfl, ?_⟩
    simp [Place.left, hexit]

/-- From place to place in one step. -/
inductive Place.Goes : Place → Place → Prop
  | call (op : Op) : Goes .outside (.called op)
  | lock (op : Op) : Goes (.called op) (.inside op)
  | runSection (op : Op) {p : Place} : p.left ≤ 4 → p ≠ .woken → p ≠ .destroying → Goes (.inside op) p
  | wake : Goes .waiting .woken
  | lockAgain : Goes .woken .destroying
  | destroy : Goes .destroying (.leaving 0)
  | unlock (ret : Int) : Goes (.leaving ret) .outside

/-- A thread comes nearer to the end of its call. -/
theorem Place.Goes.left_lt {p q : Place} (h : p.Goes q) (hp : p ≠ .outside) : q.left < p.left := by
  cases h with
  | call op => exact (hp rfl).elim
  | runSection op hleft => exact Nat.lt_succ_of_le hleft
  | _ => simp [Place.left]

/-- A step moves one thread, and only a section changes what the threads share. -/
theorem turn_goes {w w' : Threads} {a : Action} (he : turn w a = some w') :
    ((∀ t, a ≠ .runSection t) → w'.state = w.state) ∧
      ∃ t p, w'.place = Function.update w.place t p ∧ (w.place t).Goes p ∧
        (w.place t = .waiting → a = .wake t) ∧ (w.place t = .outside → ∃ op, a = .call t op) ∧
        (∀ op, w.place t = .inside op → a = .runSection t) ∧
        ∀ u op, a = .call u op → u = t ∧ p = .called op := by
  cases a with
  | call t op =>
    simp only [turn, Option.ite_none_right_eq_some, Option.some.injEq] at he
    obtain ⟨ht, rfl⟩ := he
    exact ⟨fun _ => rfl, t, _, rfl, by rw [ht]; exact .call op, by simp [ht]⟩
  | lock t =>
    simp only [turn] at he
    split at he
    · cases he
    · split at he <;> cases he
      · rename_i op hop
        exact ⟨fun _ => rfl, t, _, rfl, by rw [hop]; exact .lock op, by simp [hop]⟩
      · rename_i hwoken
        exact ⟨fun _ => rfl, t, _, rfl, by rw [hwoken]; exact .lockAgain, by simp [hwoken]⟩
  | runSection t =>
    simp only [turn] at he
    split at he
    · rename_i op hop
      obtain ⟨r, _, rfl⟩ := Option.map_eq_some_iff.mp he
      obtain ⟨_, p, hplace, hleft, _, hwoken, hdestroying⟩ :=
        Threads.leave_place { w with state := r.2 } t r.1
      refine ⟨fun hno => (hno t rfl).elim, t, p, hplace, ?_, by simp [hop]⟩
      rw [hop]
      exact .runSection op hleft hwoken hdestroying
    · cases he
  | wake t =>
    simp only [turn, Option.ite_none_right_eq_some, Option.some.injEq] at he
    obtain ⟨ht, rfl⟩ := he
    exact ⟨fun _ => rfl, t, _, rfl, by rw [ht]; exact .wake, by simp [ht]⟩
  | destroy t =>
    simp only [turn, Option.ite_none_right_eq_some, Option.some.injEq] at he
    obtain ⟨ht, rfl⟩ := he
    exact ⟨fun _ => rfl, t, _, rfl, by rw [ht]; exact .destroy, by simp [ht]⟩
  | unlock t =>
    simp only [turn] at he
    split at he
    · rename_i ret hret
      cases he
      exact ⟨fun _ => rfl, t, _, rfl, by rw [hret]; exact .unlock ret, by simp [hret]⟩
    · cases he

/-! ## No signal is lost -/

/-- What a section says to `condVar`. -/
theorem exec_condVar {s : State} {op : Op} {r : Answer × State} (hr : exec s op = some r) :
    (r.1.exit = .waits → op = .tfsDestroyAfterAllClosed ∧ r.2.openFiles ≠ -1) ∧
      (r.1.signals = true → r.2.openFiles = -1) ∧
      (r.1.signals = false → op ≠ .tfsDestroyAfterAllClosed → s.openFiles < -1 →
        r.2.openFiles < -1) := by
  cases op with
  | tfsLookup name =>
    cases hr
    simp [tfsLookup]
  | tfsOpen name flags =>
    rcases tfsOpen_cases hr with ⟨h0, rfl⟩ | ⟨h0, d, rfl⟩ | ⟨h0, d, i, _, _, _, _, _, rfl⟩
    · simp
    · simp
    · simp
      omega
  | tfsClose fhandle =>
    cases hr
    rcases tfsClose_cases s fhandle with ⟨_, he⟩ | ⟨i, _, _, _, he⟩
    · simp [he]
    · simp only [he, reduceCtorEq, false_implies, true_and, decide_eq_true_eq, decide_eq_false_iff_not,
        withoutHandle]
      refine ⟨id, fun hne _ hlt => ?_⟩
      rw [if_neg (by omega)] at hne ⊢
      omega
  | tfsRead fhandle len =>
    obtain ⟨_, _, i, o, rfl⟩ := tfsRead_cases hr
    simp [withOffset]
  | tfsWrite fhandle buffer =>
    obtain ⟨_, d, i, o, rfl⟩ := tfsWrite_cases hr
    simp [withOffset]
  | tfsDestroyAfterAllClosed =>
    cases hr
    simp only [tfsDestroyAfterAllClosed, true_and, Bool.false_eq_true, false_implies, ne_eq,
      not_true_eq_false, implies_true, and_true]
    split <;> simp_all

/-- Once no file is open in a shutdown, none is opened or closed. -/
theorem stays_closed {s : State} {op : Op} {r : Answer × State} (h : SignedCount s)
    (hr : exec s op = some r) (hop : op ≠ .tfsDestroyAfterAllClosed) (hs : s.openFiles = -1) :
    r.2.openFiles = -1 := by
  have hnone := h.none_taken.mpr (Or.inl hs)
  rcases exec_counter hr with ⟨_, ho, _⟩ | ⟨_, h0, _⟩ | ⟨_, _, i, hi, ht, _⟩ | ⟨hshut, _⟩
  · rw [ho, hs]
  · omega
  · have := takenCount_release hi ht
    omega
  · exact (hop hshut).elim

/-- The thread is in a wait that has ended. -/
def CondVar.Ended (w : CondVar) (t : Nat) : Prop :=
  (w.threads.place t = .waiting ∧ t ∉ w.blocked) ∨ w.threads.place t = .woken ∨
    w.threads.place t = .destroying

/-- A thread is blocked as long as files are open, and only then. -/
structure CondVar.Inv (w : CondVar) : Prop where
  count : SignedCount w.threads.state
  blocked : w.blocked = [] ∨ ∃ t, w.blocked = [t] ∧ w.threads.state.openFiles < -1
  ended : ∀ t, w.Ended t → w.threads.state.openFiles = -1

/-- A signal finds one thread blocked at most. -/
theorem condSignal_one {blocked blocked' : List Nat} {chosen : Option Nat}
    (h : blocked = [] ∨ ∃ t, blocked = [t]) (he : condSignal blocked chosen = some blocked') :
    blocked' = [] := by
  cases chosen with
  | none =>
    simp only [condSignal, Option.ite_none_right_eq_some, Option.some.injEq] at he
    exact he.2.symm
  | some u =>
    simp only [condSignal, Option.ite_none_right_eq_some, Option.some.injEq] at he
    obtain ⟨hmem, rfl⟩ := he
    rcases h with rfl | ⟨t, rfl⟩
    · cases hmem
    · rw [List.mem_singleton] at hmem
      simp [hmem]

/-- A section that does not signal ends no wait. -/
theorem CondVar.Ended.before_section {w w' : CondVar} {t u : Nat} {r : Answer × State}
    {chosen : Option Nat} (hthreads : w'.threads = { w.threads with state := r.2 }.leave t r.1)
    (hblocked : blockedAfter w.blocked t r.1 chosen = some w'.blocked)
    (hsilent : r.1.signals = false) (h : w'.Ended u) : w.Ended u := by
  obtain ⟨_, p, hplace, _, hp, hwoken, hdestroying⟩ :=
    Threads.leave_place { w.threads with state := r.2 } t r.1
  rw [← hthreads] at hplace
  simp only [blockedAfter, hsilent, Bool.false_eq_true, if_false] at hblocked
  unfold CondVar.Ended at h ⊢
  rw [hplace] at h
  by_cases hut : u = t
  · subst hut
    -- who begins to wait here is blocked
    simp only [Function.update_self, hp, hwoken, hdestroying, or_false] at h
    obtain ⟨hexit, hfree⟩ := h
    rw [if_pos hexit] at hblocked
    rw [← Option.some.inj hblocked] at hfree
    exact (hfree List.mem_cons_self).elim
  · rw [Function.update_of_ne hut] at h
    refine h.imp_left ?_
    rintro ⟨hwait, hfree⟩
    refine ⟨hwait, fun hmem => hfree ?_⟩
    split at hblocked <;> rw [← Option.some.inj hblocked]
    · exact List.mem_cons_of_mem _ hmem
    · exact hmem

/-- The section of a call. -/
theorem CondVar.Inv.section {w w' : CondVar} (h : w.Inv) {t : Nat} {op : Op} {r : Answer × State}
    {chosen : Option Nat} (hr : exec w.threads.state op = some r)
    (honce : op = .tfsDestroyAfterAllClosed → 0 ≤ w.threads.state.openFiles)
    (hthreads : w'.threads = { w.threads with state := r.2 }.leave t r.1)
    (hblocked : blockedAfter w.blocked t r.1 chosen = some w'.blocked) : w'.Inv := by
  obtain ⟨hwaits, hsignals, hsilent⟩ := exec_condVar hr
  have hstate : w'.threads.state = r.2 := by
    rw [hthreads]
    exact (Threads.leave_place { w.threads with state := r.2 } t r.1).1
  have hop : w.threads.state.openFiles < 0 → op ≠ .tfsDestroyAfterAllClosed := by
    intro hneg hop
    have := honce hop
    omega
  refine ⟨hstate ▸ h.count.exec hr, ?_, fun u hu => ?_⟩
  · rw [hstate]
    unfold blockedAfter at hblocked
    split at hblocked
    · rcases h.blocked with hnone | ⟨u, hu, _⟩
      · exact Or.inl (condSignal_one (Or.inl hnone) hblocked)
      · exact Or.inl (condSignal_one (Or.inr ⟨u, hu⟩) hblocked)
    · rename_i hno
      rw [Bool.not_eq_true] at hno
      split at hblocked <;> rw [← Option.some.inj hblocked]
      · rename_i hexit
        obtain ⟨rfl, hne⟩ := hwaits hexit
        have h0 := honce rfl
        cases hr
        rcases h.blocked with hnone | ⟨u, _, hlt⟩
        · refine Or.inr ⟨t, by rw [hnone], ?_⟩
          simp only [tfsDestroyAfterAllClosed] at hne ⊢
          omega
        · omega
      · rcases h.blocked with hnone | ⟨u, hu, hlt⟩
        · exact Or.inl hnone
        · exact Or.inr ⟨u, hu, hsilent hno (hop (by omega)) hlt⟩
  · rw [hstate]
    cases hsig : r.1.signals with
    | true => exact hsignals hsig
    | false =>
      have hone := h.ended u (hu.before_section hthreads hblocked hsig)
      exact stays_closed h.count hr (hop (by omega)) hone

theorem CondVar.Inv.turn {w w' : CondVar} {a : Action × Option Nat} (h : w.Inv)
    (hsignalled : ¬ EndsUnsignalled w a.1) (honce : ¬ ShutsAgain w.threads a.1)
    (he : waitTurn w a = some w') : w'.Inv := by
  obtain ⟨hturn, ⟨t, op, r, ha, hop, hr, hthreads, hblocked⟩ | ⟨hno, hblocked⟩⟩ :=
    waitTurn_cases he
  · refine h.section hr (fun hshut => ?_) hthreads hblocked
    by_contra hneg
    refine honce ?_
    rw [ha]
    exact ⟨by omega, by rw [hop, hshut]⟩
  · obtain ⟨hstate, t, p, hplace, hgoes, hwait, _, hin, _⟩ := turn_goes hturn
    have hsame := hstate hno
    have hblocked := hblocked hsignalled
    refine ⟨hsame ▸ h.count, by rw [hblocked, hsame]; exact h.blocked, fun u hu => ?_⟩
    rw [hsame]
    refine h.ended u ?_
    -- who is in a wait that has ended was there before, or has been woken now
    unfold CondVar.Ended at hu ⊢
    rw [hplace, hblocked] at hu
    by_cases hut : u = t
    · subst hut
      rw [Function.update_self] at hu
      generalize hq : w.threads.place u = q at *
      cases hgoes with
      | runSection op hleft => exact (hno u (hin op rfl)).elim
      | wake =>
        rw [hwait rfl] at hsignalled
        exact Or.inl ⟨rfl, hsignalled⟩
      | lockAgain => exact Or.inr (Or.inl rfl)
      | _ => simp at hu
    · rwa [Function.update_of_ne hut] at hu

theorem CondVar.Initial.inv {w : CondVar} (h : w.Initial) : w.Inv := by
  obtain ⟨hw, hblocked⟩ := h
  refine ⟨?_, Or.inl hblocked, fun t ht => ?_⟩
  · exact Or.inl ((Counts.start hw.state).before id)
  · simp [CondVar.Ended, hw.outside t] at ht

/-! ## The law -/

/-- A shutdown that returns has found no file open. -/
structure Calls.Inv (w : Calls) : Prop where
  waits : w.waits.Inv
  named : ∀ t op, w.waits.threads.place t = .called op ∨ w.waits.threads.place t = .inside op →
    w.lastCall t = some op
  returned : ∀ t, w.waits.threads.place t = .leaving 0 →
    w.lastCall t = some .tfsDestroyAfterAllClosed → w.waits.threads.state.openFiles = -1

theorem Calls.Inv.none_open {w : Calls} (h : w.Inv) : NoneOpen w := by
  rintro t (hdestroying | ⟨hret, hlast⟩)
  · exact h.waits.count.none_taken.mpr (Or.inl (h.waits.ended t (Or.inr (Or.inr hdestroying))))
  · exact h.waits.count.none_taken.mpr (Or.inl (h.returned t hret hlast))

theorem lastCallAfter_of_ne {lastCall : Nat → Option Op} {a : Action} {u : Nat}
    (h : ∀ op, a ≠ .call u op) : lastCallAfter lastCall a u = lastCall u := by
  cases a with
  | call t op =>
    have hu : u ≠ t := by
      rintro rfl
      exact h op rfl
    exact Function.update_of_ne hu ..
  | _ => rfl

section
variable {w w' : Calls} {a : Action × Option Nat} (h : w.Inv)
include h

/-- The operation of a section is the last call of its thread. -/
theorem Calls.Inv.named_turn (he : callTurn w a = some w') (u : Nat) (op : Op)
    (hu : w'.waits.threads.place u = .called op ∨ w'.waits.threads.place u = .inside op) :
    w'.lastCall u = some op := by
  obtain ⟨waits, hwaits, rfl⟩ := Option.map_eq_some_iff.mp he
  obtain ⟨_, t, p, hplace, hgoes, _, hout, _, hcall⟩ := turn_goes (waitTurn_cases hwaits).1
  simp only [hplace] at hu
  by_cases hut : u = t
  · subst hut
    rw [Function.update_self] at hu
    generalize hq : w.waits.threads.place u = q at *
    cases hgoes with
    | call op' =>
      obtain ⟨op'', ha⟩ := hout rfl
      obtain rfl : op' = op'' := by simpa using (hcall u op'' ha).2
      obtain rfl : op' = op := by simpa using hu
      simp only [ha, lastCallAfter, Function.update_self]
    | lock op' =>
      obtain rfl : op' = op := by simpa using hu
      simp only
      rw [lastCallAfter_of_ne fun op' ha => by simpa using (hcall u op' ha).2]
      exact h.named u op' (Or.inl hq)
    | runSection op' hleft =>
      rcases hu with rfl | rfl <;> simp [Place.left] at hleft
    | _ => simp at hu
  · rw [Function.update_of_ne hut] at hu
    simp only
    rw [lastCallAfter_of_ne fun op' ha => hut (hcall u op' ha).1]
    exact h.named u op hu

theorem Calls.Inv.returned_turn (hok : ShutsDownOnce w a) (he : callTurn w a = some w') (u : Nat)
    (hret : w'.waits.threads.place u = .leaving 0)
    (hlast : w'.lastCall u = some .tfsDestroyAfterAllClosed) :
    w'.waits.threads.state.openFiles = -1 := by
  obtain ⟨waits, hwaits, rfl⟩ := Option.map_eq_some_iff.mp he
  simp only at hret hlast ⊢
  obtain ⟨hturn, ⟨t, op, r, ha, hop, hr, hthreads, _⟩ | ⟨hno, _⟩⟩ := waitTurn_cases hwaits
  · obtain ⟨hstate, p, hplace, _, hwait, _⟩ :=
      Threads.leave_place { w.waits.threads with state := r.2 } t r.1
    rw [ha] at hlast
    rw [hthreads, hplace] at hret
    rw [hthreads, hstate]
    by_cases hut : u = t
    · -- a shutdown that does not wait
      subst hut
      rw [Function.update_self] at hret
      subst hret
      obtain rfl : op = .tfsDestroyAfterAllClosed :=
        Option.some.inj ((h.named u op (Or.inr hop)).symm.trans hlast)
      cases hr
      simpa [tfsDestroyAfterAllClosed] using hwait
    · rw [Function.update_of_ne hut] at hret
      have hone := h.returned u hret hlast
      refine stays_closed h.waits.count hr (fun hshut => hok.2 ?_) hone
      rw [ha]
      exact ⟨by omega, by rw [hop, hshut]⟩
  · obtain ⟨hstate, t, p, hplace, hgoes, _, _, hin, hcall⟩ := turn_goes hturn
    rw [hplace] at hret
    rw [hstate hno]
    by_cases hut : u = t
    · subst hut
      rw [Function.update_self] at hret
      subst hret
      generalize hq : w.waits.threads.place u = q at *
      cases hgoes with
      | runSection op => exact (hno u (hin op rfl)).elim
      | destroy => exact h.waits.ended u (Or.inr (Or.inr hq))
    · rw [Function.update_of_ne hut] at hret
      rw [lastCallAfter_of_ne fun op' ha => hut (hcall u op' ha).1] at hlast
      exact h.returned u hret hlast

end

theorem Calls.Initial.inv {w : Calls} (h : w.Initial) : w.Inv := by
  obtain ⟨hw, _⟩ := h
  have hplace : ∀ t, w.waits.threads.place t = .outside := hw.1.outside
  exact ⟨hw.inv, fun t op hop => by simp [hplace t] at hop, fun t hret => by simp [hplace t] at hret⟩

/-- `tfs_destroy` is called, and 0 returned by the shutdown, only while no file is open, in every
run in which each wait is ended by a signal and no second shutdown is asked for. -/
theorem no_file_is_open_behind_a_signalled_wait {w : Calls} (hw : w.Initial)
    {as : List (Action × Option Nat)} (hm : steps.Meets callTurn ShutsDownOnce w as) :
    steps.Always callTurn NoneOpen w as := by
  refine (steps.always_of_meets (I := Calls.Inv) (fun w a w' h hok he => ?_) hw.inv hm).mono
    fun _ h => h.none_open
  obtain ⟨waits, hwaits, hw'⟩ := Option.map_eq_some_iff.mp he
  refine ⟨?_, h.named_turn he, h.returned_turn hok he⟩
  rw [← hw']
  exact h.waits.turn hok.1 hok.2 hwaits

/-- The calls of the server when it starts. -/
def firstCalls : Calls := ⟨⟨firstThreads, []⟩, fun _ => none⟩

theorem firstCalls_initial : firstCalls.Initial := ⟨⟨firstThreads_initial, rfl⟩, fun _ => rfl⟩

/-- Thread 0 opens a file and waits in a shutdown. -/
def waitsInShutdown : List (Action × Option Nat) :=
  [(.call 0 (.tfsOpen (some pathA) TFS_O_CREAT), none), (.lock 0, none), (.runSection 0, none),
    (.unlock 0, none), (.call 0 .tfsDestroyAfterAllClosed, none), (.lock 0, none),
    (.runSection 0, none)]

/-- Thread 1 closes the file, and signals thread 0. -/
def closesInShutdown : List (Action × Option Nat) :=
  [(.call 1 (.tfsClose 0), none), (.lock 1, none), (.runSection 1, some 0), (.unlock 1, none)]

/-- The close ends the wait, the file system is destroyed, and the shutdown returns 0. -/
theorem a_close_ends_the_wait :
    steps.Always callTurn NoneOpen firstCalls
      (waitsInShutdown ++ closesInShutdown ++
        [(.wake 0, none), (.lock 0, none), (.destroy 0, none), (.unlock 0, none)]) :=
  no_file_is_open_behind_a_signalled_wait firstCalls_initial (by decide +kernel)

theorem not_always_noneOpen {w : Calls} {as : List (Action × Option Nat)} {t : Nat}
    (he : ∃ w', steps.after callTurn w as = some w' ∧ w'.waits.threads.place t = .destroying ∧
      w'.waits.taken ≠ 0) : ¬ steps.Always callTurn NoneOpen w as := by
  obtain ⟨w', hafter, hplace, htaken⟩ := he
  intro h
  exact htaken (h.last hafter t (Or.inl hplace))

/-- The wait ends without a signal. -/
def wakesEarly : List (Action × Option Nat) := waitsInShutdown ++ [(.wake 0, none), (.lock 0, none)]

theorem wakesEarly_possible : (steps.after callTurn firstCalls wakesEarly).isSome = true := by
  decide +kernel

/-- A second shutdown turns the sign after the signal, and a file is opened before the waiter has
the lock. -/
def reopened : List (Action × Option Nat) :=
  waitsInShutdown ++ closesInShutdown ++
    [(.wake 0, none), (.call 1 .tfsDestroyAfterAllClosed, none), (.lock 1, none),
      (.runSection 1, none), (.call 2 (.tfsOpen (some pathB) TFS_O_CREAT), none), (.lock 2, none),
      (.runSection 2, none), (.unlock 2, none), (.lock 0, none)]

theorem reopened_possible : (steps.after callTurn firstCalls reopened).isSome = true := by
  decide +kernel

theorem a_shutdown_destroys_with_a_file_open :
    firstCalls.Initial ∧ ¬ steps.Always callTurn NoneOpen firstCalls wakesEarly ∧
      ¬ steps.Always callTurn NoneOpen firstCalls reopened := by
  refine ⟨firstCalls_initial, not_always_noneOpen (t := 0) ?_, not_always_noneOpen (t := 0) ?_⟩
  · exact ⟨_, (Option.some_get wakesEarly_possible).symm, by decide +kernel, by decide +kernel⟩
  · exact ⟨_, (Option.some_get reopened_possible).symm, by decide +kernel, by decide +kernel⟩

end tecnicofs.parte2
