-- Thread safety: the calls of any number of threads are linearizable as long as no
-- step is careless. A write that has found its slot taken and comes back to it after
-- a close and an open is not: it writes to the old file at the new offset.
import TecnicoFS.Parte1.HandleSteps
import Mathlib.Data.List.Permutation

open byte_memory block_map linearizability

namespace tecnicofs.parte1

/-! ## One step -/

theorem Threads.go_quiet {s : Threads} {t : Nat} {p : Place} (hacc : p.accesses = false) :
    s.go t p = s.after t (advance s.fs p) := by
  unfold Threads.go
  rw [hacc]
  rfl

section
variable {s₀ : State} {s : Threads} {order : List (Nat × Answer)} {b a : State}
  (h : Sim s₀ s order b a) {t : Nat}
include h

/-- A plain step on the disk: what was to be seen is seen first. -/
theorem Sim.go_seen {p : Place} (hp : s.place t = p) (hplain : p.Plain) (hacc : p.accesses = true)
    (hstep : ∀ order b a, Sim s₀ s.see order b a → s.see.unseen = none →
      ∃ order' b' a', Sim s₀ (s.see.after t (advance s.see.fs p)) order' b' a') :
    ∃ order' b' a', Sim s₀ (s.go t p) order' b' a' := by
  obtain ⟨order', b', a', hsee⟩ := h.see
  have hwaits : (s.place t).waits = false := hp ▸ hplain.waits
  have hgo : s.go t p = s.see.after t (advance s.see.fs p) := by
    unfold Threads.go
    rw [if_pos ⟨hacc, (h.queue.not_waiting hwaits).2⟩]
  rw [hgo]
  exact hstep order' b' a' hsee rfl

/-- Every step of a thread that is not careless keeps the simulation. -/
theorem Sim.go (hbusy : s.place t ≠ .idle) (hok : ¬ Careless s (.go t)) :
    ∃ order' b' a', Sim s₀ (s.go t (s.place t)) order' b' a' := by
  unfold Careless at hok
  cases hp : s.place t with
  | idle => exact absurd hp hbusy
  | openLookup name flags =>
    apply h.go_seen hp ⟨by simp, rfl, rfl⟩ rfl
    intro order b a hsee hun
    exact hsee.openLookup hp hun
  | openCreate path flags =>
    apply h.go_seen hp ⟨by simp, rfl, rfl⟩ rfl
    intro order b a hsee hun
    exact hsee.openCreate hp hun
  | openTruncate flags inum inode =>
    apply h.go_seen hp ⟨by simp, rfl, rfl⟩ rfl
    intro order b a hsee hun
    exact hsee.openTruncate hp hun
  | openSize flags inum inode =>
    simp only [hp, not_and, not_not] at hok
    unfold Threads.go
    split
    · obtain ⟨order', b', a', hsee⟩ := h.see
      exact hsee.openSize hp (Or.inl rfl) hok
    · rename_i hun
      simp only [Place.accesses, true_and, not_not] at hun
      exact h.openSize hp (Or.inr hun) hok
  | openClaim inum offset isAppending effect =>
    simp only [hp] at hok
    rw [Threads.go_quiet rfl]
    apply h.openClaim hp
    by_contra hc
    push Not at hc
    exact hok ⟨hc.1, hc.2.1, hc.2.2⟩
  | openFill i e =>
    rw [Threads.go_quiet rfl]
    exact h.openFill hp
  | close fhandle =>
    simp only [hp] at hok
    rw [Threads.go_quiet rfl]
    apply h.close hp
    intro i hi heq
    push Not at hok
    exact hok i hi heq
  | writeCheck fhandle buffer =>
    simp only [hp] at hok
    rw [Threads.go_quiet rfl]
    apply h.writeCheck hp
    intro i hi heq hfree
    push Not at hok
    exact hok i hi heq hfree
  | writeInumber i buffer =>
    simp only [hp, not_exists] at hok
    rw [Threads.go_quiet rfl]
    exact h.writeInumber hp hok
  | writeLocked i inode buffer =>
    apply h.go_seen hp ⟨by simp, rfl, rfl⟩ rfl
    intro order b a hsee hun
    exact hsee.writeLocked hp hun
  | readCheck fhandle len =>
    simp only [hp] at hok
    rw [Threads.go_quiet rfl]
    apply h.readCheck hp
    intro i hi heq hfree
    push Not at hok
    exact hok i hi heq hfree
  | readInumber i len =>
    simp only [hp, not_exists] at hok
    rw [Threads.go_quiet rfl]
    exact h.readInumber hp hok
  | readIsAppending i inode len =>
    rw [Threads.go_quiet rfl]
    exact h.readIsAppending hp
  | readLocked i inode len =>
    apply h.go_seen hp ⟨by simp, rfl, rfl⟩ rfl
    intro order b a hsee hun
    exact hsee.readLocked hp hun

/-- Every step that is not careless keeps the simulation. -/
theorem Sim.step {s' : Threads} {st : ThreadStep} (hok : ¬ Careless s st)
    (he : threadStep s st = some s') : ∃ order' b' a', Sim s₀ s' order' b' a' := by
  cases st with
  | call t op =>
    simp only [threadStep] at he
    split at he
    · rename_i p hidle hp
      cases he
      exact ⟨order, b, a, h.call hidle hp⟩
    · cases he
  | go t =>
    simp only [threadStep] at he
    split at he
    · cases he
    · rename_i hbusy
      cases he
      exact h.go hbusy hok

end

/-! ## Runs of a few threads -/

def ThreadStep.thread : ThreadStep → Nat
  | .call t _ => t
  | .go t => t

/-- The threads from `n` on are taken for idle. -/
def Threads.below (s : Threads) (n : Nat) : Threads :=
  { s with place := fun t => if t < n then s.place t else .idle }

theorem Threads.exists_below (s : Threads) (n : Nat) {P : Place → Prop} (hidle : ¬ P .idle) :
    (∃ t < n, P (s.place t)) ↔ ∃ t, P ((s.below n).place t) := by
  apply exists_congr
  intro t
  simp only [Threads.below]
  by_cases ht : t < n
  · simp [ht]
  · simp [ht, hidle]

instance (s : Threads) (n i : Nat) : Decidable (∃ t, ((s.below n).place t).fills = some i) :=
  decidable_of_iff _ (s.exists_below n (P := fun p => p.fills = some i) (by simp [Place.fills]))

instance (s : Threads) (n i : Nat) :
    Decidable (∃ t, ((s.below n).place t).uses = some i ∨ ((s.below n).place t).fills = some i) :=
  decidable_of_iff _ (s.exists_below n (P := fun p => p.uses = some i ∨ p.fills = some i)
    (by simp [Place.uses, Place.fills]))

/-- With so few threads, a careless step can be told. -/
instance (s : Threads) (n : Nat) : (a : ThreadStep) → Decidable (Careless (s.below n) a)
  | .call _ _ => inferInstanceAs (Decidable False)
  | .go t =>
    match hp : (s.below n).place t with
    | .openSize flags _ inode =>
      decidable_of_iff (hasFlag flags TFS_O_TRUNC = true ∧
        ((s.below n).fs.disk.inode_table inode).i_size ≠ 0) (by simp only [Careless, hp])
    | .openClaim _ _ _ _ =>
      decidable_of_iff ((s.below n).waiting ≠ [] ∧ (s.below n).waiting.head? ≠ some t ∧
        ∃ i < MAX_OPEN_FILES, (s.below n).fs.free_open_file_entries i = .FREE)
        (by simp only [Careless, hp])
    | .close fhandle =>
      decidable_of_iff (∃ i < MAX_OPEN_FILES, fhandle = i ∧
        (freeBelow (s.below n).fs i < (s.below n).waiting.length ∨
          ∃ t', ((s.below n).place t').uses = some i ∨ ((s.below n).place t').fills = some i))
        (by simp only [Careless, hp])
    | .writeCheck fhandle _ | .readCheck fhandle _ =>
      decidable_of_iff (∃ i < MAX_OPEN_FILES, fhandle = i ∧
        (s.below n).fs.free_open_file_entries i = .FREE ∧
          freeBelow (s.below n).fs i < (s.below n).waiting.length) (by simp only [Careless, hp])
    | .writeInumber i _ | .readInumber i _ =>
      decidable_of_iff (∃ t', ((s.below n).place t').fills = some i) (by simp only [Careless, hp])
    | .idle | .openLookup _ _ | .openCreate _ _ | .openTruncate _ _ _ | .openFill _ _
    | .writeLocked _ _ _ | .readIsAppending _ _ _ | .readLocked _ _ _ =>
      isFalse (by simp only [Careless, hp, not_false_eq_true])

/-- The threads from `n` on are idle. -/
def IdleFrom (n : Nat) (s : Threads) : Prop := ∀ t, n ≤ t → s.place t = .idle

theorem IdleFrom.below {n : Nat} {s : Threads} (h : IdleFrom n s) : s.below n = s := by
  have hplace : (fun t => if t < n then s.place t else .idle) = s.place := by
    funext t
    split
    · rfl
    · exact (h t (by omega)).symm
  unfold Threads.below
  rw [hplace]

theorem threadStep_place {s s' : Threads} {a : ThreadStep} (he : threadStep s a = some s') {t : Nat}
    (ht : t ≠ a.thread) : s'.place t = s.place t := by
  cases a with
  | call u op =>
    simp only [threadStep] at he
    split at he <;> cases he
    exact Function.update_of_ne ht ..
  | go u =>
    have hafter : ∀ (s : Threads) r, (s.after u r).place t = s.place t := by
      rintro s ⟨p | b, fs⟩ <;> exact Function.update_of_ne ht ..
    simp only [threadStep] at he
    split at he <;> cases he
    unfold Threads.go
    rw [hafter]
    split <;> rfl

theorem IdleFrom.step {n : Nat} {s s' : Threads} (h : IdleFrom n s) {a : ThreadStep}
    (ha : a.thread < n) (he : threadStep s a = some s') : IdleFrom n s' := by
  intro t ht
  rw [threadStep_place he (by omega)]
  exact h t ht

/-- A run of the threads below `n`. -/
theorem meets_of_below {n : Nat} {fs : State} {as : List ThreadStep}
    {P : Threads → ThreadStep → Prop}
    (hm : steps.Meets threadStep (fun s a => a.thread < n ∧ ¬ Careless (s.below n) a ∧ P s a)
      (atRest fs) as) :
    steps.Meets threadStep (fun s a => ¬ Careless s a ∧ P s a) (atRest fs) as := by
  refine hm.mono (I := IdleFrom n) (fun _ _ _ h hok he => h.step hok.1 he) (fun s a h hok => ?_)
    fun _ _ => rfl
  have hcareful := hok.2.1
  rw [h.below] at hcareful
  exact ⟨hcareful, hok.2.2⟩

/-! ## The law of the threads -/

/-- The bytes of the file with this name. There are as many as its size says. -/
def contentsOf (d : Disk) (path : CString) : Option (List UInt8) :=
  let inum := tfsLookup d path
  if 0 ≤ inum then
    some (fileLoad BLOCK_SIZE (blocksOf d inum.toNat) d.fs_data 0
      (d.inode_table inum.toNat).i_size)
  else none

/-- The files have the same contents, and the open handles the same inode, offset and mode. -/
structure SameOutcome (s s' : State) : Prop where
  contents : ∀ path, contentsOf s'.disk path = contentsOf s.disk path
  handles : ∀ fhandle, getOpenFileEntry s' fhandle = getOpenFileEntry s fhandle
  entries : ∀ fhandle, ∀ i ∈ getOpenFileEntry s fhandle,
    s'.open_file_table i = s.open_file_table i

/-- The calls have an order in which they give their answers one after the other. If all of them
have ended, then the outcome is that of the order, too. -/
def Linearizable (fs : State) (s : Threads) : Prop :=
  ∃ order s', Linearization exec fs s.history.calls order s' ∧
    ((∀ x ∈ s.history.calls, x.finish.isSome = true) → SameOutcome s' s.fs)

theorem atRest_sim {fs : State} (h : Inv fs) : Sim fs (atRest fs) [] fs fs where
  lin := .first fs
  inv := h
  filled := ⟨rfl, fun _ _ => rfl, fun _ _ _ ht => (by cases ht), fun _ _ _ ht => (by cases ht)⟩
  queue := ⟨List.nodup_nil, fun t => (by simp [atRest, Place.waits]),
    fun t ht => (by cases ht)⟩
  calls := ⟨fun _ _ ht => absurd rfl ht, fun _ ht => absurd rfl ht, fun _ ht => absurd rfl ht,
    fun _ _ ht => by cases ht⟩
  state := rfl
  answers := .nil
  seen := fun _ => rfl
  unseen := fun _ ht => by cases ht

/-- When all calls have ended, the file system is the sequential state. -/
theorem Sim.ended {s₀ : State} {s : Threads} {order : List (Nat × Answer)} {b a : State}
    (h : Sim s₀ s order b a) (hall : ∀ x ∈ s.history.calls, x.finish.isSome = true) : a = s.fs := by
  have hidle : ∀ t, s.place t = .idle := by
    intro t
    by_contra hbusy
    obtain ⟨x, hx, hxf, _⟩ := h.calls.known t hbusy
    have := hall x (List.mem_of_getElem? hx)
    rw [hxf] at this
    cases this
  have hno : ∀ t, t ∉ s.waiting ∧ s.unseen ≠ some t := fun t =>
    h.queue.not_waiting (by rw [hidle t]; rfl)
  have hwait : s.waiting = [] := List.eq_nil_iff_forall_not_mem.mpr fun t => (hno t).1
  have hun : s.unseen = none := Option.eq_none_iff_forall_ne_some.mpr fun t => (hno t).2
  have hab : a = b := by
    rw [h.state, Threads.entries, hwait]
    rfl
  have htable : b.open_file_table = s.fs.open_file_table :=
    funext fun i => h.filled.table i fun t ht => by rw [hidle t] at ht; cases ht
  rw [hab]
  exact State.ext (h.seen hun) htable h.filled.free

theorem Sim.linearizable {s₀ : State} {s : Threads} {order : List (Nat × Answer)} {b a : State}
    (h : Sim s₀ s order b a) : Linearizable s₀ s := by
  refine ⟨order, a, h.lin.toLinearization, fun hall => ?_⟩
  rw [h.ended hall]
  exact ⟨fun _ => rfl, fun _ => rfl, fun _ _ _ => rfl⟩

/-- The calls of all threads are linearizable in every run that takes no careless step. -/
theorem calls_are_linearizable (fs : State) (h : Reachable fs) (as : List ThreadStep)
    (hm : steps.Meets threadStep (fun s a => ¬ Careless s a) (atRest fs) as) :
    steps.Always threadStep (Linearizable fs) (atRest fs) as := by
  have hsim : steps.Always threadStep (fun s => ∃ order b a, Sim fs s order b a) (atRest fs) as :=
    steps.always_of_meets (fun _ _ _ ⟨_, _, _, hs⟩ hok he => hs.step hok he)
      ⟨_, _, _, atRest_sim h.inv⟩ hm
  exact hsim.mono fun _ ⟨_, _, _, hs⟩ => hs.linearizable

/-- Thread 0 writes `/f` and opens it again. Then its open of `/g`, a write of thread 1 and a read
of thread 2 go on at the same time. -/
def overlap : List ThreadStep :=
  [.call 0 (.tfsOpen (some pathF) TFS_O_CREAT), .go 0, .go 0, .go 0, .go 0,
    .call 0 (.tfsWrite 0 [97, 98]), .go 0, .go 0, .go 0,
    .call 0 (.tfsOpen (some pathF) 0), .go 0, .go 0, .go 0,
    .call 0 (.tfsOpen (some pathG) TFS_O_CREAT), .call 1 (.tfsWrite 0 [99]), .call 2 (.tfsRead 1 8),
    .go 1, .go 2, .go 0, .go 1, .go 2, .go 0, .go 2, .go 1, .go 0, .go 2, .go 0]

/-- All calls succeed, and the read finds the byte of the write beside it. -/
theorem an_open_a_write_and_a_read_overlap :
    (steps.after threadStep (atRest (tfsInit zeroed).2) overlap).map
        (fun s => s.history.calls.map fun x => x.finish.map Prod.snd) =
      some [some ⟨0, []⟩, some ⟨2, []⟩, some ⟨1, []⟩, some ⟨2, []⟩, some ⟨1, []⟩,
        some ⟨3, [97, 98, 99]⟩] ∧
      steps.Always threadStep (Linearizable (tfsInit zeroed).2) (atRest (tfsInit zeroed).2)
        overlap := by
  refine ⟨by decide +kernel, calls_are_linearizable _ (.start ⟨zeroed, rfl⟩) _ ?_⟩
  have hcareful : steps.Meets threadStep (fun s a => ¬ Careless s a ∧ True)
      (atRest (tfsInit zeroed).2) overlap := meets_of_below (n := 3) (by decide +kernel)
  exact hcareful.mono (I := fun _ => True) (fun _ _ _ _ _ _ => trivial) (fun _ _ _ h => h.1) trivial

/-- Thread 1 has found slot 0 taken and has read its file `/f` when thread 0 closes it and opens
`/g`, which gets the same slot. -/
def staleWrite : List ThreadStep :=
  [.call 0 (.tfsOpen (some pathF) TFS_O_CREAT), .go 0, .go 0, .go 0, .go 0,
    .call 0 (.tfsWrite 0 [97, 98, 99]), .go 0, .go 0, .go 0,
    .call 1 (.tfsWrite 0 [120]), .go 1, .go 1,
    .call 0 (.tfsClose 0), .go 0,
    .call 0 (.tfsOpen (some pathG) TFS_O_CREAT), .go 0, .go 0, .go 0, .go 0,
    .go 1]

/-- What the threads have called, and when the calls began and ended. -/
def staleCalls : List (Call Op Answer) :=
  [⟨.tfsOpen (some pathF) TFS_O_CREAT, 0, some (1, ⟨0, []⟩)⟩,
    ⟨.tfsWrite 0 [97, 98, 99], 2, some (3, ⟨3, []⟩)⟩,
    ⟨.tfsWrite 0 [120], 4, some (9, ⟨1, []⟩)⟩,
    ⟨.tfsClose 0, 5, some (6, ⟨0, []⟩)⟩,
    ⟨.tfsOpen (some pathG) TFS_O_CREAT, 7, some (8, ⟨0, []⟩)⟩]

theorem no_order_of_staleCalls : ∀ order ∈ (answers staleCalls).permutations',
    RealTime staleCalls order → ∀ s ∈ replay exec staleCalls (tfsInit zeroed).2 order,
      contentsOf s.disk pathF ≠ some [120, 98, 99] := by
  decide +kernel

/-- The write goes to the old file, at the offset of the new handle, and moves that offset. -/
theorem a_stale_write_is_not_linearizable :
    ∃ s, steps.after threadStep (atRest (tfsInit zeroed).2) staleWrite = some s ∧
      contentsOf s.fs.disk pathF = some [120, 98, 99] ∧ s.fs.open_file_table 0 = ⟨2, 1, false⟩ ∧
      ¬ Linearizable (tfsInit zeroed).2 s := by
  have hrun : (steps.after threadStep (atRest (tfsInit zeroed).2) staleWrite).map (fun s =>
      (s.history.calls, contentsOf s.fs.disk pathF, s.fs.open_file_table 0)) =
        some (staleCalls, some [120, 98, 99], ⟨2, 1, false⟩) := by
    decide +kernel
  obtain ⟨s, hs, hout⟩ := Option.map_eq_some_iff.mp hrun
  obtain ⟨hcalls, hout⟩ := Prod.mk.inj hout
  obtain ⟨hfile, hentry⟩ := Prod.mk.inj hout
  refine ⟨s, hs, hfile, hentry, ?_⟩
  rintro ⟨order, s', hlin, hsame⟩
  rw [hcalls] at hlin hsame
  have hall : ∀ x ∈ staleCalls, x.finish.isSome = true := by decide
  have hperm := List.mem_permutations'.mpr (hlin.perm hall)
  apply no_order_of_staleCalls order hperm hlin.realTime s' hlin.run
  rw [← (hsame hall).contents, hfile]

end tecnicofs.parte1
