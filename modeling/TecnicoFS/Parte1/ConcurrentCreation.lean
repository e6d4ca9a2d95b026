-- Any number of threads that open and look up short names. A lookup without a lock may meet an
-- entry at any moment of its creation, and still no name is ever listed twice, and whoever finds
-- a name finds its inode.
import TecnicoFS.Parte1.CreationSteps

open lock_order

namespace tecnicofs.parte1

/-! ## All threads -/

/-- The call of a thread and its place there. A call that has returned is at its return. -/
def LockPlace.here : LockPlace → Option (ThreadCall × OpPlace)
  | .outside last => last.map fun x => (x.1, .ret x.2)
  | .copyCheck _ _ => none
  | .inside call _ p => some (call, p)

def LockPlace.ending (p : LockPlace) : Option Nat := p.here.bind fun x => x.2.ending

def LockPlace.slot (p : LockPlace) : Option Nat := p.here.bind fun x => x.1.slot x.2

/-- The thread runs no copy, and where it is, its place is right. -/
structure LockPlace.Ok (s : State) (p : LockPlace) : Prop where
  program : ∀ call caller q, p = .inside call caller q → caller = .program
  no_copy : ∀ source_path destOpens, p ≠ .copyCheck source_path destOpens
  here : ∀ call q, p.here = some (call, q) →
    ∃ path, ShortPath path ∧ call.path = some path ∧ q.Ok s call path

/-- The invariant of the threads. -/
structure CreationInv (s : LockThreads) : Prop where
  agrees : Agrees LockPlace.held s
  orderly : Orderly s.data.disk fun k => ∃ t, (s.place t).ending = some k
  ok : ∀ t, (s.place t).Ok s.data
  taken : ∀ t i, (s.place t).slot = some i → s.data.free_open_file_entries i = .TAKEN
  alone : ∀ t u i, (s.place t).slot = some i → (s.place u).slot = some i → t = u

theorem LockPlace.held_of_here {p : LockPlace} {call : ThreadCall} {q : OpPlace}
    (h : p.here = some (call, q)) : p.held = q.held := by
  cases p with
  | outside last =>
    rcases last with _ | ⟨call', a⟩
    · cases h
    · cases h
      rfl
  | copyCheck source_path destOpens => cases h
  | inside call' caller p =>
    cases h
    rfl

/-- The rest of a place that is right, in a call of the program. -/
theorem LockPlace.Ok.inside {s : State} {call : ThreadCall} {path : CString} {q : OpPlace}
    (hs : ShortPath path) (hp : call.path = some path) (hq : q.Ok s call path) :
    (LockPlace.inside call .program q).Ok s where
  program := by
    intro call' caller q' he
    cases he
    rfl
  no_copy := by simp
  here := by
    intro call' q' he
    cases he
    exact ⟨path, hs, hp, hq⟩

theorem LockPlace.Ok.returned {s : State} {call : ThreadCall} {path : CString} {a : Answer}
    (hs : ShortPath path) (hp : call.path = some path) (hq : (OpPlace.ret a).Ok s call path) :
    (LockPlace.outside (some (call, a))).Ok s where
  program := by simp
  no_copy := by simp
  here := by
    intro call' q' he
    cases he
    exact ⟨path, hs, hp, hq⟩

section
variable {s s' : LockThreads} {t : Nat}

/-- Only one thread is under `newFileMutex`. -/
theorem CreationInv.creating_alone (h : CreationInv s) {u : Nat} {call call' : ThreadCall}
    {p q : OpPlace} (ht : (s.place t).here = some (call, p)) (hp : p.Creating)
    (hu : (s.place u).here = some (call', q)) (hq : q.Creating) : u = t := by
  unfold OpPlace.Creating at hp hq
  rw [← LockPlace.held_of_here ht] at hp
  rw [← LockPlace.held_of_here hu] at hq
  exact h.agrees.exclusive hp hq

theorem LockPlace.ending_eq {p : LockPlace} {k : Nat} :
    p.ending = some k ↔ ∃ call q, p.here = some (call, q) ∧ q.ending = some k := by
  unfold ending
  rw [Option.bind_eq_some_iff]
  simp

theorem LockPlace.ending_of_here {p : LockPlace} {call : ThreadCall} {q : OpPlace}
    (h : p.here = some (call, q)) : p.ending = q.ending := by
  unfold ending
  rw [h, Option.bind_some]

theorem LockPlace.slot_of_here {p : LockPlace} {call : ThreadCall} {q : OpPlace}
    (h : p.here = some (call, q)) : p.slot = call.slot q := by
  unfold slot
  rw [h, Option.bind_some]

/-- A step of thread `t` in its call. -/
structure Moves (s s' : LockThreads) (t : Nat) (call : ThreadCall) (path : CString)
    (p q : OpPlace) : Prop where
  here : (s.place t).here = some (call, p)
  there : (s'.place t).here = some (call, q)
  others : ∀ u, u ≠ t → s'.place u = s.place u
  ok : (s'.place t).Ok s'.data
  effect : Effect s.data s'.data call path p q

/-- The only entry that can wait for its terminator is the one of the thread under
`newFileMutex`. -/
theorem CreationInv.ending_here (h : CreationInv s) {call : ThreadCall} {p : OpPlace}
    (ht : (s.place t).here = some (call, p)) (hp : p.Creating) (k : Nat)
    (hk : ∃ u, (s.place u).ending = some k) : p.ending = some k := by
  obtain ⟨u, hu⟩ := hk
  obtain ⟨call', q, hq, hqk⟩ := LockPlace.ending_eq.mp hu
  obtain rfl := h.creating_alone ht hp hq (OpPlace.creating_of_ending hqk)
  rw [ht] at hq
  cases hq
  exact hqk

theorem CreationInv.slot_here (h : CreationInv s) {call : ThreadCall} {p : OpPlace}
    (ht : (s.place t).here = some (call, p)) (i : Nat) (hi : call.slot p = some i) :
    s.data.free_open_file_entries i = .TAKEN :=
  h.taken t i ((LockPlace.slot_of_here ht).trans hi)

/-- Where a thread has moved in its call. -/
theorem Moves.inside {x : State} {holders : Lock → List (Nat × Mode)} {call : ThreadCall}
    {path : CString} {p q : OpPlace} (hs : ShortPath path) (hpath : call.path = some path)
    (ht : (s.place t).here = some (call, p)) (he : Effect s.data x call path p q) :
    Moves s ⟨x, Function.update s.place t (.inside call .program q), holders⟩ t call path p q where
  here := ht
  there := by simp only [Function.update_self, LockPlace.here]
  others := fun u hu => Function.update_of_ne hu ..
  ok := by
    simp only [Function.update_self]
    exact .inside hs hpath he.ok
  effect := he

theorem CreationInv.moves (h : CreationInv s) (he : turn creations s (.go t) = some s') :
    ∃ call path p q, Moves s s' t call path p q := by
  obtain ⟨i, hc, hex⟩ := Option.bind_eq_some_iff.mp he
  rcases hp : s.place t with last | ⟨source_path, destOpens⟩ | ⟨call, caller, p⟩
  · rw [hp] at hc
    cases hc
  · exact absurd hp ((h.ok t).no_copy _ _)
  · obtain rfl := (h.ok t).program _ _ _ hp
    have ht : (s.place t).here = some (call, p) := by
      rw [hp]
      rfl
    obtain ⟨path, hs, hpath, hok⟩ := (h.ok t).here call p ht
    have hend := h.ending_here ht
    have hslot := h.slot_here ht
    have hc' : (LockPlace.inside call .program p).code = some i := hp ▸ hc
    refine ⟨call, path, p, ?_⟩
    rcases LockPlace.inside_code call .program p with ⟨a, rfl, hcode⟩ | ⟨j, hj, hcode⟩
    · cases hcode.symm.trans hc'
      cases hex
      refine ⟨.ret a, ht, ?_, fun u hu => Function.update_of_ne hu .., ?_, ?_⟩
      · simp only [Machine.move, Function.update_self, back, LockPlace.here, Option.map_some]
      · simp only [Machine.move, Function.update_self]
        exact .returned hs hpath hok
      · exact .of_same h.orderly hend hslot hok rfl fun _ hi => hi
    · cases hcode.symm.trans hc'
      cases j with
      | lock l m next =>
        simp only [Instr.map, Machine.exec] at hex
        split at hex
        · cases hex
          exact ⟨next, .inside hs hpath ht (hok.lock h.orderly hend hslot hj)⟩
        · cases hex
      | unlock l next =>
        simp only [Instr.map, Machine.exec] at hex
        split at hex
        · cases hex
          exact ⟨next, .inside hs hpath ht (hok.unlock h.orderly hend hslot hj)⟩
        · cases hex
      | run f =>
        cases hex
        exact ⟨_, .inside hs hpath ht (hok.run h.orderly hend hslot hs hj)⟩

/-- What a step of `t` leaves to a thread that stands elsewhere. -/
theorem CreationInv.respects (h : CreationInv s) {call call' : ThreadCall} {path : CString}
    {p q p' : OpPlace} (hm : Moves s s' t call path p q) {u : Nat} (hu : u ≠ t)
    (hu' : (s.place u).here = some (call', p')) : Respects s.data s'.data call' p' where
  grows := hm.effect.grows
  root := hm.effect.root
  table := by
    intro i hi
    apply hm.effect.table
    intro hti
    exact hu (h.alone u t i ((LockPlace.slot_of_here hu').trans hi)
      ((LockPlace.slot_of_here hm.here).trans hti))
  creating := by
    intro hc
    apply hm.effect.quiet
    intro ht
    exact hu (h.creating_alone hm.here ht hu' hc)

/-- A slot is claimed while it is free. -/
theorem CreationInv.slot_new (h : CreationInv s) {call : ThreadCall} {path : CString}
    {p q : OpPlace} (hm : Moves s s' t call path p q) {u i : Nat}
    (ht : (s'.place t).slot = some i) (hu : (s'.place u).slot = some i) : u = t := by
  by_contra hne
  rw [hm.others u hne] at hu
  rw [LockPlace.slot_of_here hm.there] at ht
  rcases hm.effect.slots i ht with hi | hfree
  · exact hne (h.alone u t i hu ((LockPlace.slot_of_here hm.here).trans hi))
  · have := h.taken u i hu
    rw [hfree] at this
    cases this

theorem CreationInv.of_moves (h : CreationInv s) {call : ThreadCall} {path : CString}
    {p q : OpPlace} (hm : Moves s s' t call path p q) (ha : Agrees LockPlace.held s') :
    CreationInv s' where
  agrees := ha
  orderly := by
    by_cases hc : p.Creating
    · exact (hm.effect.orderly hc).mono fun k hk =>
        ⟨t, (LockPlace.ending_of_here hm.there).trans hk⟩
    · obtain ⟨hf, hd⟩ := hm.effect.quiet hc
      have hsame := (h.orderly.of_dirSame hd (by rw [hf.1]) (hf.2 _)
        fun _ f _ _ hff => (hf.fileInode f).mpr hff).1
      apply hsame.mono
      intro k hk
      obtain ⟨u, hu⟩ := hk
      have hut : u ≠ t := by
        rintro rfl
        rw [LockPlace.ending_of_here hm.here] at hu
        exact hc (OpPlace.creating_of_ending hu)
      exact ⟨u, by rw [hm.others u hut, hu]⟩
  ok := by
    intro u
    by_cases hu : u = t
    · rw [hu]
      exact hm.ok
    · rw [hm.others u hu]
      refine ⟨(h.ok u).program, (h.ok u).no_copy, fun call' p' hp' => ?_⟩
      obtain ⟨path', hs, hpath, hok⟩ := (h.ok u).here call' p' hp'
      exact ⟨path', hs, hpath, hok.kept hs (h.respects hm hu hp')⟩
  taken := by
    intro u i hu
    by_cases hut : u = t
    · rw [hut, LockPlace.slot_of_here hm.there] at hu
      exact hm.effect.taken i (Or.inr hu)
    · rw [hm.others u hut] at hu
      exact hm.effect.taken i (Or.inl (h.taken u i hu))
  alone := by
    intro u v i hu hv
    by_cases hut : u = t
    · rw [hut] at hu ⊢
      exact (h.slot_new hm hu hv).symm
    · by_cases hvt : v = t
      · rw [hvt] at hv ⊢
        exact h.slot_new hm hv hu
      · rw [hm.others u hut] at hu
        rw [hm.others v hvt] at hv
        exact h.alone u v i hu hv

/-! ## New calls -/

/-- The place at which a call begins. -/
def CreationCall.first : CreationCall → OpPlace
  | .tfsOpen path flags _ => .openCheck (some path) flags
  | .tfsLookup path _ => .find path .answer

theorem CreationCall.entry_eq (c : CreationCall) : creations.entry c =
    .inside c.call .program c.first := by
  cases c <;> rfl

theorem CreationCall.first_plain (c : CreationCall) :
    c.call.slot c.first = none ∧ c.first.ending = none := by
  cases c <;> exact ⟨rfl, rfl⟩

theorem CreationCall.first_ok (x : State) (c : CreationCall) :
    ((LockPlace.inside c.call .program c.first)).Ok x := by
  cases c with
  | tfsOpen path flags short => exact .inside short rfl ⟨rfl, rfl⟩
  | tfsLookup path short =>
    exact .inside short rfl ⟨rfl, by simp [CreationCall.call, ThreadCall.isLookup]⟩

theorem CreationInv.entered (h : CreationInv s) {last : Option (ThreadCall × Answer)}
    (ht : s.place t = .outside last) (c : CreationCall)
    (ha : Agrees LockPlace.held (s.move t (creations.entry c))) :
    CreationInv (s.move t (creations.entry c)) := by
  have hself : (s.move t (creations.entry c)).place t = .inside c.call .program c.first := by
    rw [c.entry_eq]
    exact Function.update_self ..
  have hother : ∀ u, u ≠ t → (s.move t (creations.entry c)).place u = s.place u :=
    fun u hu => Function.update_of_ne hu ..
  have hslot : ∀ u i, ((s.move t (creations.entry c)).place u).slot = some i →
      (s.place u).slot = some i := by
    intro u i hu
    by_cases hut : u = t
    · rw [hut, hself] at hu
      exact absurd (c.first_plain.1.symm.trans hu) (by simp)
    · rw [← hother u hut]
      exact hu
  exact
    { agrees := ha
      orderly := h.orderly.mono fun k hk => by
        obtain ⟨u, hu⟩ := hk
        have hut : u ≠ t := by
          rintro rfl
          rw [ht] at hu
          rcases last with _ | x <;> cases hu
        exact ⟨u, by rw [hother u hut, hu]⟩
      ok := fun u => by
        by_cases hut : u = t
        · rw [hut, hself]
          exact c.first_ok s.data
        · rw [hother u hut]
          exact h.ok u
      taken := fun u i hu => h.taken u i (hslot u i hu)
      alone := fun u v i hu hv => h.alone u v i (hslot u i hu) (hslot v i hv) }

theorem CreationInv.turn (h : CreationInv s) {a : Action Nat CreationCall}
    (he : turn creations s a = some s') :
    CreationInv s' ∧ Grows s.data.disk s'.data.disk := by
  have ha := h.agrees.turn creations_ordered he
  cases a with
  | go t =>
    obtain ⟨_, _, _, _, hm⟩ := h.moves he
    exact ⟨h.of_moves hm ha, hm.effect.grows⟩
  | call t c =>
    simp only [lock_order.turn] at he
    split at he
    · rename_i hc
      rcases hp : s.place t with last | ⟨source_path, destOpens⟩ | ⟨call, caller, p⟩
      · cases he
        exact ⟨h.entered hp c ha, .refl _⟩
      · exact absurd hp ((h.ok t).no_copy _ _)
      · rw [hp] at hc
        rcases LockPlace.inside_code call caller p with ⟨a, _, hcode⟩ | ⟨i, _, hcode⟩
        · cases hcode.symm.trans hc
        · cases hcode.symm.trans hc
    · cases he

/-! ## Every run -/

/-- A state before the first call: `tfs_init`, and then any calls one after the other whose names
are short. -/
structure CreationStart (s : LockThreads) : Prop where
  outside : ∀ t, s.place t = .outside none
  unlocked : ∀ l, s.holders l = []
  files : ∃ start ops, Initial start ∧ runs.Meets exec (fun _ op => ShortName op) start ops ∧
    s.data = afterCalls start ops

theorem CreationStart.inv (h : CreationStart s) : CreationInv s where
  agrees := by
    refine Machine.AtRest.agrees creations_ordered ⟨fun t => ?_, h.unlocked⟩
    rw [h.outside t]
    rfl
  orderly := by
    obtain ⟨start, ops, hstart, hm, he⟩ := h.files
    obtain ⟨hn, hd⟩ := (hstart.names_run hm).last
    rw [he]
    exact
      { root_taken := hn.inv.disk.root_taken
        root_dir := hn.inv.disk.root_dir
        root_block := hn.inv.disk.dataBlockGet_root
        entry_file := fun k hk => hn.inv.disk.dir.entry_file k hk.1 hk.2
        distinct := hd
        terminated := fun k hk _ => hn.terminated k hk }
  ok := by
    intro t
    rw [h.outside t]
    exact ⟨by simp, by simp, by simp [LockPlace.here]⟩
  taken := by
    intro t i hi
    rw [h.outside t] at hi
    cases hi
  alone := by
    intro t u i hi
    rw [h.outside t] at hi
    cases hi

/-! ## The laws of the creations -/

/-- The number that an open goes on with: the one it has looked up, or the one of its new file. -/
def OpPlace.found : OpPlace → Option Int
  | .truncLock _ inum _ => some inum
  | .truncRun _ inum _ => some inum
  | .openSize inum _ => some inum
  | .claimLock e => some e.of_inumber
  | .claimRun e => some e.of_inumber
  | .fillLock _ e => some e.of_inumber
  | .fillRun _ e => some e.of_inumber
  | .unlock _ _ next => next.found
  | _ => none

/-- The path of a lookup or of an open, and the inode that it has found: a lookup has returned it,
an open goes on with it, or has returned a handle for it. -/
def foundBy (s : LockThreads) (t : Nat) : Option (CString × Int) :=
  match s.place t with
  | .outside (some (.tfsLookup path, a)) => if 0 ≤ a.ret then some (path, a.ret) else none
  | .outside (some (.op (.tfsOpen (some path) _), a)) =>
    if 0 ≤ a.ret then some (path, (s.data.open_file_table a.ret.toNat).of_inumber) else none
  | .inside (.op (.tfsOpen (some path) _)) _ p => p.found.map fun inum => (path, inum)
  | _ => none

/-- What holds in every state: no name is listed twice, and what a thread has found for a name is
the file in the entry with this name. -/
structure CreationLaws (s : LockThreads) : Prop where
  distinct : DistinctNames s.data.disk
  found : ∀ t path inum, foundBy s t = some (path, inum) →
    Known s.data.disk path.skip.chars inum

/-- Two threads that have found the same name, now or later, have found the same inode. -/
def SameInode (s s' : LockThreads) : Prop :=
  ∀ t u path path' inum inum', foundBy s t = some (path, inum) →
    foundBy s' u = some (path', inum') → path.skip.chars = path'.skip.chars → inum = inum'

theorem OpPlace.Ok.found {x : State} {call : ThreadCall} {path : CString} {p : OpPlace}
    (h : p.Ok x call path) {inum : Int} (hf : p.found = some inum) :
    Known x.disk path.skip.chars inum := by
  induction p with
  | unlock l m next ih => exact ih h hf
  | _ =>
    cases hf
    try exact h.2

theorem CreationInv.found (h : CreationInv s) {path : CString} {inum : Int}
    (hf : foundBy s t = some (path, inum)) :
    ShortPath path ∧ Known s.data.disk path.skip.chars inum := by
  have hok := (h.ok t).here
  unfold foundBy at hf
  split at hf
  · rename_i path' a hp
    rw [hp] at hok
    obtain ⟨_, hs, hpath, hq⟩ := hok _ _ rfl
    cases hpath
    split_ifs at hf with h0
    cases hf
    exact ⟨hs, hq h0⟩
  · rename_i path' flags a hp
    rw [hp] at hok
    obtain ⟨_, hs, hpath, hq⟩ := hok _ _ rfl
    cases hpath
    split_ifs at hf with h0
    cases hf
    exact ⟨hs, hq h0⟩
  · rename_i path' flags caller p hp
    rw [hp] at hok
    obtain ⟨_, hs, hpath, hq⟩ := hok _ _ rfl
    cases hpath
    obtain ⟨inum', hi, he⟩ := Option.map_eq_some_iff.mp hf
    cases he
    exact ⟨hs, hq.found hi⟩
  · cases hf

end

theorem CreationInv.of_reachable {s : LockThreads}
    (hs : steps.Reachable (lock_order.turn creations) CreationStart s) : CreationInv s :=
  hs.invariant (fun _ h => h.inv) fun _ _ _ h he => (h.turn he).1

/-- Whatever short names the threads open and look up, in whatever order: no name is listed twice,
each name that is found is found in its entry, and everybody who finds it finds the same inode. -/
theorem a_short_name_is_created_once {s : LockThreads}
    (hs : steps.Reachable (turn creations) CreationStart s) :
    CreationLaws s ∧
      ∀ as s', steps.after (turn creations) s as = some s' → SameInode s s' := by
  have h := CreationInv.of_reachable hs
  refine ⟨⟨h.orderly.distinct, fun t path inum hf => (h.found hf).2⟩, ?_⟩
  intro as s' he t u path path' inum inum' hf hf' hname
  obtain ⟨h', hgrows⟩ := steps.after_related
    (R := fun x y : LockThreads => Grows x.data.disk y.data.disk)
    (fun x => .refl x.data.disk) (fun _ _ _ hxy hyz name inum hlen hk =>
      hyz name inum hlen (hxy name inum hlen hk)) (fun _ _ _ hx hxy => hx.turn hxy) h he
  obtain ⟨hshort, hknown⟩ := h.found hf
  have hknown' := (h'.found hf').2
  rw [← hname] at hknown'
  exact h'.orderly.unique (hgrows _ _ hshort.length_lt hknown) hknown'

/-! ## A lookup in the middle of a creation -/

theorem pathF_short : ShortPath pathF := ⟨by decide, by decide⟩

/-- Two threads look for `/f` in vain. The first one creates it, up to the terminator of its entry,
and a third one looks it up. -/
def beforeTheEnd : List (Action Nat CreationCall) :=
  [.call 0 (.tfsOpen pathF TFS_O_CREAT pathF_short),
    .call 1 (.tfsOpen pathF TFS_O_CREAT pathF_short)] ++
    List.replicate 26 (.go 0) ++ List.replicate 26 (.go 1) ++ List.replicate 30 (.go 0) ++
    [.call 2 (.tfsLookup pathF pathF_short)] ++ List.replicate 3 (.go 2)

/-- Both opens go on to their handles. -/
def afterTheEnd : List (Action Nat CreationCall) :=
  List.replicate 9 (.go 0) ++ List.replicate 11 (.go 1)

theorem beforeTheEnd_possible :
    (steps.after (turn creations) quiet beforeTheEnd).isSome = true := by
  decide +kernel

theorem afterTheEnd_possible :
    (steps.after (turn creations) (Option.get _ beforeTheEnd_possible) afterTheEnd).isSome =
      true := by
  decide +kernel

theorem quiet_creationStart : CreationStart quiet where
  outside := fun _ => rfl
  unlocked := fun _ => rfl
  files := ⟨_, [], ⟨zeroed, rfl⟩, trivial, rfl⟩

/-- The lookup finds the file, and so does the second open. -/
theorem a_lookup_finds_an_unterminated_entry :
    ∃ s s', steps.after (turn creations) quiet beforeTheEnd = some s ∧
      steps.after (turn creations) s afterTheEnd = some s' ∧
      foundBy s 2 = some (pathF, 1) ∧ foundBy s' 1 = some (pathF, 1) ∧
      CreationLaws s ∧ SameInode s s' := by
  have he := (Option.some_get beforeTheEnd_possible).symm
  have he' := (Option.some_get afterTheEnd_possible).symm
  obtain ⟨hlaws, hsame⟩ :=
    a_short_name_is_created_once ((steps.Reachable.start quiet_creationStart).after he)
  exact ⟨_, _, he, he', by decide +kernel, by decide +kernel, hlaws, hsame _ _ he'⟩

end tecnicofs.parte1
