-- No thread waits for ever. The lock of an inode is taken before the mutex of an entry, and this
-- one before `allocBlock`; the other mutexes are held alone.
import TecnicoFS.Parte1.Invariant
import TecnicoFS.Parte1.Locks

open lock_order

namespace tecnicofs.parte1

/-- The order in which the locks are taken. -/
def Lock.rank : Lock → Nat
  | .newFileMutex => 0
  | .addFileEntryMutex => 0
  | .rwlock _ => 0
  | .fileEntryMutex _ => 1
  | .allocBlock => 2

/-- The locks of `tfs_write` and `tfs_read`. -/
def bothLocks (i inode : Nat) (m : Mode) : List (Lock × Mode) :=
  [(.fileEntryMutex i, .exclusive), (.rwlock inode, m)]

/-- The locks that a thread holds at a place. -/
def OpPlace.held : OpPlace → List (Lock × Mode)
  | .find _ (.create _) => [(.newFileMutex, .exclusive)]
  | .scan _ _ _ (.create _) => [(.newFileMutex, .exclusive)]
  | .newInode _ => [(.newFileMutex, .exclusive)]
  | .addEntry _ _ => [(.newFileMutex, .exclusive)]
  | .storeName _ _ _ _ => [(.newFileMutex, .exclusive)]
  | .storeInumber _ _ _ => [(.newFileMutex, .exclusive)]
  | .storeEnd _ _ _ => [(.newFileMutex, .exclusive)]
  | .undo _ => [(.newFileMutex, .exclusive)]
  | .truncRun _ _ inode => [(.rwlock inode, .exclusive)]
  | .claimRun _ => [(.addFileEntryMutex, .exclusive)]
  | .fillRun i _ => [(.fileEntryMutex i, .exclusive)]
  | .closeRun i => [(.fileEntryMutex i, .exclusive)]
  | .getRun i _ => [(.fileEntryMutex i, .exclusive)]
  | .entryLock _ inode use => [(.rwlock inode, use.mode)]
  | .accessRun i inode use => bothLocks i inode use.mode
  | .allocLock w _ _ _ => bothLocks w.i w.inode .exclusive
  | .allocRun w _ _ _ => (.allocBlock, .exclusive) :: bothLocks w.i w.inode .exclusive
  | .allocated w _ _ _ _ => bothLocks w.i w.inode .exclusive
  | .copyRun w => bothLocks w.i w.inode .exclusive
  | .unlock l m next => (l, m) :: next.held
  | _ => []

def LockPlace.held : LockPlace → List (Lock × Mode)
  | .inside _ _ p => p.held
  | _ => []

/-! ## What each section holds at its end -/

theorem openExisting_held (flags : BitVec 32) (inum : Int) :
    (openExisting flags inum).held = [] := by
  unfold openExisting
  split
  · rfl
  · split_ifs <;> rfl

/-- A lookup goes on with the locks that it began with. -/
theorem looked_held (path : CString) (inum : Int) (use : LookupUse) :
    (looked path inum use).held = (OpPlace.find path use).held := by
  cases use with
  | answer => rfl
  | «open» flags =>
    simp only [looked]
    split_ifs
    · exact openExisting_held _ _
    · rfl
    · rfl
  | create flags =>
    simp only [looked]
    split_ifs
    · simp only [unlockNewFile, OpPlace.held, openExisting_held]
    · rfl

theorem scan_held (path : CString) (dir_entry i : Nat) (use : LookupUse) :
    (OpPlace.scan path dir_entry i use).held = (OpPlace.find path use).held := by
  cases use <;> rfl

theorem findRun_held (d : Disk) (path : CString) (use : LookupUse) :
    (findRun d path use).held = (OpPlace.find path use).held := by
  unfold findRun
  split
  · exact looked_held _ _ _
  · split
    · exact looked_held _ _ _
    · exact scan_held _ _ _ _

theorem scanRun_held (d : Disk) (path : CString) (dir_entry i : Nat) (use : LookupUse) :
    (scanRun d path dir_entry i use).held = (OpPlace.find path use).held := by
  unfold scanRun
  split_ifs
  · exact looked_held _ _ _
  · exact scan_held _ _ _ _
  · exact looked_held _ _ _

theorem openCheckRun_held (name : Option CString) (flags : BitVec 32) :
    (openCheckRun name flags).held = [] := by
  unfold openCheckRun
  split
  · rfl
  · split_ifs <;> rfl

theorem newInodeRun_held (s : State) (path : CString) :
    (newInodeRun s path).1.held = [(.newFileMutex, .exclusive)] := by
  simp only [newInodeRun]
  split_ifs <;> rfl

theorem addEntryRun_held (d : Disk) (path : CString) (inum : Int) :
    (addEntryRun d path inum).held = [(.newFileMutex, .exclusive)] := by
  unfold addEntryRun
  split_ifs
  · rfl
  · rfl
  · rfl
  · split
    · rfl
    · split <;> rfl

theorem truncSection_held (s : State) (flags : BitVec 32) (inum : Int) (inode : Nat) :
    (truncSection s flags inum inode).1.held = [(.rwlock inode, .exclusive)] := by
  simp only [truncSection, OpPlace.held]
  split_ifs <;> rfl

theorem claimSection_held (s : State) (e : OpenFileEntry) :
    (claimSection s e).1.held = [(.addFileEntryMutex, .exclusive)] := by
  unfold claimSection
  split <;> rfl

theorem getSection_held (s : State) (i : Nat) (use : Access) :
    (getSection s i use).held = [(.fileEntryMutex i, .exclusive)] := by
  simp only [getSection, OpPlace.held]
  split_ifs <;> rfl

theorem inumberRun_held (s : State) (i : Nat) (use : Access) : (inumberRun s i use).held = [] := by
  unfold inumberRun
  split <;> rfl

/-- The loop of the allocation keeps the locks of the write, at its end too. -/
theorem allocNext_held (w : WriteVars) (blockOcc todo : Nat) :
    (allocNext w blockOcc todo).held = bothLocks w.i w.inode .exclusive := by
  cases todo with
  | zero => rfl
  | succ todo =>
    unfold allocNext
    split_ifs <;> rfl

theorem allocEnd_held (w : WriteVars) (blockOcc todo : Nat) (control : Int) :
    (allocEnd w blockOcc todo control).held = bothLocks w.i w.inode .exclusive := by
  unfold allocEnd
  split_ifs
  · rfl
  · rfl
  · exact allocNext_held _ _ _

theorem allocatedRun_held (d : Disk) (w : WriteVars) (blockOcc todo : Nat) (second : Bool)
    (b : Int) :
    (allocatedRun d w blockOcc todo second b).1.held = bothLocks w.i w.inode .exclusive := by
  have hend := allocEnd_held w blockOcc todo
  unfold allocatedRun
  split_ifs
  · exact hend _
  · exact hend 1
  · rfl
  · exact hend _
  · exact hend 0

theorem writeSection_held (s : State) (i inode : Nat) (buffer : List UInt8) :
    (writeSection s i inode buffer).1.held = bothLocks i inode .exclusive := by
  simp only [writeSection]
  split_ifs
  all_goals first
    | exact allocNext_held _ _ _
    | rfl

theorem copySection_held (s : State) (w : WriteVars) :
    (copySection s w).1.held = bothLocks w.i w.inode .exclusive := by
  simp only [copySection]
  split_ifs <;> rfl

/-! ## The order -/

theorem OpPlace.lock_order {p : OpPlace} {l : Lock} {m : Mode} {next : OpPlace}
    (h : p.code = some (.lock l m next)) :
    next.held = (l, m) :: p.held ∧ ∀ x ∈ p.held, x.1.rank < l.rank := by
  cases p with
  | accessRun i inode use => cases use <;> cases h
  | entryLock i inode use =>
    cases h
    refine ⟨rfl, fun x hx => ?_⟩
    obtain rfl := List.mem_singleton.mp hx
    exact Nat.zero_lt_one
  | allocLock w blockOcc todo second =>
    cases h
    refine ⟨rfl, fun x hx => ?_⟩
    simp only [held, bothLocks, List.mem_cons, List.not_mem_nil, or_false] at hx
    rcases hx with rfl | rfl
    · exact Nat.one_lt_two
    · exact Nat.zero_lt_two
  | _ =>
    cases h
    all_goals exact ⟨rfl, fun x hx => absurd hx List.not_mem_nil⟩

theorem OpPlace.unlock_order {p : OpPlace} {l : Lock} {next : OpPlace}
    (h : p.code = some (.unlock l next)) : ∃ m, p.held = (l, m) :: next.held := by
  cases p with
  | accessRun i inode use => cases use <;> cases h
  | unlock l m next =>
    cases h
    exact ⟨m, rfl⟩
  | _ => cases h

theorem OpPlace.run_order {p : OpPlace} {f : State → OpPlace × State} (h : p.code = some (.run f))
    (s : State) : (f s).1.held = p.held := by
  cases p with
  | find path use => cases h; exact findRun_held s.disk path use
  | scan path dir_entry i use =>
    cases h
    exact (scanRun_held s.disk path dir_entry i use).trans (scan_held path dir_entry i use).symm
  | openCheck name flags => cases h; exact openCheckRun_held name flags
  | newInode path => cases h; exact newInodeRun_held s path
  | addEntry path inum => cases h; exact addEntryRun_held s.disk path inum
  | storeName path inum dir_entry i => cases h; rfl
  | storeInumber inum dir_entry i => cases h; rfl
  | storeEnd inum dir_entry i => cases h; rfl
  | undo inum => cases h; rfl
  | truncRun flags inum inode => cases h; exact truncSection_held s flags inum inode
  | openSize inum inode => cases h; rfl
  | claimRun e => cases h; exact claimSection_held s e
  | fillRun i e => cases h; rfl
  | close fhandle => cases h; simp only; split_ifs <;> rfl
  | closeRun i => cases h; rfl
  | get fhandle use => cases h; simp only; split_ifs <;> rfl
  | getRun i use => cases h; exact getSection_held s i use
  | inumber i use => cases h; exact inumberRun_held s i use
  | readIsAppending i inode len => cases h; simp only; split_ifs <;> rfl
  | accessRun i inode use =>
    cases use with
    | write buffer => cases h; exact writeSection_held s i inode buffer
    | read len => cases h; rfl
  | allocRun w blockOcc todo second => cases h; rfl
  | allocated w blockOcc todo second b =>
    cases h
    exact allocatedRun_held s.disk w blockOcc todo second b
  | copyRun w => cases h; exact copySection_held s w
  | _ => cases h

theorem OpPlace.code_eq_none {p : OpPlace} (h : p.code = none) : ∃ a, p = .ret a := by
  cases p with
  | accessRun i inode use => cases use <;> cases h
  | ret a => exact ⟨a, rfl⟩
  | _ => cases h

/-- At every place but its end, an operation goes on by its own code. -/
theorem LockPlace.inside_code (call : ThreadCall) (caller : Caller) (p : OpPlace) :
    (∃ a, p = .ret a ∧ (inside call caller p).code = some (.run fun s => (back call caller a, s))) ∨
      ∃ i, p.code = some i ∧ (inside call caller p).code = some (i.map (inside call caller)) := by
  rcases hc : p.code with _ | i
  · obtain ⟨a, rfl⟩ := p.code_eq_none hc
    exact Or.inl ⟨a, rfl, rfl⟩
  · refine Or.inr ⟨i, rfl, ?_⟩
    have hmap : (inside call caller p).code = p.code.map (Instr.map (inside call caller)) := by
      cases p with
      | ret a => cases hc
      | _ => rfl
    rw [hmap, hc]
    rfl

theorem copyCheckRun_held (source_path : Option CString) (destOpens : Bool) :
    (copyCheckRun source_path destOpens).held = [] := by
  cases source_path with
  | none => rfl
  | some path =>
    simp only [copyCheckRun]
    split_ifs <;> rfl

theorem back_held (call : ThreadCall) (caller : Caller) (a : Answer) :
    (back call caller a).held = [] := by
  cases caller with
  | program => rfl
  | copyClose ret => rfl
  | _ =>
    simp only [back]
    split_ifs <;> rfl

theorem operations_ordered : Ordered operations LockPlace.held Lock.rank where
  outside := by
    intro p h
    cases p with
    | outside last => rfl
    | copyCheck source_path destOpens => cases h
    | inside call caller p =>
      rcases LockPlace.inside_code call caller p with ⟨a, _, hc⟩ | ⟨i, _, hc⟩
      · cases hc.symm.trans h
      · cases hc.symm.trans h
  entry := by
    intro call
    cases call with
    | op op => cases op <;> rfl
    | tfsLookup path => rfl
  lock := by
    intro p l m next h
    cases p with
    | outside last => cases h
    | copyCheck source_path destOpens => cases h
    | inside call caller p =>
      rcases LockPlace.inside_code call caller p with ⟨a, _, hc⟩ | ⟨i, hi, hc⟩
      · cases hc.symm.trans h
      · cases i <;> cases hc.symm.trans h
        exact p.lock_order hi
  unlock := by
    intro p l next h
    cases p with
    | outside last => cases h
    | copyCheck source_path destOpens => cases h
    | inside call caller p =>
      rcases LockPlace.inside_code call caller p with ⟨a, _, hc⟩ | ⟨i, hi, hc⟩
      · cases hc.symm.trans h
      · cases i <;> cases hc.symm.trans h
        exact p.unlock_order hi
  run := by
    intro p f h s
    cases p with
    | outside last => cases h
    | copyCheck source_path destOpens =>
      cases h
      exact copyCheckRun_held source_path destOpens
    | inside call caller p =>
      rcases LockPlace.inside_code call caller p with ⟨a, rfl, hc⟩ | ⟨i, hi, hc⟩
      · cases hc.symm.trans h
        exact back_held call caller a
      · cases i <;> cases hc.symm.trans h
        exact p.run_order hi s

/-! ## No deadlock -/

theorem Lock.rank_le (l : Lock) : l.rank ≤ 2 := by cases l <;> simp [rank]

/-- The thread is at the end of an operation, or outside of all. -/
def LockPlace.returned : LockPlace → Bool
  | .outside _ => true
  | .inside _ _ (.ret _) => true
  | _ => false

theorem LockPlace.held_of_returned {p : LockPlace} (h : p.returned = true) : p.held = [] := by
  cases p with
  | outside last => rfl
  | copyCheck source_path destOpens => cases h
  | inside call caller p =>
    cases p with
    | ret a => rfl
    | _ => cases h

/-- What the locks guarantee in a state: some thread inside of an operation can make its next
step, no thread waits for a lock that it holds, and nothing is held behind an operation. -/
structure NoDeadlock (s : LockThreads) : Prop where
  progress : ∀ t, (s.place t).code ≠ none →
    ∃ u, (s.place u).code ≠ none ∧ (turn operations s (.go u)).isSome = true
  never_relocks : ∀ t l m next, (s.place t).code = some (.lock l m next) →
    ∀ m', (t, m') ∉ s.holders l
  released : ∀ t, (s.place t).returned = true → ∀ l m, (t, m) ∉ s.holders l

/-- The threads never lock each other out, whatever they run and in whatever order. -/
theorem the_operations_have_no_deadlock {s : LockThreads} (hs : LockReachable s) : NoDeadlock s :=
  have h := operations_ordered.agrees hs
  { progress := fun _ ht => operations_ordered.progress Lock.rank_le h ht
    never_relocks := fun _ _ _ _ hc => operations_ordered.never_relocks h hc
    released := fun _ ht => h.released (LockPlace.held_of_returned ht) }

/-- The threads before their first calls. -/
def quiet : LockThreads := ⟨(tfsInit zeroed).2, fun _ => .outside none, fun _ => []⟩

theorem quiet_atRest : quiet.AtRest operations := ⟨fun _ => rfl, fun _ => rfl⟩

/-- Two threads create the same file, and the first one has `newFileMutex`. -/
def twoCreate : List (Action Nat ThreadCall) :=
  [.call 0 (.op (.tfsOpen (some pathF) TFS_O_CREAT)),
    .call 1 (.op (.tfsOpen (some pathF) TFS_O_CREAT))] ++
    -- the check, the first lookup, and the lock
    List.replicate 26 (.go 0) ++ List.replicate 26 (.go 1) ++ [.go 0]

theorem twoCreate_possible : (steps.after (turn operations) quiet twoCreate).isSome = true := by
  decide +kernel

/-- The second thread waits, so it is the first one that can go on. -/
theorem a_waiting_thread_does_not_stop_the_other :
    ∃ s, steps.after (turn operations) quiet twoCreate = some s ∧
      (turn operations s (.go 1)).isSome = false ∧ NoDeadlock s := by
  have he := (Option.some_get twoCreate_possible).symm
  refine ⟨_, he, by decide +kernel, ?_⟩
  exact the_operations_have_no_deadlock ((steps.Reachable.start quiet_atRest).after he)

end tecnicofs.parte1
