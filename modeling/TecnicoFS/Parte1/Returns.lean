-- Every call returns. A thread comes closer to the end of its call with each step; only a copy
-- goes round, and only for as long as it reads something, which moves the offset of its handle.
import TecnicoFS.Parte1.Limits

open lock_order

namespace tecnicofs.parte1

/-! ## The rounds that are left -/

/-- A round of the copy: a call of `tfs_read`, from its beginning to the next one. -/
abbrev roundSteps : Nat := 12

/-- The rounds that an offset can be moved for, up to the end of so many blocks. -/
def setBack (blocks : Nat) : Nat := roundSteps * (blocks * BLOCK_SIZE)

/-- The rounds that all offsets can still be moved for. -/
def roundsLeft (blocks : Nat) (s : State) : Nat :=
  roundSteps * s.offsetsLeft (blocks * BLOCK_SIZE)

theorem roundsLeft_congr (blocks : Nat) {s s' : State} (h : s'.open_file_table = s.open_file_table) :
    roundsLeft blocks s' = roundsLeft blocks s :=
  congrArg (roundSteps * ·) (offsetsLeft_congr h)

theorem roundsLeft_setBack (blocks : Nat) (s : State) (i : Nat) (e : OpenFileEntry) :
    roundsLeft blocks (fillEntry s i e) ≤ roundsLeft blocks s + setBack blocks := by
  have := offsetsLeft_setBack (blocks * BLOCK_SIZE) s i e
  unfold roundsLeft setBack roundSteps
  omega

theorem roundsLeft_forward (blocks : Nat) {s : State} {i : Nat} {e : OpenFileEntry}
    (h : (s.open_file_table i).of_offset ≤ e.of_offset) :
    roundsLeft blocks (fillEntry s i e) ≤ roundsLeft blocks s :=
  Nat.mul_le_mul_left _ (offsetsLeft_forward (blocks * BLOCK_SIZE) h)

/-! ## The steps that are left -/

/-- Behind the tenth block, the one for the numbers of the others is allocated, once. -/
def indexSteps (blockOcc : Nat) : Nat := if blockOcc ≤ 10 then 4 else 0

theorem indexSteps_le (blockOcc : Nat) : indexSteps blockOcc ≤ 4 := by
  unfold indexSteps
  split_ifs <;> omega

/-- The steps of `tfs_write` and `tfs_read` under their locks. A write that appends may set its
offset back. -/
def Access.left (blocks : Nat) : Access → Nat
  | .write _ => 4 * MAX_INODE_BLOCKS + 9 + setBack blocks
  | .read _ => 4

/-- The steps behind a lookup. The new entry begins at any offset. -/
def LookupUse.left (blocks : Nat) : LookupUse → Nat
  | .answer => 1
  | .create _ => 13 + setBack blocks
  | .open _ => 39 + setBack blocks

/-- More steps than an operation has to its end, whatever the other threads do. -/
@[simp] def OpPlace.left (blocks : Nat) : OpPlace → Nat
  | .find _ use => use.left blocks + MAX_DIR_ENTRIES + 2
  | .scan _ _ i use => use.left blocks + (MAX_DIR_ENTRIES - i) + 1
  | .openCheck _ _ => 65 + setBack blocks
  | .createLock _ _ => 39 + setBack blocks
  | .newInode _ => 13 + setBack blocks
  | .addEntry _ _ => 12 + setBack blocks
  | .storeName _ _ _ _ => 11 + setBack blocks
  | .storeInumber _ _ _ => 10 + setBack blocks
  | .storeEnd _ _ _ => 9 + setBack blocks
  | .undo _ => 3
  | .truncLock _ _ _ => 11 + setBack blocks
  | .truncRun _ _ _ => 10 + setBack blocks
  | .openSize _ _ => 8 + setBack blocks
  | .claimLock _ => 7 + setBack blocks
  | .claimRun _ => 6 + setBack blocks
  | .fillLock _ _ => 4 + setBack blocks
  | .fillRun _ _ => 3 + setBack blocks
  | .close _ => 5
  | .closeLock _ => 4
  | .closeRun _ => 3
  | .get _ use => use.left blocks + 8
  | .getLock _ use => use.left blocks + 7
  | .getRun _ use => use.left blocks + 6
  | .inumber _ use => use.left blocks + 4
  | .readIsAppending _ _ _ => 7
  | .inodeLock _ _ use => use.left blocks + 2
  | .entryLock _ _ use => use.left blocks + 1
  | .accessRun _ _ use => use.left blocks
  | .allocLock _ blockOcc todo second => 4 * todo + 8 + indexSteps (blockOcc + second.toNat)
  | .allocRun _ blockOcc todo second => 4 * todo + 7 + indexSteps (blockOcc + second.toNat)
  | .allocated _ blockOcc todo second _ => 4 * todo + 5 + indexSteps (blockOcc + second.toNat)
  | .copyRun _ => 4
  | .unlock _ _ next => next.left blocks + 1
  | .ret _ => 1

variable (blocks : Nat)

theorem openExisting_left (flags : BitVec 32) (inum : Int) :
    (openExisting flags inum).left blocks ≤ 11 + setBack blocks := by
  unfold openExisting
  split
  · simp only [OpPlace.left]
    omega
  · split_ifs
    all_goals
      simp only [OpPlace.left]
      omega

theorem looked_left (path : CString) (inum : Int) (use : LookupUse) :
    (looked path inum use).left blocks ≤ use.left blocks := by
  have hopen := openExisting_left blocks
  cases use with
  | answer => exact Nat.le_refl _
  | «open» flags =>
    have := hopen flags inum
    simp only [looked, LookupUse.left]
    split_ifs
    · omega
    · simp only [OpPlace.left, Nat.le_refl]
    · simp only [OpPlace.left]
      omega
  | create flags =>
    have := hopen flags inum
    simp only [looked, LookupUse.left]
    split_ifs
    · simp only [unlockNewFile, OpPlace.left]
      omega
    · simp only [OpPlace.left, Nat.le_refl]

theorem allocNext_left (w : WriteVars) (blockOcc todo : Nat) :
    (allocNext w blockOcc todo).left blocks ≤ 4 * todo + 4 + indexSteps blockOcc := by
  cases todo with
  | zero => exact Nat.le_add_right _ _
  | succ todo =>
    unfold allocNext
    split_ifs
    · simp only [unlockBoth, OpPlace.left]
      omega
    · simp only [OpPlace.left, Bool.toNat_false, Nat.add_zero]
      omega

theorem allocEnd_left (w : WriteVars) (blockOcc todo : Nat) (control : Int) :
    (allocEnd w blockOcc todo control).left blocks ≤ 4 * todo + 4 + indexSteps (blockOcc + 1) := by
  unfold allocEnd
  split_ifs
  · simp only [unlockBoth, OpPlace.left]
    omega
  · simp only [OpPlace.left]
    omega
  · exact allocNext_left blocks _ _ _

theorem allocatedRun_left (d : Disk) (w : WriteVars) (blockOcc todo : Nat) (second : Bool)
    (b : Int) :
    (allocatedRun d w blockOcc todo second b).1.left blocks <
      (OpPlace.allocated w blockOcc todo second b).left blocks := by
  have hend : ∀ control, (allocEnd w blockOcc todo control).left blocks <
      (OpPlace.allocated w blockOcc todo second b).left blocks := by
    intro control
    have := allocEnd_left blocks w blockOcc todo control
    have := second.toNat_le
    simp only [OpPlace.left]
    unfold indexSteps at *
    split_ifs at * <;> omega
  unfold allocatedRun
  split_ifs
  · exact hend _
  · exact hend 1
  · rename_i hfirst
    have hlast : indexSteps (10 + 1) = 0 := rfl
    have hnext : indexSteps (10 + 0) = 4 := rfl
    simp only [OpPlace.left, hfirst.1, hfirst.2, Bool.toNat_true, Bool.toNat_false, hlast, hnext]
    omega
  · exact hend _
  · exact hend 0

/-- Each step brings an operation closer to its end, or is paid for by the offsets. -/
theorem OpPlace.left_lt {p : OpPlace} {i : Instr Lock State OpPlace} (h : p.code = some i)
    (s : State) :
    (i.result s).1.left blocks + roundsLeft blocks (i.result s).2 <
      p.left blocks + roundsLeft blocks s := by
  -- a step that moves no offset
  have hstay : ∀ (q : OpPlace) (s' : State), s'.open_file_table = s.open_file_table →
      q.left blocks < p.left blocks →
      q.left blocks + roundsLeft blocks s' < p.left blocks + roundsLeft blocks s := by
    intro q s' htable hlt
    rw [roundsLeft_congr blocks htable]
    exact Nat.add_lt_add_right hlt _
  have hlooked := looked_left blocks
  cases p with
  | find path use =>
    cases h
    refine hstay (findRun s.disk path use) s rfl ?_
    have := hlooked path (-1) use
    unfold findRun
    simp only [left]
    split
    · omega
    · split
      · omega
      · simp only [left]
        omega
  | scan path dir_entry i use =>
    cases h
    refine hstay (scanRun s.disk path dir_entry i use) s rfl ?_
    have := hlooked path (-1) use
    have := hlooked path (dInumber s.disk.fs_data dir_entry i) use
    unfold scanRun
    simp only [left]
    split_ifs
    · omega
    · simp only [left]
      omega
    · omega
  | openCheck name flags =>
    cases h
    refine hstay (openCheckRun name flags) s rfl ?_
    unfold openCheckRun
    split
    · simp only [left]
      omega
    · split_ifs
      all_goals
        simp only [left, LookupUse.left, MAX_DIR_ENTRIES]
        omega
  | newInode path =>
    cases h
    refine hstay (newInodeRun s path).1 (newInodeRun s path).2 rfl ?_
    simp only [newInodeRun]
    split_ifs
    all_goals
      simp only [unlockNewFile, left]
      omega
  | addEntry path inum =>
    cases h
    refine hstay (addEntryRun s.disk path inum) s rfl ?_
    have hundo : (undo inum).left blocks < (addEntry path inum).left blocks := by
      simp only [left]
      omega
    unfold addEntryRun
    split_ifs
    · exact hundo
    · exact hundo
    · exact hundo
    · split
      · exact hundo
      · split
        · exact hundo
        · simp only [left]
          omega
  | truncRun flags inum inode =>
    cases h
    refine hstay (truncSection s flags inum inode).1 (truncSection s flags inum inode).2 rfl ?_
    simp only [truncSection]
    split_ifs
    all_goals
      simp only [left]
      omega
  | claimRun e =>
    cases h
    rcases claimSection_cases s e with he | ⟨i, _, he⟩
    all_goals
      simp only [Instr.result, he]
      refine hstay (.unlock _ _ _) _ rfl ?_
      simp only [left]
      omega
  | fillRun i e =>
    cases h
    have := roundsLeft_setBack blocks s i e
    simp only [Instr.result, left]
    omega
  | close fhandle =>
    cases h
    simp only [Instr.result]
    refine hstay _ s rfl ?_
    split_ifs
    all_goals
      simp only [left]
      omega
  | closeRun i =>
    cases h
    refine hstay (closeSection s i).1 (closeSection s i).2 ?_ (Nat.lt_succ_self 2)
    unfold closeSection removeFromOpenFileTable
    split_ifs <;> rfl
  | get fhandle use =>
    cases h
    simp only [Instr.result]
    refine hstay _ s rfl ?_
    split_ifs
    all_goals
      simp only [left]
      omega
  | getRun i use =>
    cases h
    refine hstay (getSection s i use) s rfl ?_
    simp only [getSection, left]
    split_ifs
    all_goals
      simp only [left]
      omega
  | inumber i use =>
    cases h
    refine hstay (inumberRun s i use) s rfl ?_
    unfold inumberRun
    split
    all_goals
      simp only [left, Access.left]
      omega
  | readIsAppending i inode len =>
    cases h
    simp only [Instr.result]
    refine hstay _ s rfl ?_
    split_ifs
    all_goals
      simp only [left, Access.left]
      omega
  | accessRun i inode use =>
    cases use with
    | write buffer =>
      cases h
      obtain ⟨e, next, he, hnext⟩ := writeSection_cases s i inode buffer
      have hback := roundsLeft_setBack blocks s i e
      simp only [Instr.result, he, left, Access.left]
      rcases hnext with rfl | ⟨w, blockOcc, todo, htodo, rfl⟩
      · simp only [unlockBoth, left]
        omega
      · have := allocNext_left blocks w blockOcc todo
        have := indexSteps_le blockOcc
        omega
    | read len =>
      cases h
      have hforward := roundsLeft_forward blocks (s := s) (i := i)
        (readCritical_forward s.disk (s.open_file_table i) inode len)
      simp only [Instr.result, readSection, unlockBoth, left, Access.left]
      omega
  | allocLock w blockOcc todo second =>
    cases h
    refine hstay (.allocRun w blockOcc todo second) s rfl ?_
    simp only [left]
    omega
  | allocRun w blockOcc todo second =>
    cases h
    refine hstay (.unlock _ _ (.allocated w blockOcc todo second _))
      { s with disk := (dataBlockAlloc s.disk).2 } rfl ?_
    simp only [left]
    omega
  | allocated w blockOcc todo second b =>
    cases h
    exact hstay (allocatedRun s.disk w blockOcc todo second b).1 _ rfl
      (allocatedRun_left blocks s.disk w blockOcc todo second b)
  | copyRun w =>
    cases h
    obtain ⟨a, d, _, he | ⟨file, hoff, he⟩⟩ := copySection_cases s w
    · simp only [Instr.result, he]
      exact hstay (unlockBoth w.i w.inode .exclusive a) _ rfl (Nat.lt_succ_self 3)
    · have hforward := roundsLeft_forward blocks (s := { s with disk := d }) hoff
      have hdisk : roundsLeft blocks { s with disk := d } = roundsLeft blocks s :=
        roundsLeft_congr blocks rfl
      simp only [Instr.result, he, unlockBoth, left]
      omega
  | ret a => cases h
  | _ =>
    cases h
    refine hstay (Instr.result _ s).1 (Instr.result _ s).2 rfl ?_
    simp only [Instr.result, unlockNewFile, left, LookupUse.left, MAX_DIR_ENTRIES]
    omega

/-! ## The rounds of a copy -/

/-- A call of `tfs_read` with a valid handle, of a file that exists. -/
def OpPlace.Reads : OpPlace → Prop
  | .get _ use => use.mode = .shared
  | .getLock i use => use.mode = .shared ∧ i < MAX_OPEN_FILES
  | .getRun i use => use.mode = .shared ∧ i < MAX_OPEN_FILES
  | .inumber i use => use.mode = .shared ∧ i < MAX_OPEN_FILES
  | .readIsAppending i inode _ => i < MAX_OPEN_FILES ∧ inode < INODE_TABLE_SIZE
  | .inodeLock i inode use => use.mode = .shared ∧ i < MAX_OPEN_FILES ∧ inode < INODE_TABLE_SIZE
  | .entryLock i inode use => use.mode = .shared ∧ i < MAX_OPEN_FILES ∧ inode < INODE_TABLE_SIZE
  | .accessRun i inode use => use.mode = .shared ∧ i < MAX_OPEN_FILES ∧ inode < INODE_TABLE_SIZE
  | .unlock _ _ next => next.Reads
  | .ret _ => True
  | _ => False

/-- The round that the copy makes behind a read of some bytes. -/
def OpPlace.again : OpPlace → Nat
  | .unlock _ _ next => next.again
  | .ret a => if 0 < a.ret then roundSteps else 0
  | _ => 0

theorem OpPlace.Reads.next {p : OpPlace} (hp : p.Reads) {i : Instr Lock State OpPlace}
    (h : p.code = some i) (s : State) : (i.result s).1.Reads := by
  cases p with
  | get fhandle use =>
    cases h
    simp only [Instr.result]
    split_ifs with hv
    · have hv := of_decide_eq_true hv
      refine ⟨hp, ?_⟩
      omega
    · exact trivial
  | getLock i use => cases h; exact hp
  | getRun i use =>
    cases h
    simp only [Instr.result, getSection]
    split_ifs
    · exact trivial
    · exact hp
  | inumber i use =>
    cases use with
    | write buffer => cases hp.1
    | read len =>
      cases h
      simp only [Instr.result, inumberRun, inodeGet]
      split_ifs with hv
      · have hv := of_decide_eq_true hv
        refine ⟨hp.2, ?_⟩
        omega
      · exact trivial
  | readIsAppending i inode len =>
    cases h
    simp only [Instr.result]
    split_ifs
    · exact trivial
    · exact ⟨rfl, hp⟩
  | inodeLock i inode use => cases h; exact hp
  | entryLock i inode use => cases h; exact hp
  | accessRun i inode use =>
    cases use with
    | write buffer => cases hp.1
    | read len => cases h; exact trivial
  | unlock l m next => cases h; exact hp
  | ret a => cases h
  | _ => exact hp.elim

/-- A read under its locks either returns no bytes, or moves an offset that was inside of the
blocks of its file. -/
theorem readSection_le {s : State} {i inode : Nat} (len : Nat) (hi : i < MAX_OPEN_FILES)
    (hinode : inode < INODE_TABLE_SIZE) (hfits : s.disk.inodeBlocks ≤ blocks) :
    (readSection s i inode len).1.again + roundsLeft blocks (readSection s i inode len).2 ≤
      roundsLeft blocks s := by
  generalize hr : readCritical s.disk (s.open_file_table i) inode len = r
  have hsection : readSection s i inode len =
      (unlockBoth i inode .shared ⟨r.1.1, r.1.2⟩, fillEntry s i r.2) := by
    rw [← hr]
    rfl
  have hforward := roundsLeft_forward blocks (s := s) (i := i)
    (readCritical_forward s.disk (s.open_file_table i) inode len)
  rw [hr] at hforward
  simp only [hsection, unlockBoth, OpPlace.again]
  split_ifs with hret
  · obtain ⟨hlt, hblock⟩ := readCritical_moves (hr ▸ hret)
    rw [hr] at hlt
    have hcount : (s.disk.inode_table inode).blocksAlloc ≤ s.disk.inodeBlocks :=
      blocksAlloc_le hinode
    have hfill := offsetsLeft_fillEntry (blocks * BLOCK_SIZE) s hi r.2
    have hbytes : (s.disk.inode_table inode).blocksAlloc * BLOCK_SIZE ≤ blocks * BLOCK_SIZE :=
      Nat.mul_le_mul_right _ (Nat.le_trans hcount hfits)
    unfold roundsLeft roundSteps
    omega
  · omega

/-- The same as `OpPlace.left_lt`, with the round behind a read of some bytes. -/
theorem OpPlace.Reads.again_lt {p : OpPlace} (hp : p.Reads) {i : Instr Lock State OpPlace}
    (h : p.code = some i) {s : State} (hfits : s.disk.inodeBlocks ≤ blocks) :
    (i.result s).1.left blocks + (i.result s).1.again + roundsLeft blocks (i.result s).2 <
      p.left blocks + p.again + roundsLeft blocks s := by
  have hlt := OpPlace.left_lt blocks h s
  -- no other step decides that something was read
  have hsame : (i.result s).1.again ≤ p.again →
      (i.result s).1.left blocks + (i.result s).1.again + roundsLeft blocks (i.result s).2 <
        p.left blocks + p.again + roundsLeft blocks s := by
    omega
  cases p with
  | get fhandle use =>
    cases h
    apply hsame
    simp only [Instr.result]
    split_ifs <;> exact Nat.le_refl _
  | getRun i use =>
    cases h
    apply hsame
    simp only [Instr.result, getSection]
    split_ifs <;> exact Nat.le_refl _
  | inumber i use =>
    cases h
    apply hsame
    simp only [Instr.result, inumberRun]
    split <;> exact Nat.le_refl _
  | readIsAppending i inode len =>
    cases h
    apply hsame
    simp only [Instr.result]
    split_ifs <;> exact Nat.le_refl _
  | accessRun i inode use =>
    cases use with
    | write buffer => cases hp.1
    | read len =>
      cases h
      have := readSection_le blocks len hp.2.1 hp.2.2 hfits
      have hleft : (readSection s i inode len).1.left blocks = 3 := rfl
      simp only [Instr.result, left, Access.left]
      omega
  | ret a => cases h
  | getLock i use => cases h; exact hsame (Nat.le_refl _)
  | inodeLock i inode use => cases h; exact hsame (Nat.le_refl _)
  | entryLock i inode use => cases h; exact hsame (Nat.le_refl _)
  | unlock l m next => cases h; exact hsame (Nat.le_refl _)
  | _ => exact hp.elim

/-! ## The calls -/

/-- The steps of a copy behind one of its calls. -/
def Caller.left : Caller → Nat
  | .program => 0
  | .copyLookup _ _ => 82 + setBack blocks
  | .copyOpen _ => 17
  | .copyRead _ => 5
  | .copyClose _ => 0

def Caller.again : Caller → OpPlace → Nat
  | .copyRead _, p => p.again
  | _, _ => 0

/-- More steps than a call has to its end, but for the rounds of a copy. -/
def LockPlace.left : LockPlace → Nat
  | .outside _ => 0
  | .copyCheck _ _ => 109 + setBack blocks
  | .inside _ caller p => p.left blocks + caller.left blocks + caller.again p

/-- The calls between the rounds of a copy are reads. -/
def LockPlace.Sound : LockPlace → Prop
  | .inside _ (.copyRead _) p => p.Reads
  | _ => True

theorem back_left (call : ThreadCall) (caller : Caller) (a : Answer) :
    (back call caller a).left blocks < 1 + caller.left blocks + caller.again (.ret a) := by
  cases caller with
  | program => simp [back, LockPlace.left]
  | copyLookup path destOpens =>
    simp only [back]
    split_ifs
    all_goals
      simp only [LockPlace.left, OpPlace.left, Caller.left, Caller.again]
      omega
  | copyOpen destOpens =>
    simp only [back]
    split_ifs
    all_goals
      simp only [LockPlace.left, OpPlace.left, Access.left, Caller.left, Caller.again, OpPlace.again]
      omega
  | copyRead fhandle =>
    simp only [back]
    split_ifs with hread
    all_goals
      simp only [LockPlace.left, OpPlace.left, Access.left, Caller.left, Caller.again, OpPlace.again,
        roundSteps, hread, if_true, if_false]
      omega
  | copyClose ret => simp [back, LockPlace.left]

theorem back_sound (call : ThreadCall) (caller : Caller) (a : Answer) :
    (back call caller a).Sound := by
  cases caller with
  | program => exact trivial
  | copyClose ret => exact trivial
  | _ =>
    simp only [back]
    split_ifs <;> first | exact trivial | rfl

theorem LockPlace.Sound.next {p : LockPlace} (hp : p.Sound) {i : Instr Lock State LockPlace}
    (h : p.code = some i) (s : State) : (i.result s).1.Sound := by
  cases p with
  | outside last => cases h
  | copyCheck source_path destOpens =>
    cases h
    simp only [Instr.result, copyCheckRun]
    split
    · exact trivial
    · split_ifs <;> exact trivial
  | inside call caller p =>
    rcases LockPlace.inside_code call caller p with ⟨a, rfl, hc⟩ | ⟨j, hj, hc⟩
    · cases hc.symm.trans h
      exact back_sound call caller a
    · cases hc.symm.trans h
      rw [Instr.result_map]
      cases caller with
      | copyRead fhandle => exact OpPlace.Reads.next hp hj s
      | _ => exact trivial

/-! ## One call among any others -/

/-- How many steps a call can need. A copy has no bound of its own: it goes on for as long as
others add to the file. -/
def ThreadCall.mostSteps : ThreadCall → Option Nat
  | .op (.tfsOpen _ _) => some 65
  | .op (.tfsClose _) => some 5
  | .op (.tfsRead _ _) => some 12
  | .op (.tfsWrite _ _) => some 1081
  | .op (.tfsCopyToExternalFs _ _) => none
  | .tfsLookup _ => some 26

/-- The thread is in no copy. -/
def LockPlace.Plain : LockPlace → Prop
  | .inside _ .program _ => True
  | .outside _ => True
  | _ => False

theorem LockPlace.Plain.next {p : LockPlace} (hp : p.Plain) {i : Instr Lock State LockPlace}
    (h : p.code = some i) (s : State) :
    (i.result s).1.Plain ∧ (i.result s).1.left 0 < p.left 0 := by
  cases p with
  | outside last => cases h
  | copyCheck source_path destOpens => exact hp.elim
  | inside call caller p =>
    cases caller with
    | program =>
      rcases LockPlace.inside_code call .program p with ⟨a, rfl, hc⟩ | ⟨j, hj, hc⟩
      · cases hc.symm.trans h
        exact ⟨trivial, Nat.zero_lt_one⟩
      · cases hc.symm.trans h
        rw [Instr.result_map]
        -- up to the end of no block, no offset can be moved
        have hlt := OpPlace.left_lt 0 hj s
        have hnone : ∀ s, roundsLeft 0 s = 0 := by
          intro s
          simp [roundsLeft, State.offsetsLeft]
        rw [hnone, hnone] at hlt
        exact ⟨trivial, hlt⟩
    | _ => exact hp.elim

/-- Between the beginning of a call and the next one of the same thread, the thread makes only so
many steps, whatever calls the others make meanwhile, and whatever the file system holds. -/
theorem a_call_makes_few_steps {s s' : LockThreads} {t n : Nat} {call : ThreadCall}
    {as : List (Action Nat ThreadCall)} (hn : call.mostSteps = some n)
    (hentry : s.place t = entry call) (hno : ∀ call', Action.call t call' ∉ as)
    (he : steps.after (turn operations) s as = some s') : as.countP (Action.ofThread t) ≤ n := by
  have hplain : (s.place t).Plain ∧ (s.place t).left 0 = n := by
    rw [hentry]
    cases call with
    | op op =>
      cases op with
      | tfsCopyToExternalFs source_path destOpens => cases hn
      | _ =>
        cases hn
        exact ⟨trivial, rfl⟩
    | tfsLookup path =>
      cases hn
      exact ⟨trivial, rfl⟩
  have hle := steps_le (LockPlace.left 0) (fun p i x hp h => (hp.next h x).1)
    (fun p i x hp h => (LockPlace.Plain.next hp h x).2) hplain.1 he hno
  omega

/-- A read through handle 1, and meanwhile a close of another thread. -/
def readBesideClose : List (Action Nat ThreadCall) :=
  [.go 0, .call 1 (.op (.tfsClose 0)), .go 0, .go 1, .go 0, .go 0, .go 1, .go 0, .go 0, .go 0,
    .go 1, .go 0, .go 0, .go 0, .go 0, .go 0]

/-- The threads when the read begins. -/
def readBegins : LockThreads := { quiet with data := helloWritten }.move 0 (entry (.op (.tfsRead 1 8)))

/-- What the last call has given, once the thread is outside. -/
def LockPlace.lastAnswer : LockPlace → Option Answer
  | .outside last => last.map Prod.snd
  | _ => none

/-- The read gives the text, in twelve steps. -/
theorem readBesideClose_ends :
    (steps.after (turn operations) readBegins readBesideClose).map
      (fun s => (s.place 0).lastAnswer) = some (some ⟨5, hello⟩) := by decide +kernel

theorem the_read_makes_few_steps :
    ∃ s, steps.after (turn operations) readBegins readBesideClose = some s ∧
      (s.place 0).lastAnswer = some ⟨5, hello⟩ ∧
      readBesideClose.countP (Action.ofThread 0) ≤ 12 := by
  obtain ⟨s, he, hanswer⟩ := Option.map_eq_some_iff.mp readBesideClose_ends
  have hn : (ThreadCall.op (.tfsRead 1 8)).mostSteps = some 12 := rfl
  have hentry : readBegins.place 0 = entry (.op (.tfsRead 1 8)) := rfl
  refine ⟨s, he, hanswer, a_call_makes_few_steps hn hentry ?_ he⟩
  intro call hmem
  simp [readBesideClose] at hmem

/-- No step adds blocks beyond those that its thread was to add. -/
theorem operations_add :
    Pays operations (fun _ => True) (fun _ => True) LockPlace.allocs
      (fun s => s.disk.inodeBlocks) 0 := by
  intro p i s _ _ h
  cases p with
  | outside last => cases h
  | copyCheck source_path destOpens =>
    cases h
    simp only [Instr.result, copyCheckRun]
    split
    · exact Nat.le_refl _
    · split_ifs <;> exact Nat.le_refl _
  | inside call caller p =>
    rcases LockPlace.inside_code call caller p with ⟨a, rfl, hc⟩ | ⟨j, hj, hc⟩
    · cases hc.symm.trans h
      have hback : (back call caller a).allocs = 0 := by
        cases caller with
        | program => rfl
        | copyClose ret => rfl
        | _ =>
          simp only [back]
          split_ifs <;> rfl
      simp only [Instr.result, hback]
      exact Nat.le_refl _
    · cases hc.symm.trans h
      rw [Instr.result_map]
      exact OpPlace.allocs_le hj s

/-- Each step takes something from what is left. -/
theorem operations_pay :
    Pays operations LockPlace.Sound (fun s => s.disk.inodeBlocks ≤ blocks) (LockPlace.left blocks)
      (roundsLeft blocks) 1 := by
  intro p i s hp hfits h
  apply Nat.succ_le_of_lt
  cases p with
  | outside last => cases h
  | copyCheck source_path destOpens =>
    cases h
    simp only [Instr.result, copyCheckRun]
    split
    · simp only [LockPlace.left]
      omega
    · split_ifs
      all_goals
        simp only [LockPlace.left, OpPlace.left, LookupUse.left, Caller.left, Caller.again,
          MAX_DIR_ENTRIES]
        omega
  | inside call caller p =>
    rcases LockPlace.inside_code call caller p with ⟨a, rfl, hc⟩ | ⟨j, hj, hc⟩
    · cases hc.symm.trans h
      exact Nat.add_lt_add_right (back_left blocks call caller a) _
    · cases hc.symm.trans h
      rw [Instr.result_map]
      simp only [LockPlace.left]
      cases caller with
      | copyRead fhandle =>
        have := OpPlace.Reads.again_lt blocks hp hj hfits
        simp only [Caller.again]
        omega
      | _ =>
        have := OpPlace.left_lt blocks hj s
        simp only [Caller.again]
        omega

/-- From every state that any run leads to, all calls return when no new call begins: within a
number of steps that depends on the state only, however the locks are handed out, and until then
some thread can go on. A copy returns too, whatever the other calls do to its file, as long as
`fputs` does. -/
theorem every_call_returns {s : LockThreads} (hs : LockReachable s) :
    ∃ n, progress.Within (turn operations) Action.Goes (fun _ _ => True)
      (fun s => ∀ t, (s.place t).code = none) n s := by
  obtain ⟨busy, hbusy⟩ := exists_busy hs
  have hsound : ∀ t, (s.place t).Sound := by
    refine place_invariant ?_ ?_ (fun p i x hp h => hp.next h x) hs
    · intro p h
      cases p with
      | inside call caller p =>
        rcases LockPlace.inside_code call caller p with ⟨a, _, hc⟩ | ⟨j, _, hc⟩
        · cases hc.symm.trans h
        · cases hc.symm.trans h
      | _ => exact trivial
    · intro call
      cases call with
      | op op => cases op <;> exact trivial
      | tfsLookup path => exact trivial
  exact operations_ordered.all_return Lock.rank_le (fun p i x hp h => LockPlace.Sound.next hp h x)
    operations_add operations_pay (operations_ordered.agrees hs) hbusy hsound

/-- A thread has begun to copy a file, and another one to write to it. -/
theorem a_copy_and_a_write_return :
    ∃ s n, steps.after (turn operations) quiet
        [.call 0 (.op (.tfsCopyToExternalFs (some pathF) true)),
          .call 1 (.op (.tfsWrite 0 [1, 2]))] = some s ∧
      progress.Within (turn operations) Action.Goes (fun _ _ => True)
        (fun s => ∀ t, (s.place t).code = none) n s := by
  obtain ⟨n, hn⟩ := every_call_returns (((steps.Reachable.start quiet_atRest).step
    (.call 0 (.op (.tfsCopyToExternalFs (some pathF) true))) rfl).step
      (.call 1 (.op (.tfsWrite 0 [1, 2]))) rfl)
  exact ⟨_, n, rfl, hn⟩

end tecnicofs.parte1
