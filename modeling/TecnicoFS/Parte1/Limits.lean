-- What the threads cannot go beyond while no new call begins: the blocks that the inodes count,
-- with those that the writes underway may still add, and with them the offsets of the reads.
import TecnicoFS.Common.Counting
import TecnicoFS.Lib.Termination
import TecnicoFS.Parte1.LockOrder
import TecnicoFS.Parte1.NewEntries
import Mathlib.Algebra.Order.BigOperators.Group.Finset

open byte_memory lock_order

namespace tecnicofs.parte1

/-! ## The blocks of the files, and those to come -/

/-- How many blocks the inodes count. -/
@[irreducible] def Disk.inodeBlocks (d : Disk) : Nat :=
  ∑ f ∈ Finset.range INODE_TABLE_SIZE, (d.inode_table f).blocksAlloc

/-- How many blocks a call of `tfs_write` can ask for. -/
def Access.allocs : Access → Nat
  | .write _ => MAX_INODE_BLOCKS
  | .read _ => 0

/-- How many blocks an operation can still add to its file. -/
@[simp] def OpPlace.allocs : OpPlace → Nat
  | .get _ use => use.allocs
  | .getLock _ use => use.allocs
  | .getRun _ use => use.allocs
  | .inumber _ use => use.allocs
  | .inodeLock _ _ use => use.allocs
  | .entryLock _ _ use => use.allocs
  | .accessRun _ _ use => use.allocs
  | .allocLock _ _ todo _ => todo + 1
  | .allocRun _ _ todo _ => todo + 1
  | .allocated _ _ todo _ _ => todo + 1
  | .unlock _ _ next => next.allocs
  | _ => 0

def LockPlace.allocs : LockPlace → Nat
  | .inside _ _ p => p.allocs
  | _ => 0

theorem blocksAlloc_le {d : Disk} {f : Nat} (hf : f < INODE_TABLE_SIZE) :
    (d.inode_table f).blocksAlloc ≤ d.inodeBlocks := by
  unfold Disk.inodeBlocks
  exact Finset.single_le_sum (f := fun f => (d.inode_table f).blocksAlloc)
    (fun _ _ => Nat.zero_le _) (Finset.mem_range.mpr hf)

theorem inodeBlocks_congr {d d' : Disk} (h : d'.inode_table = d.inode_table) :
    d'.inodeBlocks = d.inodeBlocks := by
  unfold Disk.inodeBlocks
  rw [h]

theorem FreesOnly.inodeBlocks {d d' : Disk} (h : FreesOnly d d') :
    d'.inodeBlocks = d.inodeBlocks := by
  obtain ⟨b, rfl⟩ := h
  exact inodeBlocks_congr rfl

/-- An inode counts at most `n` blocks more. -/
theorem inodeBlocks_modInode {d : Disk} {f n : Nat} {g : Inode → Inode}
    (h : (g (d.inode_table f)).blocksAlloc ≤ (d.inode_table f).blocksAlloc + n) :
    (d.modInode f g).inodeBlocks ≤ d.inodeBlocks + n := by
  by_cases hf : f < INODE_TABLE_SIZE
  · have hsum := sum_update_add hf d.inode_table (g (d.inode_table f)) Inode.blocksAlloc
    have hnew : (d.modInode f g).inodeBlocks = ∑ k ∈ Finset.range INODE_TABLE_SIZE,
        (Function.update d.inode_table f (g (d.inode_table f)) k).blocksAlloc := by
      unfold Disk.inodeBlocks Disk.modInode
      rfl
    unfold Disk.inodeBlocks at hnew ⊢
    omega
  · have hsame : (d.modInode f g).inodeBlocks = d.inodeBlocks := by
      unfold Disk.inodeBlocks
      apply Finset.sum_congr rfl
      intro k hk
      have hne : k ≠ f := by
        rintro rfl
        exact hf (Finset.mem_range.mp hk)
      rw [Disk.modInode_of_ne d f g hne]
    rw [hsame]
    exact Nat.le_add_right _ _

theorem inodeBlocks_modInode_le {d : Disk} {f : Nat} {g : Inode → Inode}
    (h : (g (d.inode_table f)).blocksAlloc ≤ (d.inode_table f).blocksAlloc) :
    (d.modInode f g).inodeBlocks ≤ d.inodeBlocks := by
  have := inodeBlocks_modInode (n := 0) h
  rwa [Nat.add_zero] at this

theorem dataBlockAlloc_inodeBlocks (d : Disk) : (dataBlockAlloc d).2.inodeBlocks = d.inodeBlocks := by
  rcases dataBlockAlloc_cases d with ⟨he, _⟩ | ⟨b, _, _, he⟩
  · simp only [he]
  · simp only [he]
    exact inodeBlocks_congr rfl

theorem truncateInode_inodeBlocks (d : Disk) (inode : Nat) :
    (truncateInode d inode).2.inodeBlocks ≤ d.inodeBlocks := by
  have hfrees := (deleteInodeDataBlocks_freesOnly d inode).inodeBlocks
  unfold truncateInode
  simp only
  split_ifs
  · simp only [hfrees, Nat.le_refl]
  · simp only
    rw [← hfrees]
    exact inodeBlocks_modInode_le (Nat.zero_le _)
  · simp only [Nat.le_refl]

theorem inodeCreate_inodeBlocks (d : Disk) : (inodeCreate d .T_FILE).2.inodeBlocks ≤ d.inodeBlocks := by
  rcases inodeCreate_cases d with ⟨he, _⟩ | ⟨i, _, he⟩
  · simp only [he, Nat.le_refl]
  · have hset : (d.setFreeinode i .TAKEN).inodeBlocks = d.inodeBlocks := inodeBlocks_congr rfl
    simp only [he]
    rw [← hset]
    exact inodeBlocks_modInode_le (Nat.zero_le _)

theorem inodeDelete_inodeBlocks (d : Disk) (inumber : Int) :
    (inodeDelete d inumber).2.inodeBlocks = d.inodeBlocks := by
  have hfrees :=
    (deleteInodeDataBlocks_freesOnly (d.setFreeinode inumber.toNat .FREE) inumber.toNat).inodeBlocks
  have hset : (d.setFreeinode inumber.toNat .FREE).inodeBlocks = d.inodeBlocks :=
    inodeBlocks_congr rfl
  unfold inodeDelete
  simp only
  split_ifs
  · simp only
  · simp only [hfrees, hset]
  · simp only [hfrees, hset]
  · simp only [hset]

theorem appendIndirect_inodeBlocks (d : Disk) (inode n : Nat) (b : Int) :
    (appendIndirect d inode n b).2.inodeBlocks ≤ d.inodeBlocks + 1 := by
  unfold appendIndirect
  split
  · simp only [Nat.le_add_right]
  · rename_i block _
    have hdata : ({ d with fs_data := storeInt d.fs_data (block + 4 * n) b } : Disk).inodeBlocks =
        d.inodeBlocks := inodeBlocks_congr rfl
    simp only
    rw [← hdata]
    exact inodeBlocks_modInode (Nat.le_refl _)

theorem writeLoop_inodeBlocks (inode : Nat) (buffer : List UInt8) (rounds : Nat) (d : Disk)
    (b off c o n : Nat) :
    (writeLoop inode buffer rounds d b off c o n).disk.inodeBlocks = d.inodeBlocks := by
  induction rounds generalizing d b off c o n with
  | zero => rfl
  | succ rounds ih =>
    simp only [writeLoop]
    split
    · rfl
    split
    · rfl
    · rfl
    · rw [ih]
      exact inodeBlocks_congr rfl

/-! ## What an operation adds -/

theorem openExisting_allocs (flags : BitVec 32) (inum : Int) :
    (openExisting flags inum).allocs = 0 := by
  unfold openExisting
  split
  · rfl
  · split_ifs <;> rfl

theorem looked_allocs (path : CString) (inum : Int) (use : LookupUse) :
    (looked path inum use).allocs = 0 := by
  have hopen := openExisting_allocs
  cases use with
  | answer => rfl
  | «open» flags =>
    simp only [looked]
    split_ifs
    · exact hopen _ _
    · rfl
    · rfl
  | create flags =>
    simp only [looked]
    split_ifs
    · exact hopen _ _
    · rfl

theorem allocNext_allocs (w : WriteVars) (blockOcc todo : Nat) :
    (allocNext w blockOcc todo).allocs ≤ todo := by
  cases todo with
  | zero => exact Nat.le_refl _
  | succ todo =>
    unfold allocNext
    split_ifs
    · exact Nat.zero_le _
    · exact Nat.le_refl _

theorem allocEnd_allocs (w : WriteVars) (blockOcc todo : Nat) (control : Int) :
    (allocEnd w blockOcc todo control).allocs ≤ todo := by
  unfold allocEnd
  split_ifs
  · exact Nat.zero_le _
  · exact Nat.zero_le _
  · exact allocNext_allocs _ _ _

theorem allocatedRun_allocs (d : Disk) (w : WriteVars) (blockOcc todo : Nat) (second : Bool)
    (b : Int) :
    (allocatedRun d w blockOcc todo second b).1.allocs +
        (allocatedRun d w blockOcc todo second b).2.inodeBlocks ≤
      todo + 1 + d.inodeBlocks := by
  have hend := allocEnd_allocs w blockOcc todo
  unfold allocatedRun
  split_ifs
  · have hfree := (dataBlockFree_freesOnly d (d.inode_table w.inode).indirect_data_block).inodeBlocks
    simp only
    rw [hfree]
    exact Nat.add_le_add_right (Nat.le_succ_of_le (hend _)) _
  · exact Nat.add_le_add_right (Nat.le_succ_of_le (hend 1)) _
  · have := inodeBlocks_modInode_le (d := d) (f := w.inode)
      (g := fun i => { i with indirect_data_block := b }) (Nat.le_refl _)
    exact Nat.add_le_add_left this _
  · have := appendIndirect_inodeBlocks d w.inode (blockOcc - 10) b
    have := hend (appendIndirect d w.inode (blockOcc - 10) b).1
    simp only
    omega
  · have hone := inodeBlocks_modInode (d := d) (f := w.inode) (n := 1)
      (g := fun i =>
        { i with
          i_data_block := Function.update i.i_data_block blockOcc b
          blocksAlloc := i.blocksAlloc + 1 }) (Nat.le_refl _)
    have := hend 0
    simp only
    omega

/-- A write that fills the file needs all the blocks that an inode has. -/
theorem divCeil_le {n : Nat} (h : n ≤ MAX_FILE_SIZE) : divCeil n BLOCK_SIZE ≤ MAX_INODE_BLOCKS := by
  unfold divCeil MAX_INODE_BLOCKS BLOCK_SIZE
  unfold MAX_FILE_SIZE at h
  split_ifs <;> omega

/-- What `tfs_write` does under its locks, up to the allocation: `blocks` to ask for, if it comes
to that, and an offset that moves only for an append. -/
theorem writeSection_cases (s : State) (i inode : Nat) (buffer : List UInt8) :
    ∃ e next, writeSection s i inode buffer = (next, fillEntry s i e) ∧
      (next = unlockBoth i inode .exclusive ⟨ssizeT 0, []⟩ ∨
        ∃ w blockOcc, ∃ todo ≤ MAX_INODE_BLOCKS, next = allocNext w blockOcc todo) := by
  simp only [writeSection]
  generalize (if (s.open_file_table i).isAppending = true then
    { s.open_file_table i with of_offset := (s.disk.inode_table inode).i_size }
    else s.open_file_table i) = e
  generalize hsize : (if sizeT ((buffer.length : Int) + e.of_offset) > MAX_FILE_SIZE then
    MAX_FILE_SIZE else sizeT ((buffer.length : Int) + e.of_offset)) = sizeNeeded
  have hle : sizeNeeded ≤ MAX_FILE_SIZE := by
    rw [← hsize]
    split_ifs <;> omega
  refine ⟨e, _, rfl, ?_⟩
  split_ifs
  · exact Or.inr ⟨_, _, _, Nat.le_trans (Nat.sub_le _ _) (divCeil_le hle), rfl⟩
  · exact Or.inl rfl

theorem claimSection_cases (s : State) (e : OpenFileEntry) :
    claimSection s e = (.unlock .addFileEntryMutex .exclusive (.ret ⟨-1, []⟩), s) ∨
      ∃ i free_open_file_entries, claimSection s e =
        (.unlock .addFileEntryMutex .exclusive (.fillLock i e), { s with free_open_file_entries }) := by
  unfold claimSection
  rcases claimEntry_cases s with ⟨he, _⟩ | ⟨i, _, _, _, he⟩
  · rw [he]
    exact Or.inl rfl
  · rw [he]
    exact Or.inr ⟨i, _, rfl⟩

/-- The copy loop and the rest of `tfs_write` add no block, and move the offset forward, if at
all. -/
theorem copySection_cases (s : State) (w : WriteVars) :
    ∃ a d, d.inodeBlocks ≤ s.disk.inodeBlocks ∧
      (copySection s w = (unlockBoth w.i w.inode .exclusive a, { s with disk := d }) ∨
        ∃ file : OpenFileEntry, (s.open_file_table w.i).of_offset ≤ file.of_offset ∧
          copySection s w =
            (unlockBoth w.i w.inode .exclusive a, fillEntry { s with disk := d } w.i file)) := by
  have hloop := writeLoop_inodeBlocks w.inode w.buffer w.saveToWrite s.disk
  simp only [copySection]
  generalize (if BLOCK_SIZE - ((s.open_file_table w.i).of_offset -
      (divCeilRW (s.open_file_table w.i).of_offset BLOCK_SIZE - 1) * BLOCK_SIZE) < w.saveToWrite then
    BLOCK_SIZE - ((s.open_file_table w.i).of_offset -
      (divCeilRW (s.open_file_table w.i).of_offset BLOCK_SIZE - 1) * BLOCK_SIZE)
    else w.saveToWrite) = toWriteInBlock
  split
  · exact ⟨_, _, Nat.le_of_eq (hloop ..), Or.inl rfl⟩
  · refine ⟨_, _, ?_, Or.inr ⟨_, Nat.le_add_right _ _, rfl⟩⟩
    rw [← hloop]
    apply inodeBlocks_modInode_le
    split_ifs <;> exact Nat.le_refl _

theorem OpPlace.allocs_le {p : OpPlace} {i : Instr Lock State OpPlace} (h : p.code = some i)
    (s : State) :
    (i.result s).1.allocs + (i.result s).2.disk.inodeBlocks ≤ p.allocs + s.disk.inodeBlocks := by
  -- a step that leaves the disk alone, and goes where no more is added
  have hstay : ∀ (n : Nat) (q : OpPlace), q.allocs ≤ n →
      q.allocs + s.disk.inodeBlocks ≤ n + s.disk.inodeBlocks :=
    fun n q hq => Nat.add_le_add_right hq _
  have hstore : ∀ (q : OpPlace) (m : Memory), q.allocs = 0 →
      q.allocs + (setData s m).disk.inodeBlocks ≤ 0 + s.disk.inodeBlocks := by
    intro q m hq
    have hdisk : (setData s m).disk.inodeBlocks = s.disk.inodeBlocks := inodeBlocks_congr rfl
    rw [hq, hdisk]
  have hlooked := looked_allocs
  cases p with
  | find path use =>
    cases h
    refine hstay _ (findRun s.disk path use) ?_
    unfold findRun
    split
    · exact Nat.le_of_eq (hlooked ..)
    · split
      · exact Nat.le_of_eq (hlooked ..)
      · exact Nat.le_refl _
  | scan path dir_entry i use =>
    cases h
    refine hstay _ (scanRun s.disk path dir_entry i use) ?_
    unfold scanRun
    split_ifs
    · exact Nat.le_of_eq (hlooked ..)
    · exact Nat.le_refl _
    · exact Nat.le_of_eq (hlooked ..)
  | openCheck name flags =>
    cases h
    refine hstay _ (openCheckRun name flags) ?_
    unfold openCheckRun
    split
    · exact Nat.le_refl _
    · split_ifs <;> exact Nat.le_refl _
  | newInode path =>
    cases h
    have hdisk := inodeCreate_inodeBlocks s.disk
    simp only [Instr.result, newInodeRun]
    split_ifs <;> simpa [unlockNewFile, allocs] using hdisk
  | addEntry path inum =>
    cases h
    refine hstay _ (addEntryRun s.disk path inum) ?_
    unfold addEntryRun
    split_ifs
    · exact Nat.le_refl _
    · exact Nat.le_refl _
    · exact Nat.le_refl _
    · split
      · exact Nat.le_refl _
      · split <;> exact Nat.le_refl _
  | storeName path inum dir_entry i => cases h; exact hstore (.storeInumber inum dir_entry i) _ rfl
  | storeInumber inum dir_entry i => cases h; exact hstore (.storeEnd inum dir_entry i) _ rfl
  | storeEnd inum dir_entry i => cases h; exact hstore (unlockNewFile (.claimLock _)) _ rfl
  | undo inum =>
    cases h
    have hdisk := inodeDelete_inodeBlocks s.disk inum
    simp only [Instr.result, unlockNewFile, allocs, hdisk, Nat.le_refl]
  | truncRun flags inum inode =>
    cases h
    have hdisk := truncateInode_inodeBlocks s.disk inode
    simp only [Instr.result, truncSection, allocs]
    split_ifs <;> simpa [allocs] using hdisk
  | claimRun e =>
    cases h
    rcases claimSection_cases s e with he | ⟨i, _, he⟩
    · simp only [Instr.result, he, allocs, Nat.le_refl]
    · simp only [Instr.result, he, allocs, Nat.le_refl]
  | close fhandle => cases h; simp only [Instr.result]; split_ifs <;> exact Nat.le_refl _
  | closeRun i =>
    cases h
    simp only [Instr.result, closeSection, removeFromOpenFileTable]
    split_ifs <;> exact Nat.le_refl _
  | get fhandle use =>
    cases h
    simp only [Instr.result]
    split_ifs
    · exact Nat.le_refl _
    · exact hstay _ (.ret ⟨-1, []⟩) (Nat.zero_le _)
  | getRun i use =>
    cases h
    simp only [Instr.result, getSection, allocs]
    split_ifs
    · exact hstay _ (.ret ⟨-1, []⟩) (Nat.zero_le _)
    · exact Nat.le_refl _
  | inumber i use =>
    cases h
    refine hstay _ (inumberRun s i use) ?_
    unfold inumberRun
    split
    · exact Nat.zero_le _
    · exact Nat.le_refl _
    · exact Nat.le_refl _
  | readIsAppending i inode len =>
    cases h
    simp only [Instr.result]
    split_ifs <;> exact Nat.le_refl _
  | accessRun i inode use =>
    cases use with
    | write buffer =>
      cases h
      obtain ⟨e, next, he, hnext⟩ := writeSection_cases s i inode buffer
      simp only [Instr.result, he]
      refine hstay _ next ?_
      rcases hnext with rfl | ⟨w, blockOcc, todo, htodo, rfl⟩
      · exact Nat.zero_le _
      · exact Nat.le_trans (allocNext_allocs w blockOcc todo) htodo
    | read len => cases h; exact Nat.le_refl _
  | allocRun w blockOcc todo second =>
    cases h
    have hdisk := dataBlockAlloc_inodeBlocks s.disk
    simp only [Instr.result, allocs, hdisk, Nat.le_refl]
  | allocated w blockOcc todo second b =>
    cases h
    exact allocatedRun_allocs s.disk w blockOcc todo second b
  | copyRun w =>
    cases h
    obtain ⟨a, d, hdisk, he | ⟨file, _, he⟩⟩ := copySection_cases s w
    · simp only [Instr.result, he]
      exact Nat.add_le_add_left hdisk _
    · simp only [Instr.result, he]
      exact Nat.add_le_add_left hdisk _
  | ret a => cases h
  | _ => cases h; exact Nat.le_refl _

/-! ## The offsets, and how far they can go -/

/-- How far the offsets of all slots are from `bytes`. -/
@[irreducible] def State.offsetsLeft (bytes : Nat) (s : State) : Nat :=
  ∑ i ∈ Finset.range MAX_OPEN_FILES, (bytes - (s.open_file_table i).of_offset)

theorem offsetsLeft_congr {bytes : Nat} {s s' : State} (h : s'.open_file_table = s.open_file_table) :
    s'.offsetsLeft bytes = s.offsetsLeft bytes := by
  unfold State.offsetsLeft
  rw [h]

theorem offsetsLeft_fillEntry (bytes : Nat) (s : State) {i : Nat} (hi : i < MAX_OPEN_FILES)
    (e : OpenFileEntry) :
    (fillEntry s i e).offsetsLeft bytes + (bytes - (s.open_file_table i).of_offset) =
      s.offsetsLeft bytes + (bytes - e.of_offset) := by
  unfold State.offsetsLeft fillEntry
  exact sum_update_add hi s.open_file_table e fun e => bytes - e.of_offset

theorem offsetsLeft_outside (bytes : Nat) (s : State) {i : Nat} (hi : ¬ i < MAX_OPEN_FILES)
    (e : OpenFileEntry) : (fillEntry s i e).offsetsLeft bytes = s.offsetsLeft bytes := by
  unfold State.offsetsLeft fillEntry
  apply Finset.sum_congr rfl
  intro k hk
  have hne : k ≠ i := by
    rintro rfl
    exact hi (Finset.mem_range.mp hk)
  simp only
  rw [Function.update_of_ne hne]

/-- An entry that is filled again may begin at 0. -/
theorem offsetsLeft_setBack (bytes : Nat) (s : State) (i : Nat) (e : OpenFileEntry) :
    (fillEntry s i e).offsetsLeft bytes ≤ s.offsetsLeft bytes + bytes := by
  by_cases hi : i < MAX_OPEN_FILES
  · have := offsetsLeft_fillEntry bytes s hi e
    omega
  · rw [offsetsLeft_outside bytes s hi]
    exact Nat.le_add_right _ _

theorem offsetsLeft_forward (bytes : Nat) {s : State} {i : Nat} {e : OpenFileEntry}
    (h : (s.open_file_table i).of_offset ≤ e.of_offset) :
    (fillEntry s i e).offsetsLeft bytes ≤ s.offsetsLeft bytes := by
  by_cases hi : i < MAX_OPEN_FILES
  · have := offsetsLeft_fillEntry bytes s hi e
    omega
  · exact Nat.le_of_eq (offsetsLeft_outside bytes s hi e)

/-- A read leaves the entry as it is, or all its blocks were there. -/
theorem readCritical_cases (d : Disk) (file : OpenFileEntry) (inode len : Nat) :
    ((readCritical d file inode len).1.1 ≤ 0 ∧ (readCritical d file inode len).2 = file) ∨
      ∃ n off c r, 0 < n ∧
        readLoop d inode n (divCeilRW file.of_offset BLOCK_SIZE) off c n = r ∧ r.failed = false ∧
        readCritical d file inode len = ((ssizeT (n - r.to_read), r.bytes),
          { file with of_offset := file.of_offset + (n - r.to_read) }) := by
  have hnone : (-1 : Int) ≤ 0 := by omega
  have hzero : ssizeT 0 ≤ 0 := by decide
  unfold readCritical
  simp only
  generalize (if sizeT (((d.inode_table inode).i_size : Int) - file.of_offset) > len then len
    else sizeT (((d.inode_table inode).i_size : Int) - file.of_offset)) = n
  by_cases hn : 0 < n
  · rw [if_pos hn]
    generalize file.of_offset - (divCeilRW file.of_offset BLOCK_SIZE - 1) * BLOCK_SIZE = off
    generalize (if BLOCK_SIZE - off < n then BLOCK_SIZE - off else n) = c
    generalize hr : readLoop d inode n (divCeilRW file.of_offset BLOCK_SIZE) off c n = r
    cases hfailed : r.failed with
    | true => exact Or.inl ⟨hnone, rfl⟩
    | false => exact Or.inr ⟨n, off, c, r, hn, hr, hfailed, rfl⟩
  · rw [if_neg hn]
    exact Or.inl ⟨hzero, rfl⟩

theorem readCritical_forward (d : Disk) (file : OpenFileEntry) (inode len : Nat) :
    file.of_offset ≤ (readCritical d file inode len).2.of_offset := by
  rcases readCritical_cases d file inode len with ⟨_, he⟩ | ⟨n, off, c, r, _, _, _, he⟩
  · rw [he]
  · rw [he]
    exact Nat.le_add_right _ _

theorem readLoop_missing {d : Disk} {inode rounds b : Nat} (off c : Nat) {n : Nat}
    (h : (d.inode_table inode).blocksAlloc < b) (hn : 0 < n) :
    (readLoop d inode (rounds + 1) b off c n).failed = true := by
  unfold readLoop getNthDataBlock
  rw [if_neg (Nat.pos_iff_ne_zero.mp hn), if_pos h]
  cases validInodeBlockNumber b <;> rfl

/-- A read that returns a byte begins inside a block of the file, and moves the offset. -/
theorem readCritical_moves {d : Disk} {file : OpenFileEntry} {inode len : Nat}
    (hret : 0 < (readCritical d file inode len).1.1) :
    file.of_offset < (readCritical d file inode len).2.of_offset ∧
      file.of_offset < (d.inode_table inode).blocksAlloc * BLOCK_SIZE := by
  rcases readCritical_cases d file inode len with ⟨hno, _⟩ | ⟨n, off, c, r, hn, hr, hfailed, he⟩
  · omega
  rw [he] at hret ⊢
  constructor
  · have hne : n - r.to_read ≠ 0 := by
      intro h0
      rw [h0] at hret
      have hzero : ssizeT 0 = 0 := by decide
      simp [hzero] at hret
    simp only
    omega
  · by_contra hno
    have hmissing : (d.inode_table inode).blocksAlloc < divCeilRW file.of_offset BLOCK_SIZE := by
      unfold divCeilRW
      unfold BLOCK_SIZE at hno ⊢
      omega
    obtain ⟨rounds, rfl⟩ := Nat.exists_eq_succ_of_ne_zero (Nat.pos_iff_ne_zero.mp hn)
    rw [← hr, readLoop_missing off c hmissing hn] at hfailed
    cases hfailed

end tecnicofs.parte1
