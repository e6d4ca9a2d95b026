-- The invariant of the whole state of the first part, and the laws of the
-- blocks: no operation leaks a block, frees one in use or shares one.
import TecnicoFS.Parte1.Copying
import TecnicoFS.Parte1.Creation

open byte_memory block_map ownership

namespace tecnicofs.parte1

/-- The disk keeps its invariant, sizes are in range, and each open handle is on a file. -/
structure Inv (s : State) : Prop where
  disk : DiskInv s.disk
  size_le : ∀ f, FileInode s.disk f → (s.disk.inode_table f).i_size ≤ MAX_FILE_SIZE
  handle : ∀ i < MAX_OPEN_FILES, s.free_open_file_entries i = .TAKEN →
    ∃ f : Nat, (s.open_file_table i).of_inumber = f ∧ FileInode s.disk f ∧
      (s.open_file_table i).of_offset ≤ MAX_FILE_SIZE

/-! ## The first state -/

/-- The disk that `tfs_init` leaves: inode 0 is the directory, in block 0. -/
def firstDisk (d : Disk) : Disk where
  inode_table := Function.update d.inode_table 0
    { (d.inode_table 0) with
      i_node_type := .T_DIRECTORY
      i_size := BLOCK_SIZE
      i_data_block := Function.update (d.inode_table 0).i_data_block 0 0
      blocksAlloc := 1 }
  freeinode_ts := Function.update (fun _ => .FREE) 0 .TAKEN
  fs_data := clearDir d.fs_data 0 MAX_DIR_ENTRIES
  free_blocks := Function.update (fun _ => .FREE) 0 .TAKEN

theorem tfsInit_eq (s : State) :
    tfsInit s = (0,
      { disk := firstDisk s.disk
        open_file_table := s.open_file_table
        free_open_file_entries := fun _ => .FREE }) := by
  have hinode : (List.range INODE_TABLE_SIZE).find?
      (fun i => decide ((stateInit s).disk.freeinode_ts i = .FREE)) = some 0 :=
    find?_range_first (by decide) rfl
  have hblock : ∀ d : Disk, d.free_blocks = (fun _ => .FREE) →
      dataBlockAlloc d = (0, d.setFreeBlock 0 .TAKEN) := by
    intro d hd
    unfold dataBlockAlloc
    rw [find?_range_first (by decide) (by simp [hd])]
    rfl
  have hget : dataBlockGet (0 : Int) = some 0 := by decide
  unfold tfsInit inodeCreate
  simp only [hinode]
  rw [hblock _ (by simp [stateInit])]
  simp only [hget, zero_ne_neg_one, if_false]
  simp [firstDisk, stateInit, Disk.modInode, Disk.setFreeinode, Disk.setFreeBlock,
    Function.update_idem]

theorem firstDisk_fileInode (d : Disk) (f : Nat) : ¬ FileInode (firstDisk d) f := by
  rintro ⟨_, ht, hty⟩
  by_cases hf : f = 0
  · subst hf
    simp [firstDisk] at hty
  · simp [firstDisk, Function.update_of_ne hf] at ht

theorem firstDisk_inv (d : Disk) : DiskInv (firstDisk d) where
  root_taken := by simp [firstDisk]
  root_dir := by simp [firstDisk]
  file_type := by
    intro f hf ht
    simp [firstDisk, Function.update_of_ne hf] at ht
  blocks_le := fun f hf => (firstDisk_fileInode d f hf).elim
  exact :=
    { taken_of_own := by
        intro o b ho
        cases o with
        | root =>
          simp only [ownedBlock, rootBlock, firstDisk, Function.update_self, Option.some.injEq] at ho
          subst ho
          exact ⟨by decide, by simp [firstDisk]⟩
        | data f k => simp [ownedBlock, firstDisk_fileInode] at ho
        | indirect f => simp [ownedBlock, firstDisk_fileInode] at ho
      own_of_taken := by
        rintro b ⟨hv, ht⟩
        refine ⟨.root, ?_⟩
        simp only [validBlockNumber, decide_eq_true_eq] at hv
        by_cases hb : b.toNat = 0
        · simp only [ownedBlock, rootBlock, firstDisk, Function.update_self, Option.some.injEq]
          omega
        · simp [firstDisk, Function.update_of_ne hb] at ht
      inj := by
        intro o o' b ho ho'
        cases o <;> cases o' <;> simp_all [ownedBlock, firstDisk_fileInode] }
  dir :=
    { entry_file := fun i hi hne => by
        refine (hne ?_).elim
        simpa [rootAddr, rootBlock, firstDisk] using clearDir_inumber d.fs_data 0 _ i hi
      live_first := fun i j _ hj _ => by
        simpa [rootAddr, rootBlock, firstDisk] using clearDir_inumber d.fs_data 0 _ j hj }

theorem Initial.inv {s : State} (h : Initial s) : Inv s := by
  obtain ⟨raw, rfl⟩ := h
  rw [tfsInit_eq]
  exact
    { disk := firstDisk_inv raw.disk
      size_le := fun f hf => (firstDisk_fileInode raw.disk f hf).elim
      handle := fun i _ ht => by cases ht }

/-! ## Handles -/

/-- The first free slot is claimed. -/
theorem claimEntry_cases (s : State) :
    (claimEntry s = (none, s) ∧ ∀ i < MAX_OPEN_FILES, s.free_open_file_entries i ≠ .FREE) ∨
      ∃ i < MAX_OPEN_FILES, s.free_open_file_entries i = .FREE ∧
        (∀ j < i, s.free_open_file_entries j ≠ .FREE) ∧ claimEntry s = (some i, { s with
          free_open_file_entries := Function.update s.free_open_file_entries i .TAKEN }) := by
  unfold claimEntry
  rcases hf : (List.range MAX_OPEN_FILES).find? fun i =>
    decide (s.free_open_file_entries i = .FREE) with _ | i
  · refine Or.inl ⟨rfl, fun i hi hfree => ?_⟩
    have := List.find?_range_eq_none.mp hf i hi
    simp [hfree] at this
  · obtain ⟨h1, h2, h3⟩ := List.find?_range_eq_some.mp hf
    refine Or.inr ⟨i, List.mem_range.mp h2, by simpa using h1, fun j hj => ?_, rfl⟩
    simpa using h3 j hj

/-- The state with a new open file entry in slot `i`. -/
def withHandle (s : State) (i : Nat) (e : OpenFileEntry) : State :=
  { s with
    open_file_table := Function.update s.open_file_table i e
    free_open_file_entries := Function.update s.free_open_file_entries i .TAKEN }

theorem addToOpenFileTable_cases (s : State) (inumber : Int) (offset : Nat) (isAppending : Bool) :
    addToOpenFileTable s inumber offset isAppending = (-1, s) ∨
      ∃ i < MAX_OPEN_FILES, s.free_open_file_entries i = .FREE ∧
        addToOpenFileTable s inumber offset isAppending =
          ((i : Int), withHandle s i ⟨inumber, offset, isAppending⟩) := by
  unfold addToOpenFileTable
  rcases claimEntry_cases s with ⟨hc, _⟩ | ⟨i, hi, hfree, _, hc⟩
  · rw [hc]
    exact Or.inl rfl
  · rw [hc]
    exact Or.inr ⟨i, hi, hfree, rfl⟩

theorem getOpenFileEntry_eq_some {s : State} {fhandle : Int} {i : Nat} :
    getOpenFileEntry s fhandle = some i ↔
      fhandle = i ∧ i < MAX_OPEN_FILES ∧ s.free_open_file_entries i = .TAKEN := by
  unfold getOpenFileEntry validFileHandle
  have hcases : ∀ a : AllocationState, a ≠ .FREE ↔ a = .TAKEN := by
    intro a
    cases a <;> simp
  split
  · rename_i hv
    rw [decide_eq_false_iff_not] at hv
    simp only [reduceCtorEq, false_iff, not_and]
    omega
  · rename_i hv
    rw [Bool.not_eq_false, decide_eq_true_eq] at hv
    split
    · rename_i hfree
      simp only [reduceCtorEq, false_iff, not_and]
      rintro rfl _ ht
      rw [Int.toNat_natCast, ht] at hfree
      cases hfree
    · rename_i hfree
      rw [← ne_eq, hcases] at hfree
      rw [Option.some.injEq]
      constructor
      · rintro rfl
        exact ⟨by omega, by omega, hfree⟩
      · rintro ⟨rfl, _, _⟩
        exact Int.toNat_natCast i

/-- An open handle is on a file, at an offset that a file can have. -/
theorem Inv.on_file {s : State} (h : Inv s) {fhandle : Int} {i : Nat}
    (hget : getOpenFileEntry s fhandle = some i) :
    ∃ f : Nat, (s.open_file_table i).of_inumber = f ∧ FileInode s.disk f ∧
      (s.open_file_table i).of_offset ≤ MAX_FILE_SIZE := by
  obtain ⟨_, hi, ht⟩ := getOpenFileEntry_eq_some.mp hget
  exact h.handle i hi ht

theorem Inv.open_on_file {s : State} (h : Inv s) {fhandle : Int} {i f : Nat}
    (hget : getOpenFileEntry s fhandle = some i) (hin : (s.open_file_table i).of_inumber = f) :
    FileInode s.disk f ∧ (s.open_file_table i).of_offset ≤ MAX_FILE_SIZE := by
  obtain ⟨g, hg, hf, ho⟩ := h.on_file hget
  obtain rfl : g = f := by omega
  exact ⟨hf, ho⟩

/-- A close gives back the slot of an open handle and does nothing else. -/
theorem tfsClose_cases (s : State) (fhandle : Int) :
    tfsClose s fhandle = (-1, s) ∨
      ∃ i < MAX_OPEN_FILES, fhandle = i ∧ s.free_open_file_entries i = .TAKEN ∧
        tfsClose s fhandle = (0, { s with
          free_open_file_entries := Function.update s.free_open_file_entries i .FREE }) := by
  unfold tfsClose removeFromOpenFileTable
  split
  · exact Or.inl rfl
  · rename_i hv
    rw [Bool.not_eq_false, validFileHandle, decide_eq_true_eq] at hv
    split
    · exact Or.inl rfl
    · rename_i ht
      exact Or.inr ⟨fhandle.toNat, by omega, by omega, not_not.mp ht, rfl⟩

/-! ## What an open does -/

theorem openFound_eq {s : State} (h : DiskInv s.disk) {f : Nat} (hf : FileInode s.disk f)
    (flags : BitVec 32) :
    openFound s flags f = addToOpenFileTable { s with disk := afterTrunc s.disk flags f } f
      (initialOffset (afterTrunc s.disk flags f) flags f).1
      (initialOffset (afterTrunc s.disk flags f) flags f).2 := by
  unfold openFound
  simp only [openExistingFile_eq h hf, zero_ne_neg_one, if_false]

/-- The ways in which `tfs_open` can end: refused, no room for a new file, a file that was
found, a file that was created. -/
theorem tfsOpen_cases {s : State} (h : DiskInv s.disk) (name : Option CString) (flags : BitVec 32) :
    tfsOpen s name flags = (-1, s) ∨
    (∃ i, FreeInode s.disk i ∧ tfsOpen s name flags = (-1, { s with disk := undone s.disk i })) ∨
    (∃ path, ∃ f : Nat, name = some path ∧ tfsLookup s.disk path = f ∧ FileInode s.disk f ∧
      tfsOpen s name flags = addToOpenFileTable { s with disk := afterTrunc s.disk flags f } f
        (initialOffset (afterTrunc s.disk flags f) flags f).1
        (initialOffset (afterTrunc s.disk flags f) flags f).2) ∨
    (∃ path i j, name = some path ∧ validPathname (some path) = true ∧
      tfsLookup s.disk path = -1 ∧ FreeInode s.disk i ∧
      firstEmptyEntry s.disk.fs_data (rootAddr s.disk) = some j ∧
      tfsOpen s name flags =
        addToOpenFileTable { s with disk := createdFile s.disk i j path } i 0 false) := by
  cases name with
  | none => exact Or.inl rfl
  | some path =>
    unfold tfsOpen
    by_cases hv : validPathname (some path) = false
    · simp only [hv, if_true]
      exact Or.inl trivial
    rw [Bool.not_eq_false] at hv
    simp only [hv, Bool.true_eq_false, if_false]
    rcases tfsLookup_cases h path with hl | ⟨f, hl, hf⟩
    · simp only [hl, not_zero_le_neg_one, if_false]
      split
      · rcases createCritical_cases h hv with ⟨f, hl', _, _⟩ | ⟨_, hc | ⟨i, hi, hc⟩⟩ |
          ⟨_, i, j, hi, hj, hc⟩
        · omega
        · simp only [hc]
          exact Or.inl trivial
        · simp only [hc]
          exact Or.inr (Or.inl ⟨i, hi, rfl⟩)
        · simp only [hc]
          exact Or.inr (Or.inr (Or.inr ⟨path, i, j, rfl, hv, hl, hi, hj, rfl⟩))
      · exact Or.inl rfl
    · simp only [hl, Int.natCast_nonneg, if_true]
      exact Or.inr (Or.inr (Or.inl ⟨path, f, rfl, hl, hf, openFound_eq h hf flags⟩))

/-- The ways in which an open that gives a handle can end. -/
theorem tfsOpen_ok_cases {s : State} (h : DiskInv s.disk) {path : CString} {flags : BitVec 32}
    (hok : 0 ≤ (tfsOpen s (some path) flags).1) :
    (∃ f : Nat, tfsLookup s.disk path = f ∧ FileInode s.disk f ∧
      tfsOpen s (some path) flags = addToOpenFileTable { s with disk := afterTrunc s.disk flags f } f
        (initialOffset (afterTrunc s.disk flags f) flags f).1
        (initialOffset (afterTrunc s.disk flags f) flags f).2) ∨
    (∃ i j, validPathname (some path) = true ∧ tfsLookup s.disk path = -1 ∧ FreeInode s.disk i ∧
      firstEmptyEntry s.disk.fs_data (rootAddr s.disk) = some j ∧
      tfsOpen s (some path) flags =
        addToOpenFileTable { s with disk := createdFile s.disk i j path } i 0 false) := by
  rcases tfsOpen_cases h (some path) flags with hr | ⟨i, _, hr⟩ | ⟨p, f, hp, hl, hf, hr⟩ |
    ⟨p, i, j, hp, hv, hl, hi, hj, hr⟩
  · rw [hr] at hok
    exact (not_zero_le_neg_one hok).elim
  · rw [hr] at hok
    exact (not_zero_le_neg_one hok).elim
  · obtain rfl := Option.some.inj hp
    exact Or.inl ⟨f, hl, hf, hr⟩
  · obtain rfl := Option.some.inj hp
    exact Or.inr ⟨i, j, hv, hl, hi, hj, hr⟩

/-! ## What a write and a read do -/

@[simp] theorem sizeSet_freeinode (d : Disk) (f n : Nat) :
    (sizeSet d f n).freeinode_ts = d.freeinode_ts := rfl
@[simp] theorem sizeSet_data (d : Disk) (f n : Nat) : (sizeSet d f n).fs_data = d.fs_data := rfl

theorem sizeSet_self (d : Disk) (f n : Nat) :
    (sizeSet d f n).inode_table f =
      { d.inode_table f with i_size := max (d.inode_table f).i_size n } := by
  unfold sizeSet
  rw [Disk.modInode_self]
  split
  · rw [Nat.max_eq_right (by omega)]
  · rw [Nat.max_eq_left (by omega)]

theorem sizeSet_of_ne (d : Disk) {f g : Nat} (n : Nat) (hg : g ≠ f) :
    (sizeSet d f n).inode_table g = d.inode_table g := Disk.modInode_of_ne _ _ _ hg

/-- Apart from its size, the inode stays. -/
theorem sizeSet_inode (d : Disk) (f g n : Nat) :
    ∃ m, (sizeSet d f n).inode_table g = { d.inode_table g with i_size := m } := by
  by_cases hg : g = f
  · subst hg
    exact ⟨_, sizeSet_self d g n⟩
  · exact ⟨(d.inode_table g).i_size, sizeSet_of_ne d n hg⟩

theorem sizeSet_fileInode (d : Disk) (f n g : Nat) :
    FileInode (sizeSet d f n) g ↔ FileInode d g := by
  obtain ⟨m, hm⟩ := sizeSet_inode d f g n
  simp only [FileInode, sizeSet_freeinode, hm]

theorem sizeSet_blockNo (d : Disk) (f n g k : Nat) :
    blockNo (sizeSet d f n) g k = blockNo d g k := by
  obtain ⟨m, hm⟩ := sizeSet_inode d f g n
  simp only [blockNo, indirectAddr, hm, sizeSet_data]

theorem sizeSet_blocksAlloc (d : Disk) (f n g : Nat) :
    ((sizeSet d f n).inode_table g).blocksAlloc = (d.inode_table g).blocksAlloc := by
  obtain ⟨m, hm⟩ := sizeSet_inode d f g n
  rw [hm]

theorem DiskInv.sizeSet {d : Disk} (h : DiskInv d) (f n : Nat) : DiskInv (sizeSet d f n) := by
  have hroot : rootBlock (parte1.sizeSet d f n) = rootBlock d := by
    obtain ⟨m, hm⟩ := sizeSet_inode d f ROOT_DIR_INUM n
    unfold rootBlock
    rw [hm]
  refine h.step ⟨rfl, fun g => ?_⟩ ⟨hroot, fun _ _ => rfl⟩ (fun g hg => ?_)
    (h.exact.congr (fun _ => Iff.rfl) fun o => ?_)
  · obtain ⟨m, hm⟩ := sizeSet_inode d f g n
    rw [hm]
  · rw [sizeSet_blocksAlloc]
    exact h.blocks_le g hg
  · cases o with
    | root => simp only [ownedBlock, hroot]
    | data g k =>
      simp only [ownedBlock, sizeSet_fileInode, sizeSet_blocksAlloc, sizeSet_blockNo]
    | indirect g =>
      obtain ⟨m, hm⟩ := sizeSet_inode d f g n
      simp only [ownedBlock, sizeSet_fileInode, hm]

/-- The bytes of a write stay inside the blocks of its file. -/
theorem copied_inRoom (d : Disk) (f o : Nat) (buffer : List UInt8) :
    InRoom (grownFor d f buffer.length o) f o
      (buffer.take (copied d f buffer.length o)).length := by
  apply inRoom_of_le
  have := List.length_take_le (copied d f buffer.length o) buffer
  unfold copied at *
  omega

/-- The write under its locks keeps the disk, the files and the inode of the entry. -/
theorem writeCritical_inv {d : Disk} {f : Nat} (h : DiskInv d) (hf : FileInode d f)
    (file : OpenFileEntry) (buffer : List UInt8) :
    DiskInv (writeCritical d file f buffer).2.1 ∧
      (∀ g, FileInode (writeCritical d file f buffer).2.1 g ↔ FileInode d g) ∧
      (writeCritical d file f buffer).2.2.of_inumber = file.of_inumber := by
  obtain ⟨hinv, hg⟩ := grownFor_spec h hf buffer.length (offsetAt d file f)
  have hst := hinv.stored ((hg.fileInode f).mpr hf) (copied_inRoom d f (offsetAt d file f) buffer)
  rw [writeCritical_eq h hf]
  simp only
  split
  · exact ⟨h, fun _ => Iff.rfl, rfl⟩
  · split
    · exact ⟨hst, hg.fileInode, rfl⟩
    · exact ⟨hst.sizeSet f _, fun g => (sizeSet_fileInode _ f _ g).trans (hg.fileInode g), rfl⟩

theorem offsetAt_le {d : Disk} {f : Nat} {file : OpenFileEntry} (ho : file.of_offset ≤ MAX_FILE_SIZE)
    (hs : (d.inode_table f).i_size ≤ MAX_FILE_SIZE) : offsetAt d file f ≤ MAX_FILE_SIZE := by
  unfold offsetAt
  split
  · exact hs
  · exact ho

/-- Sizes and offsets stay in range. -/
theorem writeCritical_bounds {d : Disk} {f : Nat} (h : DiskInv d) (hf : FileInode d f)
    {file : OpenFileEntry} (buffer : List UInt8) (ho : file.of_offset ≤ MAX_FILE_SIZE)
    (hs : ∀ g, FileInode d g → (d.inode_table g).i_size ≤ MAX_FILE_SIZE) :
    (writeCritical d file f buffer).2.2.of_offset ≤ MAX_FILE_SIZE ∧
      ∀ g, FileInode d g →
        ((writeCritical d file f buffer).2.1.inode_table g).i_size ≤ MAX_FILE_SIZE := by
  have hoff := offsetAt_le ho (hs f hf)
  obtain ⟨hinv, hg⟩ := grownFor_spec h hf buffer.length (offsetAt d file f)
  have hroom := hinv.room_le ((hg.fileInode f).mpr hf)
  have hend : offsetAt d file f + copied d f buffer.length (offsetAt d file f) ≤ MAX_FILE_SIZE := by
    unfold copied
    omega
  have hsize : ∀ g, FileInode d g →
      ((grownFor d f buffer.length (offsetAt d file f)).inode_table g).i_size ≤ MAX_FILE_SIZE := by
    intro g hgf
    by_cases he : g = f
    · subst he
      rw [hg.size]
      exact hs g hf
    · rw [hg.inode_other g he]
      exact hs g hgf
  rw [writeCritical_eq h hf]
  simp only
  split
  · exact ⟨hoff, hs⟩
  · split
    · exact ⟨hoff, hsize⟩
    · refine ⟨hend, fun g hgf => ?_⟩
      by_cases he : g = f
      · subst he
        rw [sizeSet_self]
        exact max_le (hsize g hgf) hend
      · rw [sizeSet_of_ne _ _ he]
        exact hsize g hgf

theorem readCritical_entry {d : Disk} {f : Nat} (h : DiskInv d) (hf : FileInode d f)
    {file : OpenFileEntry} (len : Nat) (ho : file.of_offset ≤ MAX_FILE_SIZE) :
    (readCritical d file f len).2.of_inumber = file.of_inumber ∧
      (readCritical d file f len).2.of_offset ≤ MAX_FILE_SIZE := by
  have hroom := h.room_le hf
  rw [readCritical_eq h hf]
  simp only
  split
  · exact ⟨rfl, ho⟩
  · refine ⟨rfl, ?_⟩
    simp only
    omega

/-- A write that is not refused runs on the file of an open handle. -/
theorem tfsWrite_cases {s : State} (h : Inv s) (fhandle : Int) (buffer : List UInt8) :
    (getOpenFileEntry s fhandle = none ∧ tfsWrite s fhandle buffer = (-1, s)) ∨
      ∃ i f : Nat, getOpenFileEntry s fhandle = some i ∧ (s.open_file_table i).of_inumber = f ∧
        FileInode s.disk f ∧
        tfsWrite s fhandle buffer =
          ((writeCritical s.disk (s.open_file_table i) f buffer).1,
            fillEntry
              { s with disk := (writeCritical s.disk (s.open_file_table i) f buffer).2.1 } i
              (writeCritical s.disk (s.open_file_table i) f buffer).2.2) := by
  unfold tfsWrite
  rcases hget : getOpenFileEntry s fhandle with _ | i
  · exact Or.inl ⟨rfl, rfl⟩
  · obtain ⟨f, hin, hf, _⟩ := h.on_file hget
    refine Or.inr ⟨i, f, rfl, hin, hf, ?_⟩
    simp only [hin, inodeGet_file hf]

theorem tfsRead_cases {s : State} (h : Inv s) (fhandle : Int) (len : Nat) :
    (getOpenFileEntry s fhandle = none ∧ tfsRead s fhandle len = ((-1, []), s)) ∨
      ∃ i f : Nat, getOpenFileEntry s fhandle = some i ∧ (s.open_file_table i).of_inumber = f ∧
        FileInode s.disk f ∧
        tfsRead s fhandle len =
          if (s.open_file_table i).isAppending then ((0, []), s)
          else ((readCritical s.disk (s.open_file_table i) f len).1,
            fillEntry s i (readCritical s.disk (s.open_file_table i) f len).2) := by
  unfold tfsRead
  rcases hget : getOpenFileEntry s fhandle with _ | i
  · exact Or.inl ⟨rfl, rfl⟩
  · obtain ⟨f, hin, hf, _⟩ := h.on_file hget
    refine Or.inr ⟨i, f, rfl, hin, hf, ?_⟩
    simp only [hin, inodeGet_file hf]

/-! ## Every operation keeps the invariant -/

/-- A step of the disk that keeps the files. -/
theorem Inv.setDisk {s : State} {d : Disk} (h : Inv s) (hd : DiskInv d)
    (hf : ∀ f, FileInode s.disk f → FileInode d f)
    (hs : ∀ f, FileInode d f → (d.inode_table f).i_size ≤ MAX_FILE_SIZE) :
    Inv { s with disk := d } where
  disk := hd
  size_le := hs
  handle := by
    intro i hi ht
    obtain ⟨f, hin, hfile, ho⟩ := h.handle i hi ht
    exact ⟨f, hin, hf f hfile, ho⟩

theorem Inv.withHandle {s : State} (h : Inv s) {f : Nat} (hf : FileInode s.disk f) (i : Nat)
    {o : Nat} (ho : o ≤ MAX_FILE_SIZE) (a : Bool) : Inv (withHandle s i ⟨f, o, a⟩) where
  disk := h.disk
  size_le := h.size_le
  handle := by
    intro j hj ht
    by_cases hji : j = i
    · subst hji
      exact ⟨f, by simp [parte1.withHandle], hf, by simpa [parte1.withHandle] using ho⟩
    · simp only [parte1.withHandle, Function.update_of_ne hji] at ht ⊢
      exact h.handle j hj ht

theorem Inv.addToOpenFileTable {s : State} (h : Inv s) {f o : Nat} (hf : FileInode s.disk f)
    (ho : o ≤ MAX_FILE_SIZE) (a : Bool) : Inv (addToOpenFileTable s f o a).2 := by
  rcases addToOpenFileTable_cases s f o a with hr | ⟨i, _, _, hr⟩
  · rw [hr]
    exact h
  · rw [hr]
    exact h.withHandle hf i ho a

theorem Inv.fillEntry {s : State} (h : Inv s) {i f : Nat} {e : OpenFileEntry}
    (he : e.of_inumber = f) (hf : FileInode s.disk f) (ho : e.of_offset ≤ MAX_FILE_SIZE) :
    Inv (fillEntry s i e) where
  disk := h.disk
  size_le := h.size_le
  handle := by
    intro j hj ht
    by_cases hji : j = i
    · subst hji
      exact ⟨f, by simpa [parte1.fillEntry] using he, hf, by simpa [parte1.fillEntry] using ho⟩
    · simp only [parte1.fillEntry, Function.update_of_ne hji]
      exact h.handle j hj ht

theorem afterTrunc_size {d : Disk} (flags : BitVec 32) (f g : Nat) :
    ((afterTrunc d flags f).inode_table g).i_size ≤ (d.inode_table g).i_size := by
  unfold afterTrunc
  split
  · by_cases hg : g = f
    · subst hg
      simp [truncated]
    · rw [truncated_of_ne d hg]
  · exact le_rfl

theorem createdFile_fileInode {d : Disk} {i j : Nat} (hi : FreeInode d i) (name : CString) (g : Nat) :
    FileInode (createdFile d i j name) g ↔ FileInode d g ∨ g = i := freshFile_fileInode hi g

theorem initialOffset_le {s : State} (h : Inv s) {f : Nat} (hf : FileInode s.disk f)
    (flags : BitVec 32) :
    (initialOffset (afterTrunc s.disk flags f) flags f).1 ≤ MAX_FILE_SIZE := by
  unfold initialOffset
  split
  · exact (afterTrunc_size flags f f).trans (h.size_le f hf)
  · exact Nat.zero_le _

theorem Inv.tfsOpen {s : State} (h : Inv s) (name : Option CString) (flags : BitVec 32) :
    Inv (tfsOpen s name flags).2 := by
  rcases tfsOpen_cases h.disk name flags with hr | ⟨i, hi, hr⟩ | ⟨path, f, _, _, hf, hr⟩ |
    ⟨path, i, j, _, _, _, hi, hj, hr⟩ <;> rw [hr]
  · exact h
  · refine h.setDisk (h.disk.undone hi) (fun f => (undone_fileInode hi f).mpr) fun f hf => ?_
    have hf' := (undone_fileInode hi f).mp hf
    refine le_trans (le_of_eq ?_) (h.size_le f hf')
    simp only [undone, Disk.setFreeinode_inode, freshFile_of_ne _ (hi.not_file hf')]
  · have hkeep := afterTrunc_fileInode s.disk flags f
    have hinv := h.setDisk (afterTrunc_inv h.disk hf flags) (fun g => (hkeep g).mpr)
      fun g hg => (afterTrunc_size flags f g).trans (h.size_le g ((hkeep g).mp hg))
    exact hinv.addToOpenFileTable ((hkeep f).mpr hf) (initialOffset_le h hf flags) _
  · have hfiles := @createdFile_fileInode _ _ j hi path
    have hinv := h.setDisk (h.disk.createdFile hi hj path)
      (fun f hf => (hfiles f).mpr (Or.inl hf)) fun f hf => by
        by_cases he : f = i
        · subst he
          simp [createdFile, freshFile]
        · refine le_trans (le_of_eq ?_) (h.size_le f (((hfiles f).mp hf).resolve_right he))
          exact congrArg Inode.i_size (freshFile_of_ne _ he)
    exact hinv.addToOpenFileTable ((hfiles i).mpr (Or.inr rfl)) (Nat.zero_le _) _

theorem Inv.tfsClose {s : State} (h : Inv s) (fhandle : Int) : Inv (tfsClose s fhandle).2 := by
  rcases tfsClose_cases s fhandle with hr | ⟨i, _, _, _, hr⟩ <;> rw [hr]
  · exact h
  · refine ⟨h.disk, h.size_le, fun j hj ht => h.handle j hj ?_⟩
    by_cases hji : j = i
    · subst hji
      simp at ht
    · simpa only [Function.update_of_ne hji] using ht

theorem Inv.tfsWrite {s : State} (h : Inv s) (fhandle : Int) (buffer : List UInt8) :
    Inv (tfsWrite s fhandle buffer).2 := by
  rcases tfsWrite_cases h fhandle buffer with ⟨_, hr⟩ | ⟨i, f, hget, hin, hf, hr⟩ <;> rw [hr]
  · exact h
  · obtain ⟨_, ho⟩ := h.open_on_file hget hin
    obtain ⟨hd, hfiles, hnum⟩ := writeCritical_inv h.disk hf (s.open_file_table i) buffer
    obtain ⟨hoff, hsize⟩ := writeCritical_bounds h.disk hf buffer ho h.size_le
    have hinv := h.setDisk hd (fun g => (hfiles g).mpr) fun g hg => hsize g ((hfiles g).mp hg)
    exact hinv.fillEntry (hnum.trans hin) ((hfiles f).mpr hf) hoff

theorem Inv.tfsRead {s : State} (h : Inv s) (fhandle : Int) (len : Nat) :
    Inv (tfsRead s fhandle len).2 := by
  rcases tfsRead_cases h fhandle len with ⟨_, hr⟩ | ⟨i, f, hget, hin, hf, hr⟩ <;> rw [hr]
  · exact h
  · obtain ⟨_, ho⟩ := h.open_on_file hget hin
    obtain ⟨hnum, hoff⟩ := readCritical_entry h.disk hf len ho
    split
    · exact h
    · exact h.fillEntry (hnum.trans hin) hf hoff

theorem Inv.copyLoop {s : State} (h : Inv s) (fhandle : Int) (rounds : Nat) :
    Inv (copyLoop fhandle rounds s).state := by
  induction rounds generalizing s with
  | zero => exact h
  | succ rounds ih =>
    have hread := h.tfsRead fhandle BUFFER_SIZE
    by_cases hr : 0 < (parte1.tfsRead s fhandle BUFFER_SIZE).1.1
    · simp only [parte1.copyLoop, hr, if_true]
      exact ih hread
    · simp only [parte1.copyLoop, hr, if_false]
      exact hread

theorem Inv.tfsCopyToExternalFs {s : State} (h : Inv s) (source_path : Option CString)
    (destOpens : Bool) : Inv (tfsCopyToExternalFs s source_path destOpens).2 := by
  unfold parte1.tfsCopyToExternalFs
  cases source_path with
  | none => exact h
  | some path =>
    have ho := h.tfsOpen (some path) TFS_O_CREAT
    have hc := ho.copyLoop (parte1.tfsOpen s (some path) TFS_O_CREAT).1 (MAX_FILE_SIZE + 1)
    simp only
    split
    · exact h
    · split
      · exact ho
      · split
        · exact ho.tfsClose _
        · split
          · exact hc
          · exact hc.tfsClose _

theorem Inv.exec {s : State} (h : Inv s) (op : Op) : Inv (exec s op).2 := by
  cases op with
  | tfsOpen name flags => exact h.tfsOpen name flags
  | tfsClose fhandle => exact h.tfsClose fhandle
  | tfsRead fhandle len => exact h.tfsRead fhandle len
  | tfsWrite fhandle buffer => exact h.tfsWrite fhandle buffer
  | tfsCopyToExternalFs source_path destOpens => exact h.tfsCopyToExternalFs source_path destOpens

theorem Reachable.inv {s : State} (h : Reachable s) : Inv s :=
  runs.Reachable.invariant (P := Inv) (fun _ h0 => h0.inv) (fun _ op hs => hs.exec op) h

/-! ## The law of the blocks -/

/-- Every taken block has one owner and every free block has none, in every state that any
sequence of calls leads to. -/
theorem every_taken_block_has_one_owner (s : State) (h : Reachable s) :
    (∀ b < DATA_BLOCKS, s.disk.free_blocks b = .TAKEN → ∃! o, ownedBlock s.disk o = some (b : Int)) ∧
      (∀ b < DATA_BLOCKS, s.disk.free_blocks b = .FREE → ∀ o, ownedBlock s.disk o ≠ some (b : Int)) ∧
      ∀ o b, ownedBlock s.disk o = some b → 0 ≤ b ∧ b < DATA_BLOCKS := by
  have hex := h.inv.disk.exact
  refine ⟨fun b hb ht => hex.existsUnique ⟨validBlockNumber_nat hb, ht⟩,
    fun b hb hfree => hex.no_owner (not_taken_of_free ⟨hb, hfree⟩), ?_⟩
  exact fun o b ho => (hex.taken_of_own ho).bounds

/-- The path `/f`. -/
def pathF : CString := ⟨[slash, 102], by decide⟩

/-- The path `/g`. -/
def pathG : CString := ⟨[slash, 103], by decide⟩

/-- The state after `/f` was created and one byte was written to it. -/
def oneByteWritten : State :=
  (runs.run exec (tfsInit zeroed).2 [.tfsOpen (some pathF) TFS_O_CREAT, .tfsWrite 0 [7]]).2

theorem oneByteWritten_reachable : Reachable oneByteWritten := by
  rw [oneByteWritten]
  exact runs.Reachable.run (.start ⟨zeroed, rfl⟩) _

theorem block_one_has_one_owner : ∃! o, ownedBlock oneByteWritten.disk o = some 1 :=
  (every_taken_block_has_one_owner oneByteWritten oneByteWritten_reachable).1 1 (by decide)
    (by decide +kernel)

/-- Handle 0 is at the end of the byte, in the file with inode 1. -/
theorem oneByteWritten_handle : getOpenFileEntry oneByteWritten 0 = some 0 ∧
    oneByteWritten.open_file_table 0 = ⟨1, 1, false⟩ := by
  decide +kernel

theorem oneByteWritten_inumber : (oneByteWritten.open_file_table 0).of_inumber = (1 : Nat) :=
  congrArg OpenFileEntry.of_inumber oneByteWritten_handle.2

theorem oneByteWritten_file : FileInode oneByteWritten.disk 1 ∧
    tfsLookup oneByteWritten.disk pathF = (1 : Nat) ∧
    (oneByteWritten.disk.inode_table 1).i_size = 1 ∧
    (oneByteWritten.disk.inode_table 1).blocksAlloc = 1 := by
  decide +kernel

/-- The bytes of "hello". -/
def hello : List UInt8 := [104, 101, 108, 108, 111]

/-- The state after "hello" was written to `/f`, and `/f` opened again. -/
def helloWritten : State :=
  (runs.run exec (tfsInit zeroed).2 [.tfsOpen (some pathF) TFS_O_CREAT, .tfsWrite 0 hello,
    .tfsOpen (some pathF) 0]).2

theorem helloWritten_reachable : Reachable helloWritten := by
  rw [helloWritten]
  exact runs.Reachable.run (.start ⟨zeroed, rfl⟩) _

/-- Handle 1 is at the start of the text. -/
theorem helloWritten_handle : getOpenFileEntry helloWritten 1 = some 1 ∧
    helloWritten.open_file_table 1 = ⟨1, 0, false⟩ := by
  decide +kernel

end tecnicofs.parte1
