-- The laws of the server's disk in every run whose reads and writes go through
-- open handles, with any names and any flags: also where a file was truncated
-- under a handle that is far behind its end.
import TecnicoFS.Parte2.Contents

open byte_memory ownership

namespace tecnicofs.parte2

/-- The reads and writes of the calls go through open handles, with buffers that fit in memory. -/
def ThroughOpenHandles (s : State) : Op → Prop
  | .tfsRead fhandle _ => OpenHandle s fhandle
  | .tfsWrite fhandle buffer => OpenHandle s fhandle ∧ buffer.length < 2 ^ 63
  | _ => True

instance (s : State) (fhandle : Int) : Decidable (OpenHandle s fhandle) := by
  unfold OpenHandle
  infer_instance

instance (s : State) : (op : Op) → Decidable (ThroughOpenHandles s op)
  | .tfsRead fhandle _ => inferInstanceAs (Decidable (OpenHandle s fhandle))
  | .tfsWrite fhandle buffer =>
    inferInstanceAs (Decidable (OpenHandle s fhandle ∧ buffer.length < 2 ^ 63))
  | .tfsLookup _ | .tfsOpen _ _ | .tfsClose _ | .tfsDestroyAfterAllClosed => isTrue trivial

/-- What is known after any of these calls. An offset may be behind the end of its file, but not
behind the last block. -/
structure Sound (s : State) : Prop where
  disk : DiskInv s.disk
  filled : ∃ n, Filled s.disk n
  handle : ∀ i < MAX_OPEN_FILES, s.free_open_file_entries i = .TAKEN →
    ∃ f : Nat, (s.open_file_table i).of_inumber = f ∧ FileInode s.disk f ∧
      (s.open_file_table i).of_offset ≤ FS_DATA_SIZE

/-- The directory stays where it is, and what is in its entries stays. -/
structure Grows (d d' : Disk) : Prop where
  block : rootBlock d' = rootBlock d
  inumber : ∀ k < MAX_DIR_ENTRIES, dInumber d.fs_data (rootAddr d) k ≠ -1 →
    dInumber d'.fs_data (rootAddr d) k = dInumber d.fs_data (rootAddr d) k
  name : ∀ k < MAX_DIR_ENTRIES, dInumber d.fs_data (rootAddr d) k ≠ -1 →
    dName d'.fs_data (rootAddr d) k = dName d.fs_data (rootAddr d) k

theorem Grows.refl (d : Disk) : Grows d d := ⟨rfl, fun _ _ _ => rfl, fun _ _ _ => rfl⟩

theorem Grows.trans {d d' d'' : Disk} (h : Grows d d') (h' : Grows d' d'') : Grows d d'' := by
  have haddr : rootAddr d' = rootAddr d := by
    unfold rootAddr
    rw [h.block]
  refine ⟨h'.block.trans h.block, fun k hk hne => ?_, fun k hk hne => ?_⟩
  · have hnum := h.inumber k hk hne
    have := h'.inumber k hk (by rw [haddr, hnum]; exact hne)
    rw [haddr] at this
    exact this.trans hnum
  · have := h'.name k hk (by rw [haddr, h.inumber k hk hne]; exact hne)
    rw [haddr] at this
    exact this.trans (h.name k hk hne)

/-- The directory is the same. -/
theorem Grows.of_same {d d' : Disk} (hb : rootBlock d' = rootBlock d)
    (hm : ∀ j < BLOCK_SIZE, d'.fs_data (rootAddr d + j) = d.fs_data (rootAddr d + j)) : Grows d d' :=
  ⟨hb, fun _ hk _ => dInumber_congr hk hm, fun _ hk _ => dName_congr hk hm⟩

/-! ## What each call keeps -/

theorem Sound.setDisk {s : State} (h : Sound s) {d : Disk} {n : Nat} (hd : DiskInv d)
    (hn : Filled d n) (hf : ∀ f, FileInode s.disk f → FileInode d f) :
    Sound { s with disk := d } where
  disk := hd
  filled := ⟨n, hn⟩
  handle := fun i hi ht => by
    obtain ⟨f, hnum, hfile, ho⟩ := h.handle i hi ht
    exact ⟨f, hnum, hf f hfile, ho⟩

/-- Slot `i` gets an entry on a file. -/
theorem Sound.setEntry {s s' : State} (h : Sound s) {i f o : Nat} (hd : s'.disk = s.disk)
    (hf : FileInode s.disk f) (ho : o ≤ FS_DATA_SIZE)
    (htable : s'.open_file_table = Function.update s.open_file_table i ⟨f, o⟩)
    (hfree : ∀ j, j ≠ i → s'.free_open_file_entries j = s.free_open_file_entries j) : Sound s' where
  disk := by rw [hd]; exact h.disk
  filled := by rw [hd]; exact h.filled
  handle := fun j hj ht => by
    rw [hd, htable]
    by_cases hji : j = i
    · subst hji
      exact ⟨f, by simp, hf, by simpa using ho⟩
    · rw [hfree j hji] at ht
      simp only [Function.update_of_ne hji]
      exact h.handle j hj ht

theorem Sound.addToOpenFileTable {s : State} (h : Sound s) {f offset : Nat}
    (hf : FileInode s.disk f) (ho : offset ≤ FS_DATA_SIZE) :
    Sound (addToOpenFileTable s f offset).2 := by
  rcases addToOpenFileTable_cases s f offset with he | ⟨i, _, _, he⟩ <;> rw [he]
  · exact h
  · exact h.setEntry (i := i) rfl hf ho rfl fun j hji => by
      simp [withHandle, Function.update_of_ne hji]

theorem addToOpenFileTable_disk (s : State) (inumber : Int) (offset : Nat) :
    (addToOpenFileTable s inumber offset).2.disk = s.disk := by
  rcases addToOpenFileTable_cases s inumber offset with he | ⟨i, _, _, he⟩ <;> rw [he]
  rfl

theorem createdFile_grows {d : Disk} {n : Nat} (hn : Filled d n) (hroom : n < MAX_DIR_ENTRIES)
    (name : CString) : Grows d (createdFile d (n + 1) n name) := by
  have hroot : (freshFile d (n + 1)).inode_table ROOT_DIR_INUM = d.inode_table ROOT_DIR_INUM :=
    freshFile_of_ne d (root_ne_next n)
  have hdata : (createdFile d (n + 1) n name).fs_data =
      tecnicofs.fillDirEntry d.fs_data (rootAddr d) n (n + 1 : Nat) name := by
    rw [← fillDirEntry_eq]
    unfold createdFile filled rootAddr rootBlock
    rw [hroot]
    rfl
  -- the entry that is filled was empty
  have hother : ∀ k, dInumber d.fs_data (rootAddr d) k ≠ -1 → k ≠ n := by
    rintro k hne rfl
    exact hne (hn.dir.empty k le_rfl hroom)
  refine ⟨congrArg Inode.i_data_block hroot, fun k _ hne => ?_, fun k _ hne => ?_⟩ <;> rw [hdata]
  · exact dInumber_fill_of_ne _ _ _ _ _ (hother k hne)
  · exact dName_fill_of_ne _ _ _ _ _ (hother k hne)

/-- A call keeps the laws, and only adds to the directory. -/
def Kept (s s' : State) : Prop := Sound s' ∧ Grows s.disk s'.disk

theorem Sound.kept {s : State} (h : Sound s) : Kept s s := ⟨h, .refl _⟩

theorem Sound.openUnsynchronized {s : State} (h : Sound s) {name : Option CString}
    {flags : BitVec 32} {r : Int × State} (hr : tfsOpenUnsynchronized s name flags = some r) :
    Kept s r.2 := by
  obtain ⟨n, hn⟩ := h.filled
  have hfree := hn.next_free
  unfold Kept
  rcases tfsOpenUnsynchronized_filled h.disk hn hr with rfl | rfl | ⟨f, hf, rfl⟩ |
    ⟨sub_name, hroom, rfl⟩
  · exact h.kept
  · refine ⟨h.setDisk (h.disk.undone hfree) hn.undone fun _ => undone_fileInode hfree, ?_⟩
    exact .of_same (congrArg Inode.i_data_block (freshFile_of_ne s.disk (root_ne_next n)))
      fun _ _ => rfl
  · have hkeep := afterTrunc_fileInode s.disk flags f
    have hdisk : DiskInv (afterTrunc s.disk flags f) := by
      unfold afterTrunc
      split
      · exact h.disk.truncated hf
      · exact h.disk
    have hs := h.setDisk hdisk (hn.afterTrunc flags hf) fun g => (hkeep g).mpr
    have ho := (initialOffset_le (afterTrunc s.disk flags f) flags f).trans
      (hdisk.size_le f ((hkeep f).mpr hf).2)
    refine ⟨hs.addToOpenFileTable ((hkeep f).mpr hf) (ho.trans (by decide)), ?_⟩
    rw [addToOpenFileTable_disk]
    refine .of_same ?_ fun _ _ => ?_
    · unfold afterTrunc
      split
      · exact congrArg Inode.i_data_block (truncated_of_ne s.disk hf.1.symm)
      · rfl
    · unfold afterTrunc
      split
      · exact congrFun (truncated_data s.disk f) _
      · rfl
  · have hfile : FileInode (freshFile s.disk (n + 1)) (n + 1) :=
      ⟨Nat.succ_ne_zero n, by simp [freshFile_freeinode]⟩
    have hs := h.setDisk ((h.disk.freshFile hfree).filled hfile hroom sub_name)
      (hn.createdFile hroom sub_name) fun _ => freshFile_fileInode hfree
    refine ⟨hs.addToOpenFileTable hfile (Nat.zero_le _), ?_⟩
    rw [addToOpenFileTable_disk]
    exact createdFile_grows hn hroom sub_name

theorem Sound.tfsClose {s : State} (h : Sound s) (fhandle : Int) : Kept s (tfsClose s fhandle).2 := by
  rcases tfsClose_cases s fhandle with ⟨_, he⟩ | ⟨i, _, _, _, he⟩ <;> rw [he]
  · exact h.kept
  · refine ⟨⟨h.disk, h.filled, fun j hj ht => ?_⟩, .refl _⟩
    by_cases hji : j = i
    · subst hji
      simp [withoutHandle] at ht
    · exact h.handle j hj (by simpa [withoutHandle, Function.update_of_ne hji] using ht)

/-- An open handle of a sound state, as the reads and writes see it. -/
theorem Sound.openHandle {s : State} (h : Sound s) {fhandle : Int} (ho : OpenHandle s fhandle) :
    ∃ i f : Nat, getOpenFileEntry fhandle = some i ∧ (s.open_file_table i).of_inumber = f ∧
      FileInode s.disk f ∧ (s.open_file_table i).of_offset ≤ FS_DATA_SIZE := by
  obtain ⟨hv, ht⟩ := ho
  have hr := validFileHandle_eq_true.mp hv
  obtain ⟨f, hnum, hf, hoff⟩ := h.handle fhandle.toNat (by omega) ht
  exact ⟨fhandle.toNat, f, by simp [getOpenFileEntry, hv], hnum, hf, hoff⟩

/-- A copy that is defined ends in `fs_data`, and so does the offset behind it. -/
theorem Sound.tfsRead {s : State} (h : Sound s) {fhandle : Int} (ho : OpenHandle s fhandle) {len : Nat}
    {r : Answer × State} (hr : tfsRead s fhandle len = some r) : Kept s r.2 := by
  obtain ⟨i, f, hi, hnum, hf, hoff⟩ := h.openHandle ho
  obtain ⟨q, hq, rfl⟩ := Option.map_eq_some_iff.mp hr
  unfold tfsReadUnsynchronized at hq
  simp only [hi, hnum, h.disk.inodeGet hf.2] at hq
  split at hq
  · split at hq
    · cases hq
      exact h.kept
    · obtain ⟨bytes, hb, rfl⟩ := Option.map_eq_some_iff.mp hq
      unfold memcpyOut at hb
      split at hb
      · exact ⟨h.setEntry (i := i) rfl hf (by omega) rfl fun _ _ => rfl, .refl _⟩
      · cases hb
  · cases hq
    exact h.kept

/-- Behind the block, the wrapped difference is longer than any buffer. -/
theorem tfsWrite_behind {s : State} {n i f : Nat} {fhandle : Int} (h : DiskInv s.disk)
    (hn : Filled s.disk n) (hi : getOpenFileEntry fhandle = some i)
    (hnum : (s.open_file_table i).of_inumber = f) (hf : FileInode s.disk f)
    (ho : BLOCK_SIZE < (s.open_file_table i).of_offset)
    (hmax : (s.open_file_table i).of_offset ≤ FS_DATA_SIZE) {buffer : List UInt8}
    (hl : buffer.length < 2 ^ 63) : tfsWrite s fhandle buffer = none := by
  have hsum : sizeT ((buffer.length : Int) + (s.open_file_table i).of_offset) =
      buffer.length + (s.open_file_table i).of_offset := by
    unfold FS_DATA_SIZE at hmax
    unfold sizeT
    omega
  have hlong : buffer.length < bytesToWrite (s.open_file_table i).of_offset buffer.length := by
    unfold FS_DATA_SIZE at hmax
    unfold bytesToWrite
    rw [hsum, if_pos (by omega), sizeT_sub_wrap ho (by omega)]
    omega
  unfold tfsWrite tfsWriteUnsynchronized
  simp only [hi, hnum, h.inodeGet hf.2]
  rw [if_pos (by omega)]
  simp only [write_dataBlockGet h hn hf]
  unfold memcpyIn
  rw [if_neg (by omega)]
  rfl

theorem Sound.tfsWrite {s : State} (h : Sound s) {fhandle : Int} (ho : OpenHandle s fhandle)
    {buffer : List UInt8} (hl : buffer.length < 2 ^ 63) {r : Answer × State}
    (hr : tfsWrite s fhandle buffer = some r) : Kept s r.2 := by
  obtain ⟨i, f, hi, hnum, hf, hoff⟩ := h.openHandle ho
  obtain ⟨n, hn⟩ := h.filled
  rcases Nat.lt_or_ge BLOCK_SIZE (s.open_file_table i).of_offset with hbehind | hin
  · rw [tfsWrite_behind h.disk hn hi hnum hf hbehind hoff hl] at hr
    cases hr
  · rw [tfsWrite_eq h.disk hn hi hnum hf hin hl] at hr
    cases hr
    simp only
    split
    · exact h.kept
    · rename_i hpos
      have hlen := List.length_take_le (BLOCK_SIZE - (s.open_file_table i).of_offset) buffer
      have hend : (s.open_file_table i).of_offset +
          (buffer.take (BLOCK_SIZE - (s.open_file_table i).of_offset)).length ≤ BLOCK_SIZE := by
        omega
      have hd := writtenDisk_inv h.disk hn hf (Nat.pos_of_ne_zero hpos) hend
      have hs := h.setDisk hd (writtenDisk_filled h.disk hn hf hend) fun g hg =>
        ⟨hg.1, (congrFun (withDataBlock_freeinode s.disk f) g).trans hg.2⟩
      refine ⟨hs.setEntry (i := i) rfl ?_ (hend.trans (by decide)) rfl fun _ _ => rfl, ?_⟩
      · exact ⟨hf.1, (congrFun (withDataBlock_freeinode s.disk f) f).trans hf.2⟩
      · refine .of_same ?_ (writtenDisk_root h.disk hn hf hend)
        exact congrArg Inode.i_data_block
          ((grown_of_ne _ hf.1.symm _ _).trans (withDataBlock_of_ne s.disk hf.1.symm))

theorem Sound.next {s s' : State} {op : Op} (h : Sound s) (hop : ThroughOpenHandles s op)
    (he : next s op = some s') : Kept s s' := by
  obtain ⟨r, hr, rfl⟩ := Option.map_eq_some_iff.mp he
  cases op with
  | tfsLookup name =>
    cases hr
    exact h.kept
  | tfsOpen name flags =>
    simp only [exec, tfsOpen] at hr
    split at hr
    · cases hr
      exact h.kept
    · obtain ⟨q, hq, rfl⟩ := Option.map_eq_some_iff.mp hr
      obtain ⟨hs, hg⟩ := h.openUnsynchronized hq
      simp only
      split
      · exact ⟨⟨hs.disk, hs.filled, hs.handle⟩, hg⟩
      · exact ⟨hs, hg⟩
  | tfsClose fhandle =>
    cases hr
    exact h.tfsClose fhandle
  | tfsRead fhandle len => exact h.tfsRead hop hr
  | tfsWrite fhandle buffer => exact h.tfsWrite hop.1 hop.2 hr
  | tfsDestroyAfterAllClosed =>
    cases hr
    exact ⟨⟨h.disk, h.filled, h.handle⟩, .refl _⟩

theorem Initial.sound {s : State} (h : Initial s) : Sound s := by
  obtain ⟨raw, _, rfl⟩ := h
  rw [tfsInit_eq]
  exact ⟨firstDisk_inv raw.disk, ⟨0, firstDisk_filled raw.disk⟩, fun _ _ ht => by cases ht⟩

/-! ## The blocks -/

/-- Every block is free or belongs to one inode that is not empty, and there is always one left
for the next write. -/
structure BlockLaws (d : Disk) : Prop where
  taken_one : ∀ b < DATA_BLOCKS, d.free_blocks b = .TAKEN → ∃! f, ownedBlock d f = some (b : Int)
  free_none : ∀ b < DATA_BLOCKS, d.free_blocks b = .FREE → ∀ f, ownedBlock d f ≠ some (b : Int)
  owned_valid : ∀ f b, ownedBlock d f = some b → 0 ≤ b ∧ b < DATA_BLOCKS
  count : freeAmong DATA_BLOCKS d.free_blocks + (blockOwners d).card = DATA_BLOCKS
  available : ∃ b : Nat, (dataBlockAlloc d).1 = b

theorem Sound.blockLaws {s : State} (h : Sound s) : BlockLaws s.disk where
  taken_one := by
    intro b hb ht
    apply h.disk.exact.existsUnique
    refine ⟨?_, by rwa [Int.toNat_natCast]⟩
    simp only [validBlockNumber, decide_eq_true_eq]
    omega
  free_none := by
    intro b _ hfree
    apply h.disk.exact.no_owner
    intro ht
    have := ht.2
    rw [Int.toNat_natCast, hfree] at this
    cases this
  owned_valid := fun _ _ ho => (h.disk.exact.taken_of_own ho).bounds
  count := h.disk.block_count
  available := by
    obtain ⟨n, hn⟩ := h.filled
    obtain ⟨b, _, _, ha⟩ := hn.dataBlockAlloc h.disk
    exact ⟨b, by rw [ha]⟩

/-- The blocks of the server in every state of every such run. -/
theorem a_block_is_free_or_of_one_inode {s : State} (hs : Initial s) {ops : List Op}
    (hops : steps.Meets next ThroughOpenHandles s ops) :
    steps.Always next (fun s => BlockLaws s.disk) s ops :=
  (steps.always_of_meets (fun _ _ _ h hop he => (h.next hop he).1) hs.sound hops).mono
    fun _ h => h.blockLaws

/-- Handle 0 writes two bytes, the file is truncated under it, and the read is behind its end. -/
theorem blocks_of_a_file_truncated_under_a_handle :
    Initial firstState ∧ steps.Always next (fun s => BlockLaws s.disk) firstState
      [.tfsOpen (some pathA) TFS_O_CREAT, .tfsWrite 0 [5, 6], .tfsOpen (some pathA) TFS_O_TRUNC,
        .tfsRead 0 1] := by
  refine ⟨firstState_initial, a_block_is_free_or_of_one_inode firstState_initial ?_⟩
  decide +kernel

/-! ## The directory -/

/-- The lookup is the scan of the directory. -/
theorem DiskInv.lookup_path {d : Disk} (h : DiskInv d) {path : CString}
    (hv : validPathname (some path) = true) :
    tfsLookupUnsynchronized d (some path) = scanDir d.fs_data (rootAddr d) path.skip := by
  have hget := dataBlockGet_of_taken h.root_block_taken
  unfold rootBlock at hget
  unfold tfsLookupUnsynchronized findInDir
  have hroot : ¬ (validInumber (ROOT_DIR_INUM : Int) = false ∨
      (d.inode_table (ROOT_DIR_INUM : Int).toNat).i_node_type ≠ .T_DIRECTORY) := by
    simp [h.root_dir, validInumber]
  simp only [hv, Bool.true_eq_false, if_false, hroot]
  simp only [Int.toNat_natCast, hget]
  rfl

/-- A name that is found stays found, because the entries up to its own stay. -/
theorem Grows.scan {d d' : Disk} (h : Grows d d') {n : Nat} (hn : Filled d n) {name : CString}
    (hfound : scanDir d.fs_data (rootAddr d) name ≠ -1) :
    scanDir d'.fs_data (rootAddr d) name = scanDir d.fs_data (rootAddr d) name := by
  unfold scanDir at *
  rcases hf : (List.range MAX_DIR_ENTRIES).find? (entryMatches d.fs_data (rootAddr d) name) with _ | k
  · rw [hf] at hfound
    exact absurd rfl hfound
  · obtain ⟨h1, h2, h3⟩ := List.find?_range_eq_some.mp hf
    have hk := List.mem_range.mp h2
    have hlive : dInumber d.fs_data (rootAddr d) k ≠ -1 := by
      simp only [entryMatches, Bool.and_eq_true, decide_eq_true_eq] at h1
      exact h1.1
    have hkn : k < n := by
      by_contra hno
      exact hlive (hn.dir.empty k (by omega) hk)
    have hsame : ∀ j ≤ k, entryMatches d'.fs_data (rootAddr d) name j =
        entryMatches d.fs_data (rootAddr d) name j := by
      intro j hj
      have hjlive := hn.dir.live (k := j) (by omega)
      simp only [entryMatches, h.inumber j (by omega) hjlive, h.name j (by omega) hjlive]
    have hf' : (List.range MAX_DIR_ENTRIES).find? (entryMatches d'.fs_data (rootAddr d) name) =
        some k := by
      apply List.find?_range_eq_some.mpr
      refine ⟨by rw [hsame k le_rfl]; exact h1, h2, fun j hj => ?_⟩
      rw [hsame j hj.le]
      exact h3 j hj
    rw [hf']
    exact h.inumber k hk hlive

/-- The files of a state and of a later one: as many entries as files, in the order of their
inodes; each handle is on a file; and what was in the directory is still there. -/
structure DirectoryLaws (s t : State) (n m : Nat) : Prop where
  more : n ≤ m
  before : Filled s.disk n
  after : Filled t.disk m
  handles : ∀ i < MAX_OPEN_FILES, t.free_open_file_entries i = .TAKEN →
    1 ≤ (t.open_file_table i).of_inumber ∧ (t.open_file_table i).of_inumber ≤ m
  names : ∀ k < n, dName t.disk.fs_data (rootAddr t.disk) k = dName s.disk.fs_data (rootAddr s.disk) k
  lookups : ∀ name f, tfsLookupUnsynchronized s.disk name = f → f ≠ -1 →
    tfsLookupUnsynchronized t.disk name = f

theorem Sound.directoryLaws {s t : State} (h : Sound s) (h' : Sound t) (hg : Grows s.disk t.disk) :
    ∃ n m, DirectoryLaws s t n m := by
  obtain ⟨n, hn⟩ := h.filled
  obtain ⟨m, hm⟩ := h'.filled
  have haddr : rootAddr t.disk = rootAddr s.disk := by
    unfold rootAddr
    rw [hg.block]
  have hle := hn.dir.length_le
  refine ⟨n, m, ?_, hn, hm, fun i hi ht => ?_, fun k hk => ?_, fun name f hf hne => ?_⟩
  · -- an entry that is live stays live
    by_contra hlt
    have hlive := hn.dir.live (k := m) (by omega)
    apply hlive
    rw [← hg.inumber m (by omega) hlive, ← haddr]
    exact hm.dir.empty m le_rfl (by omega)
  · obtain ⟨f, hf, hfile, _⟩ := h'.handle i hi ht
    obtain ⟨hf0, hfm⟩ := hm.fileInode_iff.mp hfile
    simp only [ROOT_DIR_INUM] at hf0
    omega
  · rw [haddr]
    exact hg.name k (by omega) (hn.dir.live hk)
  · cases name with
    | none => exact absurd hf.symm hne
    | some path =>
      by_cases hv : validPathname (some path) = true
      · rw [h.disk.lookup_path hv] at hf
        rw [h'.disk.lookup_path hv, haddr, hg.scan hn (by rw [hf]; exact hne)]
        exact hf
      · unfold tfsLookupUnsynchronized at hf
        simp only [hv, if_true] at hf
        exact absurd hf.symm hne

/-- Between two states of a run, the directory only grows. -/
theorem the_directory_only_grows {s t u : State} (hs : Initial s) {as bs : List Op}
    (hops : steps.Meets next ThroughOpenHandles s (as ++ bs)) (ht : steps.after next s as = some t)
    (hu : steps.after next t bs = some u) : ∃ n m, DirectoryLaws t u n m := by
  obtain ⟨has, hbs⟩ := hops.append
  have hkeep : ∀ s op s', Sound s → ThroughOpenHandles s op → next s op = some s' →
      Sound s' ∧ Grows s.disk s'.disk := fun _ _ _ h hop he => h.next hop he
  have htrans : ∀ s t u : State, Grows s.disk t.disk → Grows t.disk u.disk →
      Grows s.disk u.disk := fun _ _ _ h h' => h.trans h'
  obtain ⟨hst, _⟩ := has.after_related (fun s => Grows.refl s.disk) htrans hkeep hs.sound ht
  obtain ⟨hsu, hg⟩ := (hbs t ht).after_related (fun s => Grows.refl s.disk) htrans hkeep hst hu
  exact hst.directoryLaws hsu hg

/-- A file is created before the state `t`, and another one after it. -/
theorem a_file_is_added_behind_another : ∃ t u,
    steps.after next firstState [.tfsOpen (some pathA) TFS_O_CREAT] = some t ∧
      steps.after next t [.tfsWrite 0 [5], .tfsOpen (some pathB) TFS_O_CREAT] = some u ∧
      ∃ n m, DirectoryLaws t u n m := by
  have hops : steps.Meets next ThroughOpenHandles firstState
      ([.tfsOpen (some pathA) TFS_O_CREAT] ++ [.tfsWrite 0 [5], .tfsOpen (some pathB) TFS_O_CREAT]) := by
    decide +kernel
  have hdone : ((steps.after next firstState [.tfsOpen (some pathA) TFS_O_CREAT]).bind fun t =>
      steps.after next t [.tfsWrite 0 [5], .tfsOpen (some pathB) TFS_O_CREAT]).isSome = true := by
    decide +kernel
  obtain ⟨u, hu⟩ := Option.isSome_iff_exists.mp hdone
  obtain ⟨t, ht, hu⟩ := Option.bind_eq_some_iff.mp hu
  exact ⟨t, u, ht, hu, the_directory_only_grows firstState_initial hops ht hu⟩

end tecnicofs.parte2
