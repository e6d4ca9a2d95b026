-- What an operation leaves alone: the files that it is not about, with their
-- bytes and their names, and the handles that it is not given.
import TecnicoFS.Parte1.Invariant

open byte_memory block_map ownership

namespace tecnicofs.parte1

/-! ## A file that stays -/

/-- File `f` is the same on both disks: its inode, its blocks and the bytes in them. -/
structure FileSame (f : Nat) (d d' : Disk) : Prop where
  file : FileInode d' f
  inode : d'.inode_table f = d.inode_table f
  block : ∀ k < (d.inode_table f).blocksAlloc, blockNo d' f k = blockNo d f k
  bytes : ∀ k < (d.inode_table f).blocksAlloc, ∀ a, a / BLOCK_SIZE = (blockNo d f k).toNat →
    d'.fs_data a = d.fs_data a

theorem FileSame.refl {f : Nat} {d : Disk} (hf : FileInode d f) : FileSame f d d :=
  ⟨hf, rfl, fun _ _ => rfl, fun _ _ _ _ => rfl⟩

theorem FileSame.trans {f : Nat} {d d' d'' : Disk} (h : FileSame f d d') (h' : FileSame f d' d'') :
    FileSame f d d'' where
  file := h'.file
  inode := h'.inode.trans h.inode
  block := fun k hk => by rw [h'.block k (by rw [h.inode]; exact hk), h.block k hk]
  bytes := fun k hk a ha => by
    rw [h'.bytes k (by rw [h.inode]; exact hk) a (by rw [h.block k hk]; exact ha), h.bytes k hk a ha]

/-- The bytes of a file that stays are loaded as before. -/
theorem FileSame.load {f : Nat} {d d' : Disk} (h : FileSame f d d') {p n : Nat}
    (hin : InRoom d f p n) :
    fileLoad BLOCK_SIZE (blocksOf d' f) d'.fs_data p n =
      fileLoad BLOCK_SIZE (blocksOf d f) d.fs_data p n := by
  apply fileLoad_congr
  intro i hi
  have hmap : blocksOf d' f ((p + i) / BLOCK_SIZE) = blocksOf d f ((p + i) / BLOCK_SIZE) :=
    congrArg Int.toNat (h.block _ (hin i hi))
  rw [@addr_congr BLOCK_SIZE (blocksOf d' f) (blocksOf d f) (p + i) hmap]
  exact h.bytes _ (hin i hi) _ (addr_div (by decide) _)

/-- The inode of another file was changed and no byte. -/
theorem FileSame.of_inode {f : Nat} {d d' : Disk} (hfile : FileInode d' f)
    (hi : d'.inode_table f = d.inode_table f) (hm : d'.fs_data = d.fs_data) : FileSame f d d' where
  file := hfile
  inode := hi
  block := fun k _ => by simp only [blockNo, indirectAddr, hi, hm]
  bytes := fun _ _ _ _ => by rw [hm]

theorem afterTrunc_fileSame {d : Disk} {f g : Nat} (hg : FileInode d g) (hne : g ≠ f)
    (flags : BitVec 32) : FileSame g d (afterTrunc d flags f) := by
  refine .of_inode ((afterTrunc_fileInode d flags f g).mpr hg) ?_ ?_ <;> unfold afterTrunc <;> split
  · exact truncated_of_ne d hne
  · rfl
  · rfl
  · rfl

theorem undone_fileSame {d : Disk} {i g : Nat} (hi : FreeInode d i) (hg : FileInode d g) :
    FileSame g d (undone d i) :=
  .of_inode ((undone_fileInode hi g).mpr hg) (freshFile_of_ne d (hi.not_file hg)) rfl

theorem createdFile_fileSame {d : Disk} {i j g : Nat} (h : DiskInv d) (hi : FreeInode d i)
    (hj : j < MAX_DIR_ENTRIES) (hg : FileInode d g) (name : CString) :
    FileSame g d (createdFile d i j name) := by
  have hinode : (createdFile d i j name).inode_table g = d.inode_table g :=
    freshFile_of_ne d (hi.not_file hg)
  -- no block of the file is the block of the directory
  have hbytes : ∀ o b, ownedBlock d o = some b → o ≠ .root → ∀ a, a / BLOCK_SIZE = b.toNat →
      (createdFile d i j name).fs_data a = d.fs_data a := by
    intro o b ho hne a ha
    apply fillDirEntry_other_block _ _ _ _ _ hj
    by_contra hc
    refine hne (h.owner_inj ho (show ownedBlock d .root = _ from rfl) (ha.symm.trans ?_))
    unfold rootAddr BLOCK_SIZE at *
    omega
  refine ⟨(createdFile_fileInode hi name g).mpr (Or.inl hg), hinode, fun k hk => ?_,
    fun k hk a ha => hbytes _ _ (ownedBlock_data hg hk) (by simp) a ha⟩
  have hle := h.blocks_le g hg
  refine blockNo_congr (by omega) (fun _ => by rw [hinode]) fun hge => ⟨by rw [hinode], ?_⟩
  exact hbytes _ _ (ownedBlock_indirect hg (by omega)) (by simp)

theorem Grown.fileSame {f g : Nat} {d d' : Disk} (hgr : Grown f d d') (h : DiskInv d)
    (hf : FileInode d f) (hg : FileInode d g) (hne : g ≠ f) : FileSame g d d' where
  file := (hgr.fileInode g).mpr hg
  inode := hgr.inode_other g hne
  block := fun k hk => by
    have hold := hgr.ownedBlock_old h hf (ownedBlock_data hg hk)
    rw [ownedBlock_data ((hgr.fileInode g).mpr hg) (by rw [hgr.inode_other g hne]; exact hk)] at hold
    exact Option.some.inj hold
  bytes := fun k hk a ha => hgr.mem _ _ (ownedBlock_data hg hk) (by simp) a ha

theorem stored_fileSame {d : Disk} {f g p : Nat} {bs : List UInt8} (h : DiskInv d)
    (hf : FileInode d f) (hg : FileInode d g) (hne : g ≠ f) (hin : InRoom d f p bs.length) :
    FileSame g d (stored d f p bs) where
  file := hg
  inode := rfl
  block := fun k hk => stored_blockNo h hf hin hg hk
  bytes := fun k hk a ha =>
    stored_other h hf hin (ownedBlock_data hg hk) (by simp [hne]) ha

theorem writeCritical_fileSame {d : Disk} {f g : Nat} (h : DiskInv d) (hf : FileInode d f)
    (hg : FileInode d g) (hne : g ≠ f) (file : OpenFileEntry) (buffer : List UInt8) :
    FileSame g d (writeCritical d file f buffer).2.1 := by
  obtain ⟨hinv, hgr⟩ := grownFor_spec h hf buffer.length (offsetAt d file f)
  have hst := (hgr.fileSame h hf hg hne).trans (stored_fileSame hinv ((hgr.fileInode f).mpr hf)
    ((hgr.fileInode g).mpr hg) hne (copied_inRoom d f (offsetAt d file f) buffer))
  rw [writeCritical_eq h hf]
  simp only
  split
  · exact .refl hg
  · split
    · exact hst
    · exact hst.trans (.of_inode ((sizeSet_fileInode _ f _ g).mpr hst.file) (sizeSet_of_ne _ _ hne) rfl)

theorem writeCritical_inode_other {d : Disk} {f g : Nat} (h : DiskInv d) (hf : FileInode d f)
    (file : OpenFileEntry) (buffer : List UInt8) (hg : g ≠ f) :
    (writeCritical d file f buffer).2.1.inode_table g = d.inode_table g := by
  have hother := (grownFor_spec h hf buffer.length (offsetAt d file f)).2.inode_other g hg
  rw [writeCritical_eq h hf]
  simp only
  split
  · rfl
  · split
    · exact hother
    · rw [sizeSet_of_ne _ _ hg]
      exact hother

/-! ## The directory -/

theorem afterTrunc_dirSame {d : Disk} {f : Nat} (h : DiskInv d) (hf : FileInode d f)
    (flags : BitVec 32) : DirSame d (afterTrunc d flags f) := by
  have hroot : ROOT_DIR_INUM ≠ f := by rintro rfl; exact h.root_not_file hf
  unfold afterTrunc
  split
  · refine ⟨?_, fun _ _ => rfl⟩
    unfold rootBlock
    rw [truncated_of_ne d hroot]
  · exact ⟨rfl, fun _ _ => rfl⟩

theorem undone_dirSame {d : Disk} {i : Nat} (h : DiskInv d) (hi : FreeInode d i) :
    DirSame d (undone d i) := by
  refine ⟨?_, fun _ _ => rfl⟩
  unfold rootBlock undone
  rw [Disk.setFreeinode_inode, freshFile_of_ne d (h.free_ne_root hi)]

theorem DirSame.trans {d d' d'' : Disk} (h : DirSame d d') (h' : DirSame d' d'') :
    DirSame d d'' where
  block := h'.block.trans h.block
  bytes := fun j hj => by
    have := h'.bytes j hj
    rw [h.addr] at this
    exact this.trans (h.bytes j hj)

theorem writeCritical_dirSame {d : Disk} {f : Nat} (h : DiskInv d) (hf : FileInode d f)
    (file : OpenFileEntry) (buffer : List UInt8) :
    DirSame d (writeCritical d file f buffer).2.1 := by
  have hroot : f ≠ ROOT_DIR_INUM := by rintro rfl; exact h.root_not_file hf
  obtain ⟨hinv, hgr⟩ := grownFor_spec h hf buffer.length (offsetAt d file f)
  have hst := (hgr.dirSame hroot).trans (dirSame_of_meta (stored_meta hinv
    ((hgr.fileInode f).mpr hf) (copied_inRoom d f (offsetAt d file f) buffer)))
  rw [writeCritical_eq h hf]
  simp only
  split
  · exact ⟨rfl, fun _ _ => rfl⟩
  · split
    · exact hst
    · refine hst.trans ⟨?_, fun _ _ => rfl⟩
      unfold rootBlock
      rw [sizeSet_of_ne _ _ hroot.symm]
      rfl

theorem createdFile_rootAddr {d : Disk} {i j : Nat} (h : DiskInv d) (hi : FreeInode d i)
    (name : CString) : rootAddr (createdFile d i j name) = rootAddr d := by
  unfold rootAddr rootBlock
  exact congrArg (fun n : Inode => (n.i_data_block 0).toNat * BLOCK_SIZE)
    (freshFile_of_ne d (h.free_ne_root hi))

/-- A name that was found is found again after a creation. -/
theorem createdFile_lookup {d : Disk} {i j f : Nat} (h : DiskInv d) (hi : FreeInode d i)
    (hj : firstEmptyEntry d.fs_data (rootAddr d) = some j) (name : CString) {path : CString}
    (hl : tfsLookup d path = f) : tfsLookup (createdFile d i j name) path = f := by
  obtain ⟨h1, h2, h3⟩ := List.find?_range_eq_some.mp hj
  have hempty : dInumber d.fs_data (rootAddr d) j = -1 := by simpa using h1
  rw [tfsLookup_eq h] at hl
  rw [tfsLookup_eq (h.createdFile hi hj name), createdFile_rootAddr h hi]
  refine (scanDir_fill_of_found hempty (fun k hjk hk => ?_) (by rw [hl]; omega)).trans hl
  exact h.dir.live_first j k hjk hk hempty

/-- The new name is found, if the directory could hold all of it. -/
theorem createdFile_lookup_new {d : Disk} {i j : Nat} (h : DiskInv d) (hi : FreeInode d i)
    (hj : firstEmptyEntry d.fs_data (rootAddr d) = some j) {path : CString}
    (hname : path.skip.strlen < MAX_FILE_NAME) (hl : tfsLookup d path = -1) :
    tfsLookup (createdFile d i j path) path = i := by
  obtain ⟨_, h2, _⟩ := List.find?_range_eq_some.mp hj
  have hlt := hi.1
  simp only [INODE_TABLE_SIZE] at hlt
  rw [tfsLookup_eq h] at hl
  rw [tfsLookup_eq (h.createdFile hi hj path), createdFile_rootAddr h hi]
  exact scanDir_fill_new (List.mem_range.mp h2) hl (by omega) (by omega) hname

/-! ## Calls that are about something else -/

/-- The handle is open, with this entry. -/
def OpenAs (s : State) (fhandle : Int) (e : OpenFileEntry) : Prop :=
  ∃ i, getOpenFileEntry s fhandle = some i ∧ s.open_file_table i = e

/-- The call does not change file `f` and is not given the handle `keep`. -/
def Elsewhere (f : Nat) (keep : Int) (s : State) : Op → Prop
  | .tfsOpen name flags =>
    ∀ path, name = some path → tfsLookup s.disk path = f → hasFlag flags TFS_O_TRUNC = false
  | .tfsClose fhandle => fhandle ≠ keep
  | .tfsRead fhandle _ => fhandle ≠ keep
  | .tfsWrite fhandle _ =>
    ∀ i, getOpenFileEntry s fhandle = some i → (s.open_file_table i).of_inumber ≠ f
  | .tfsCopyToExternalFs _ _ => True

/-- File `f` and its names are as they were. -/
structure Untouched (f : Nat) (d d' : Disk) : Prop where
  same : FileSame f d d'
  lookup : ∀ path, tfsLookup d path = f → tfsLookup d' path = f

theorem Untouched.refl {f : Nat} {d : Disk} (hf : FileInode d f) : Untouched f d d :=
  ⟨.refl hf, fun _ h => h⟩

theorem Untouched.of_dirSame {f : Nat} {d d' : Disk} (h : DiskInv d) (h' : DiskInv d')
    (hs : FileSame f d d') (hd : DirSame d d') : Untouched f d d' :=
  ⟨hs, fun path hl => (tfsLookup_congr h h' hd path).trans hl⟩

theorem addToOpenFileTable_disk (s : State) (inumber : Int) (offset : Nat) (isAppending : Bool) :
    (addToOpenFileTable s inumber offset isAppending).2.disk = s.disk := by
  rcases addToOpenFileTable_cases s inumber offset isAppending with hr | ⟨_, _, _, hr⟩ <;> rw [hr]
  rfl

theorem tfsOpen_untouched {s : State} (h : Inv s) {f : Nat} (hf : FileInode s.disk f)
    (name : Option CString) (flags : BitVec 32)
    (hn : ∀ path, name = some path → tfsLookup s.disk path = f →
      hasFlag flags TFS_O_TRUNC = false) :
    Untouched f s.disk (tfsOpen s name flags).2.disk := by
  rcases tfsOpen_cases h.disk name flags with hr | ⟨i, hi, hr⟩ | ⟨path, g, hp, hl, hg, hr⟩ |
    ⟨path, i, j, _, _, _, hi, hj, hr⟩ <;> rw [hr]
  · exact .refl hf
  · exact .of_dirSame h.disk (h.disk.undone hi) (undone_fileSame hi hf) (undone_dirSame h.disk hi)
  · rw [addToOpenFileTable_disk]
    by_cases hfg : f = g
    · -- the file itself, without a truncation
      subst hfg
      have hflag := hn path hp hl
      have hsame : afterTrunc s.disk flags f = s.disk := if_neg (by simp [hflag])
      rw [hsame]
      exact .refl hf
    · exact .of_dirSame h.disk (afterTrunc_inv h.disk hg flags) (afterTrunc_fileSame hf hfg flags)
        (afterTrunc_dirSame h.disk hg flags)
  · rw [addToOpenFileTable_disk]
    have hjlt := List.mem_range.mp (List.find?_range_eq_some.mp hj).2.1
    exact ⟨createdFile_fileSame h.disk hi hjlt hf path,
      fun _ hl => createdFile_lookup h.disk hi hj path hl⟩

/-- A write keeps the file and the mode of its entry. -/
theorem writeCritical_mode (d : Disk) (file : OpenFileEntry) (inode : Nat) (buffer : List UInt8) :
    (writeCritical d file inode buffer).2.2.of_inumber = file.of_inumber ∧
      (writeCritical d file inode buffer).2.2.isAppending = file.isAppending := by
  unfold writeCritical
  simp only
  generalize hf : (if file.isAppending = true then
    { file with of_offset := (d.inode_table inode).i_size } else file) = f
  have hmode : f.of_inumber = file.of_inumber ∧ f.isAppending = file.isAppending := by
    rw [← hf]
    split <;> exact ⟨rfl, rfl⟩
  split_ifs <;> exact hmode

theorem readCritical_mode (d : Disk) (file : OpenFileEntry) (inode len : Nat) :
    (readCritical d file inode len).2.of_inumber = file.of_inumber ∧
      (readCritical d file inode len).2.isAppending = file.isAppending := by
  unfold readCritical
  simp only
  split_ifs <;> exact ⟨rfl, rfl⟩

/-- An open that got a slot has put its entry there. -/
theorem OpenAs.added {s : State} {inumber : Int} {offset : Nat} {a : Bool}
    (hok : 0 ≤ (addToOpenFileTable s inumber offset a).1) :
    OpenAs (addToOpenFileTable s inumber offset a).2 (addToOpenFileTable s inumber offset a).1
      ⟨inumber, offset, a⟩ := by
  rcases addToOpenFileTable_cases s inumber offset a with hr | ⟨i, hi, _, hr⟩
  · rw [hr] at hok
    exact (not_zero_le_neg_one hok).elim
  · rw [hr]
    refine ⟨i, getOpenFileEntry_eq_some.mpr ⟨rfl, hi, ?_⟩, ?_⟩ <;>
      simp only [withHandle, Function.update_self]

theorem OpenAs.withHandle {s : State} {keep : Int} {e : OpenFileEntry} (ho : OpenAs s keep e)
    {i : Nat} (hfree : s.free_open_file_entries i = .FREE) (e' : OpenFileEntry) :
    OpenAs (withHandle s i e') keep e ∧ keep ≠ i := by
  obtain ⟨k, hk, he⟩ := ho
  obtain ⟨rfl, hlt, ht⟩ := getOpenFileEntry_eq_some.mp hk
  have hki : k ≠ i := by
    rintro rfl
    rw [hfree] at ht
    cases ht
  refine ⟨⟨k, getOpenFileEntry_eq_some.mpr ⟨rfl, hlt, ?_⟩, ?_⟩, by omega⟩
  · simpa only [parte1.withHandle, Function.update_of_ne hki] using ht
  · simpa only [parte1.withHandle, Function.update_of_ne hki] using he

/-- An open keeps the handles that are open, and gives another one. -/
theorem OpenAs.tfsOpen {s : State} (h : Inv s) {keep : Int} {e : OpenFileEntry}
    (ho : OpenAs s keep e) (name : Option CString) (flags : BitVec 32) :
    OpenAs (tfsOpen s name flags).2 keep e ∧ (tfsOpen s name flags).1 ≠ keep := by
  have hkeep : keep ≠ -1 := by
    obtain ⟨k, hk, _⟩ := ho
    obtain ⟨rfl, _, _⟩ := getOpenFileEntry_eq_some.mp hk
    omega
  have hadd : ∀ (d : Disk) (inumber : Int) (offset : Nat) (a : Bool),
      OpenAs (addToOpenFileTable { s with disk := d } inumber offset a).2 keep e ∧
        (addToOpenFileTable { s with disk := d } inumber offset a).1 ≠ keep := by
    intro d inumber offset a
    have hd : OpenAs { s with disk := d } keep e := ho
    rcases addToOpenFileTable_cases { s with disk := d } inumber offset a with hr | ⟨i, _, hi, hr⟩
    · rw [hr]
      exact ⟨hd, hkeep.symm⟩
    · rw [hr]
      obtain ⟨h1, h2⟩ := hd.withHandle hi ⟨inumber, offset, a⟩
      exact ⟨h1, h2.symm⟩
  rcases tfsOpen_cases h.disk name flags with hr | ⟨i, hi, hr⟩ | ⟨path, g, _, _, _, hr⟩ |
    ⟨path, i, j, _, _, _, _, _, hr⟩ <;> rw [hr]
  · exact ⟨ho, hkeep.symm⟩
  · exact ⟨ho, hkeep.symm⟩
  · exact hadd _ _ _ _
  · exact hadd _ _ _ _

theorem tfsClose_disk (s : State) (fhandle : Int) : (tfsClose s fhandle).2.disk = s.disk := by
  rcases tfsClose_cases s fhandle with hr | ⟨_, _, _, _, hr⟩ <;> rw [hr]

theorem OpenAs.tfsClose {s : State} {keep fhandle : Int} {e : OpenFileEntry} (ho : OpenAs s keep e)
    (hne : fhandle ≠ keep) : OpenAs (tfsClose s fhandle).2 keep e := by
  rcases tfsClose_cases s fhandle with hr | ⟨i, _, hi, _, hr⟩ <;> rw [hr]
  · exact ho
  · obtain ⟨k, hk, he⟩ := ho
    obtain ⟨rfl, hlt, ht⟩ := getOpenFileEntry_eq_some.mp hk
    refine ⟨k, getOpenFileEntry_eq_some.mpr ⟨rfl, hlt, ?_⟩, he⟩
    simpa only [Function.update_of_ne (show k ≠ i by omega)] using ht

theorem OpenAs.fillEntry {s : State} {keep : Int} {e e' : OpenFileEntry} (ho : OpenAs s keep e)
    {i : Nat} (hne : keep ≠ i) : OpenAs (fillEntry s i e') keep e := by
  obtain ⟨k, hk, he⟩ := ho
  obtain ⟨rfl, hlt, ht⟩ := getOpenFileEntry_eq_some.mp hk
  refine ⟨k, getOpenFileEntry_eq_some.mpr ⟨rfl, hlt, ht⟩, ?_⟩
  simpa only [parte1.fillEntry, Function.update_of_ne (show k ≠ i by omega)] using he

theorem tfsRead_disk {s : State} (h : Inv s) (fhandle : Int) (len : Nat) :
    (tfsRead s fhandle len).2.disk = s.disk := by
  rcases tfsRead_cases h fhandle len with ⟨_, hr⟩ | ⟨i, f, _, _, _, hr⟩ <;> rw [hr]
  split <;> rfl

theorem OpenAs.tfsRead {s : State} (h : Inv s) {keep fhandle : Int} {e : OpenFileEntry}
    (ho : OpenAs s keep e) (hne : fhandle ≠ keep) (len : Nat) :
    OpenAs (tfsRead s fhandle len).2 keep e := by
  rcases tfsRead_cases h fhandle len with ⟨_, hr⟩ | ⟨i, f, hget, _, _, hr⟩ <;> rw [hr]
  · exact ho
  · obtain ⟨hi, _, _⟩ := getOpenFileEntry_eq_some.mp hget
    split
    · exact ho
    · exact ho.fillEntry (by omega)

theorem copyLoop_disk {s : State} (h : Inv s) (fhandle : Int) (rounds : Nat) :
    (copyLoop fhandle rounds s).state.disk = s.disk := by
  induction rounds generalizing s with
  | zero => rfl
  | succ rounds ih =>
    have hdisk := tfsRead_disk h fhandle BUFFER_SIZE
    by_cases hr : 0 < (tfsRead s fhandle BUFFER_SIZE).1.1
    · simp only [copyLoop, hr, if_true]
      exact (ih (h.tfsRead fhandle BUFFER_SIZE)).trans hdisk
    · simp only [copyLoop, hr, if_false]
      exact hdisk

theorem OpenAs.copyLoop {s : State} (h : Inv s) {keep fhandle : Int} {e : OpenFileEntry}
    (ho : OpenAs s keep e) (hne : fhandle ≠ keep) (rounds : Nat) :
    OpenAs (copyLoop fhandle rounds s).state keep e := by
  induction rounds generalizing s with
  | zero => exact ho
  | succ rounds ih =>
    have hread := ho.tfsRead h hne BUFFER_SIZE
    by_cases hr : 0 < (parte1.tfsRead s fhandle BUFFER_SIZE).1.1
    · simp only [parte1.copyLoop, hr, if_true]
      exact ih (h.tfsRead fhandle BUFFER_SIZE) hread
    · simp only [parte1.copyLoop, hr, if_false]
      exact hread

/-- A copy opens without a truncation, reads and closes. -/
theorem tfsCopy_elsewhere {s : State} (h : Inv s) {f : Nat} (hf : FileInode s.disk f)
    (source_path : Option CString) (destOpens : Bool) :
    Untouched f s.disk (tfsCopyToExternalFs s source_path destOpens).2.disk ∧
      ∀ keep e, OpenAs s keep e → OpenAs (tfsCopyToExternalFs s source_path destOpens).2 keep e := by
  cases source_path with
  | none => exact ⟨.refl hf, fun _ _ ho => ho⟩
  | some path =>
    have hopen := h.tfsOpen (some path) TFS_O_CREAT
    have hdisk := tfsOpen_untouched h hf (some path) TFS_O_CREAT fun _ _ _ => by decide
    have hhandle := fun keep e (ho : OpenAs s keep e) => ho.tfsOpen h (some path) TFS_O_CREAT
    have hloop := copyLoop_disk hopen (tfsOpen s (some path) TFS_O_CREAT).1 (MAX_FILE_SIZE + 1)
    have hkept := fun keep e (ho : OpenAs s keep e) =>
      (hhandle keep e ho).1.copyLoop hopen (hhandle keep e ho).2 (MAX_FILE_SIZE + 1)
    unfold tfsCopyToExternalFs
    simp only
    split
    · exact ⟨.refl hf, fun _ _ ho => ho⟩
    · split
      · exact ⟨hdisk, fun keep e ho => (hhandle keep e ho).1⟩
      · split
        · rw [tfsClose_disk]
          exact ⟨hdisk, fun keep e ho => (hhandle keep e ho).1.tfsClose (hhandle keep e ho).2⟩
        · split
          · rw [hloop]
            exact ⟨hdisk, hkept⟩
          · rw [tfsClose_disk, hloop]
            exact ⟨hdisk, fun keep e ho => (hkept keep e ho).tfsClose (hhandle keep e ho).2⟩

theorem tfsWrite_elsewhere {s : State} (h : Inv s) {f : Nat} (hf : FileInode s.disk f)
    {fhandle : Int} (buffer : List UInt8)
    (hn : ∀ i, getOpenFileEntry s fhandle = some i → (s.open_file_table i).of_inumber ≠ f) :
    Untouched f s.disk (tfsWrite s fhandle buffer).2.disk ∧
      ∀ keep (e : OpenFileEntry), e.of_inumber = f → OpenAs s keep e →
        OpenAs (tfsWrite s fhandle buffer).2 keep e := by
  rcases tfsWrite_cases h fhandle buffer with ⟨_, hr⟩ | ⟨i, g, hget, hin, hg, hr⟩ <;> rw [hr]
  · exact ⟨.refl hf, fun _ _ _ ho => ho⟩
  · have hne : f ≠ g := by
      rintro rfl
      exact hn i hget hin
    refine ⟨.of_dirSame h.disk (writeCritical_inv h.disk hg _ buffer).1
      (writeCritical_fileSame h.disk hg hf hne _ buffer) (writeCritical_dirSame h.disk hg _ buffer),
      fun keep e he ho => ?_⟩
    refine @OpenAs.fillEntry { s with disk := _ } keep e _ ho i ?_
    rintro rfl
    obtain ⟨k, hk, hek⟩ := ho
    obtain ⟨hki, _, _⟩ := getOpenFileEntry_eq_some.mp hk
    obtain rfl : i = k := by omega
    rw [hek, he] at hin
    exact hne (by omega)

/-- A call elsewhere leaves the file, its names and the handle alone. -/
theorem exec_elsewhere {s : State} (h : Inv s) {f : Nat} (hf : FileInode s.disk f) {keep : Int}
    {op : Op} (hop : Elsewhere f keep s op) :
    Untouched f s.disk (exec s op).2.disk ∧
      ∀ e : OpenFileEntry, e.of_inumber = f → OpenAs s keep e → OpenAs (exec s op).2 keep e := by
  cases op with
  | tfsOpen name flags =>
    exact ⟨tfsOpen_untouched h hf name flags hop, fun _ _ ho => (ho.tfsOpen h name flags).1⟩
  | tfsClose fhandle =>
    refine ⟨?_, fun _ _ ho => ho.tfsClose hop⟩
    simp only [exec, tfsClose_disk]
    exact .refl hf
  | tfsRead fhandle len =>
    refine ⟨?_, fun _ _ ho => ho.tfsRead h hop len⟩
    simp only [exec, tfsRead_disk h]
    exact .refl hf
  | tfsWrite fhandle buffer =>
    have := tfsWrite_elsewhere h hf buffer hop
    exact ⟨this.1, this.2 keep⟩
  | tfsCopyToExternalFs source_path destOpens =>
    have := tfsCopy_elsewhere h hf source_path destOpens
    exact ⟨this.1, fun e _ => this.2 keep e⟩

/-- A name that was found is found again after any call. -/
theorem exec_lookup {s : State} (h : Inv s) (op : Op) {path : CString} {inum : Int}
    (hn : 0 ≤ inum) (hl : tfsLookup s.disk path = inum) :
    tfsLookup (exec s op).2.disk path = inum := by
  obtain ⟨f, rfl⟩ := Int.eq_ofNat_of_zero_le hn
  rcases tfsLookup_cases h.disk path with hl' | ⟨g, hl', hf⟩
  · rw [hl] at hl'
    omega
  obtain rfl : g = f := by
    rw [hl] at hl'
    exact (Int.ofNat.inj hl').symm
  cases op with
  | tfsOpen name flags =>
    simp only [exec]
    rcases tfsOpen_cases h.disk name flags with hr | ⟨i, hi, hr⟩ | ⟨_, k, _, _, hk, hr⟩ |
      ⟨_, i, j, _, _, _, hi, hj, hr⟩ <;> rw [hr]
    · exact hl
    · exact (tfsLookup_congr h.disk (h.disk.undone hi) (undone_dirSame h.disk hi) path).trans hl
    · rw [addToOpenFileTable_disk]
      exact (tfsLookup_congr h.disk (afterTrunc_inv h.disk hk flags)
        (afterTrunc_dirSame h.disk hk flags) path).trans hl
    · rw [addToOpenFileTable_disk]
      exact createdFile_lookup h.disk hi hj _ hl
  | tfsClose fhandle =>
    simp only [exec, tfsClose_disk]
    exact hl
  | tfsRead fhandle len =>
    simp only [exec, tfsRead_disk h]
    exact hl
  | tfsWrite fhandle buffer =>
    simp only [exec]
    rcases tfsWrite_cases h fhandle buffer with ⟨_, hr⟩ | ⟨i, k, _, _, hk, hr⟩ <;> rw [hr]
    · exact hl
    · exact (tfsLookup_congr h.disk (writeCritical_inv h.disk hk _ buffer).1
        (writeCritical_dirSame h.disk hk _ buffer) path).trans hl
  | tfsCopyToExternalFs source_path destOpens =>
    exact (tfsCopy_elsewhere h hf source_path destOpens).1.lookup path hl

end tecnicofs.parte1
