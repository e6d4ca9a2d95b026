-- The entries of the directory: every file has exactly one, and no call changes
-- them but an open that creates a file, which fills one empty entry.
import TecnicoFS.Parte1.Frames

open byte_memory

namespace tecnicofs.parte1

/-- The inode number in entry `i` of the directory. -/
def entryInode (d : Disk) (i : Nat) : Int := dInumber d.fs_data (rootAddr d) i

/-- Entry `i` is live. -/
def Live (d : Disk) (i : Nat) : Prop := i < MAX_DIR_ENTRIES ∧ entryInode d i ≠ -1

/-! ## What a call does to the directory -/

/-- The same inodes are taken, and the directory is the same. -/
structure Quiet (d d' : Disk) : Prop where
  taken : d'.freeinode_ts = d.freeinode_ts
  files : ∀ g, FileInode d' g ↔ FileInode d g
  dir : DirSame d d'

/-- Inode `i` and entry `j` are free for a new file with this name. -/
structure Creates (d : Disk) (path : CString) (i j : Nat) : Prop where
  valid : validPathname (some path) = true
  unknown : tfsLookup d path = -1
  inode : FreeInode d i
  entry : firstEmptyEntry d.fs_data (rootAddr d) = some j

theorem Quiet.refl (d : Disk) : Quiet d d := ⟨rfl, fun _ => Iff.rfl, rfl, fun _ _ => rfl⟩

theorem Quiet.entryInode {d d' : Disk} (h : Quiet d d') {i : Nat} (hi : i < MAX_DIR_ENTRIES) :
    entryInode d' i = entryInode d i := h.dir.inumber hi

theorem undone_quiet {d : Disk} {i : Nat} (h : DiskInv d) (hi : FreeInode d i) :
    Quiet d (undone d i) := by
  refine ⟨?_, undone_fileInode hi, undone_dirSame h hi⟩
  simp only [undone, freshFile, Disk.setFreeinode, Disk.modInode, Function.update_idem]
  rw [← hi.2, Function.update_eq_self]

theorem afterTrunc_quiet {d : Disk} {f : Nat} (h : DiskInv d) (hf : FileInode d f)
    (flags : BitVec 32) : Quiet d (afterTrunc d flags f) := by
  refine ⟨?_, afterTrunc_fileInode d flags f, afterTrunc_dirSame h hf flags⟩
  unfold afterTrunc
  split <;> rfl

theorem writeCritical_quiet {d : Disk} {f : Nat} (h : DiskInv d) (hf : FileInode d f)
    (file : OpenFileEntry) (buffer : List UInt8) :
    Quiet d (writeCritical d file f buffer).2.1 := by
  refine ⟨?_, (writeCritical_inv h hf file buffer).2.1, writeCritical_dirSame h hf file buffer⟩
  have hgrown := (grownFor_spec h hf buffer.length (offsetAt d file f)).2.files.1
  rw [writeCritical_eq h hf]
  simp only
  split
  · rfl
  · split <;> exact hgrown

theorem tfsOpen_quiet {s : State} (h : Inv s) (name : Option CString) (flags : BitVec 32) :
    Quiet s.disk (tfsOpen s name flags).2.disk ∨
      ∃ path i j, name = some path ∧ Creates s.disk path i j ∧
        (tfsOpen s name flags).2.disk = createdFile s.disk i j path := by
  rcases tfsOpen_cases h.disk name flags with hr | ⟨i, hi, hr⟩ | ⟨path, f, _, _, hf, hr⟩ |
    ⟨path, i, j, hp, hv, hl, hi, hj, hr⟩ <;> rw [hr]
  · exact Or.inl (.refl _)
  · exact Or.inl (undone_quiet h.disk hi)
  · rw [addToOpenFileTable_disk]
    exact Or.inl (afterTrunc_quiet h.disk hf flags)
  · rw [addToOpenFileTable_disk]
    exact Or.inr ⟨path, i, j, hp, ⟨hv, hl, hi, hj⟩, rfl⟩

/-- A copy creates nothing: it opens a file that is there. -/
theorem tfsCopy_quiet {s : State} (h : Inv s) (source_path : Option CString) (destOpens : Bool) :
    Quiet s.disk (tfsCopyToExternalFs s source_path destOpens).2.disk := by
  cases source_path with
  | none => exact .refl _
  | some path =>
    have hloop := copyLoop_disk (h.tfsOpen (some path) TFS_O_CREAT)
      (tfsOpen s (some path) TFS_O_CREAT).1 (MAX_FILE_SIZE + 1)
    unfold tfsCopyToExternalFs
    simp only
    split
    · exact .refl _
    · rename_i hsource
      have hopen : Quiet s.disk (tfsOpen s (some path) TFS_O_CREAT).2.disk := by
        rcases tfsOpen_quiet h (some path) TFS_O_CREAT with hq | ⟨p, i, j, hp, hc, _⟩
        · exact hq
        · obtain rfl := Option.some.inj hp
          exact absurd (Or.inr hc.unknown) hsource
      split
      · exact hopen
      · split
        · rw [tfsClose_disk]
          exact hopen
        · split
          · rw [hloop]
            exact hopen
          · rw [tfsClose_disk, hloop]
            exact hopen

/-- A call leaves the directory and the taken inodes alone, or it is an open that creates a
file. -/
theorem exec_directory {s : State} (h : Inv s) (op : Op) :
    Quiet s.disk (exec s op).2.disk ∨
      ∃ path flags i j, op = .tfsOpen (some path) flags ∧ Creates s.disk path i j ∧
        (exec s op).2.disk = createdFile s.disk i j path := by
  cases op with
  | tfsOpen name flags =>
    rcases tfsOpen_quiet h name flags with hq | ⟨path, i, j, rfl, hc, hd⟩
    · exact Or.inl hq
    · exact Or.inr ⟨path, flags, i, j, rfl, hc, hd⟩
  | tfsClose fhandle =>
    simp only [exec, tfsClose_disk]
    exact Or.inl (.refl _)
  | tfsRead fhandle len =>
    simp only [exec, tfsRead_disk h]
    exact Or.inl (.refl _)
  | tfsWrite fhandle buffer =>
    simp only [exec]
    rcases tfsWrite_cases h fhandle buffer with ⟨_, hr⟩ | ⟨i, f, _, _, hf, hr⟩ <;> rw [hr]
    · exact Or.inl (.refl _)
    · exact Or.inl (writeCritical_quiet h.disk hf _ buffer)
  | tfsCopyToExternalFs source_path destOpens => exact Or.inl (tfsCopy_quiet h source_path destOpens)

/-! ## A new entry -/

section
variable {d : Disk} (h : DiskInv d) {path : CString} {i j : Nat} (hc : Creates d path i j)
include hc

theorem Creates.lt : j < MAX_DIR_ENTRIES :=
  List.mem_range.mp (List.find?_range_eq_some.mp hc.entry).2.1

theorem Creates.empty : entryInode d j = -1 := by
  have := (List.find?_range_eq_some.mp hc.entry).1
  simpa [entryInode] using this

include h

theorem Creates.entry_self : entryInode (createdFile d i j path) j = i := by
  have hlt := hc.inode.1
  simp only [INODE_TABLE_SIZE] at hlt
  unfold entryInode
  rw [createdFile_rootAddr h hc.inode]
  exact dInumber_fill_self _ _ _ _ _ (by omega) (by omega)

theorem Creates.entry_other {k : Nat} (hk : k ≠ j) :
    entryInode (createdFile d i j path) k = entryInode d k := by
  unfold entryInode
  rw [createdFile_rootAddr h hc.inode]
  exact dInumber_fill_of_ne _ _ _ _ _ hk

end

/-! ## One entry for each file -/

/-- Every file has exactly one entry. -/
def Listed (d : Disk) : Prop :=
  ∀ f, FileInode d f → ∃! k, k < MAX_DIR_ENTRIES ∧ entryInode d k = (f : Int)

theorem Listed.quiet {d d' : Disk} (h : Listed d) (hq : Quiet d d') : Listed d' := by
  intro f hf
  obtain ⟨k, ⟨hk, he⟩, hone⟩ := h f ((hq.files f).mp hf)
  refine ⟨k, ⟨hk, (hq.entryInode hk).trans he⟩, fun k' hk' => hone k' ⟨hk'.1, ?_⟩⟩
  rw [← hq.entryInode hk'.1]
  exact hk'.2

theorem Listed.creates {d : Disk} (h : Listed d) (hd : DiskInv d) {path : CString} {i j : Nat}
    (hc : Creates d path i j) : Listed (createdFile d i j path) := by
  intro f hf
  by_cases hfi : f = i
  · subst hfi
    refine ⟨j, ⟨hc.lt, hc.entry_self hd⟩, ?_⟩
    rintro k ⟨hk, he⟩
    by_contra hkj
    rw [hc.entry_other hd hkj] at he
    obtain ⟨g, hg, hfile⟩ := hd.dir.entry_file k hk (by rw [← entryInode, he]; omega)
    obtain rfl : g = f := by
      rw [← entryInode, he] at hg
      omega
    exact hc.inode.not_file hfile rfl
  · have hold := ((createdFile_fileInode hc.inode path f).mp hf).resolve_right hfi
    obtain ⟨k, ⟨hk, he⟩, hone⟩ := h f hold
    have hkj : k ≠ j := by
      rintro rfl
      rw [hc.empty] at he
      omega
    refine ⟨k, ⟨hk, (hc.entry_other hd hkj).trans he⟩, ?_⟩
    rintro k' ⟨hk', he'⟩
    have hkj' : k' ≠ j := by
      rintro rfl
      rw [hc.entry_self hd] at he'
      omega
    rw [hc.entry_other hd hkj'] at he'
    exact hone k' ⟨hk', he'⟩

theorem Listed.exec {s : State} (h : Listed s.disk) (hs : Inv s) (op : Op) :
    Listed (exec s op).2.disk := by
  rcases exec_directory hs op with hq | ⟨path, _, i, j, _, hc, hd⟩
  · exact h.quiet hq
  · rw [hd]
    exact h.creates hs.disk hc

theorem Reachable.listed {s : State} (h : Reachable s) : Listed s.disk := by
  refine (runs.Reachable.invariant (P := fun s => Inv s ∧ Listed s.disk) ?_ ?_ h).2
  · rintro _ ⟨raw, rfl⟩
    refine ⟨Initial.inv ⟨raw, rfl⟩, fun f hf => ?_⟩
    rw [tfsInit_eq] at hf
    exact (firstDisk_fileInode _ f hf).elim
  · exact fun s op hs => ⟨hs.1.exec op, hs.2.exec hs.1 op⟩

/-! ## The laws of the directory -/

/-- The inodes that are taken, apart from the root, are the ones with an entry. -/
structure DirectoryLaws (s : State) : Prop where
  named : ∀ f < INODE_TABLE_SIZE, f ≠ ROOT_DIR_INUM →
    (s.disk.freeinode_ts f = .TAKEN ↔ ∃ i, Live s.disk i ∧ entryInode s.disk i = f)
  once : ∀ i j, Live s.disk i → Live s.disk j → entryInode s.disk i = entryInode s.disk j → i = j
  live : ∀ i, Live s.disk i → ∃ f : Nat, entryInode s.disk i = f ∧ f < INODE_TABLE_SIZE ∧
    f ≠ ROOT_DIR_INUM ∧ s.disk.freeinode_ts f = .TAKEN
  file : ∀ f < INODE_TABLE_SIZE, f ≠ ROOT_DIR_INUM → s.disk.freeinode_ts f = .TAKEN →
    (s.disk.inode_table f).i_node_type = .T_FILE
  handle : ∀ i < MAX_OPEN_FILES, s.free_open_file_entries i = .TAKEN →
    ∃ f : Nat, (s.open_file_table i).of_inumber = f ∧ f < INODE_TABLE_SIZE ∧ f ≠ ROOT_DIR_INUM ∧
      s.disk.freeinode_ts f = .TAKEN

/-- The call leaves the block of the directory alone, or it is an open that fills one empty
entry with its name and a free inode. -/
def AddsOneEntry (d : Disk) (op : Op) (d' : Disk) : Prop :=
  DirSame d d' ∨
    ∃ path flags i j, op = .tfsOpen (some path) flags ∧ j < MAX_DIR_ENTRIES ∧
      entryInode d j = -1 ∧ FreeInode d i ∧ rootBlock d' = rootBlock d ∧
      ∀ a < BLOCK_SIZE, d'.fs_data (rootAddr d + a) =
        fillDirEntry d.fs_data (rootAddr d) j i path.skip (rootAddr d + a)

/-- There is no inode or no entry for a new file. -/
def NoRoom (d : Disk) : Prop :=
  (∀ i, ¬ FreeInode d i) ∨ firstEmptyEntry d.fs_data (rootAddr d) = none

theorem FileInode.ne_root {d : Disk} (h : DiskInv d) {f : Nat} (hf : FileInode d f) :
    f ≠ ROOT_DIR_INUM := by
  rintro rfl
  exact h.root_not_file hf

theorem Reachable.directoryLaws {s : State} (h : Reachable s) : DirectoryLaws s := by
  have hinv := h.inv
  have hlisted := h.listed
  have hfile : ∀ f < INODE_TABLE_SIZE, f ≠ ROOT_DIR_INUM → s.disk.freeinode_ts f = .TAKEN →
      FileInode s.disk f := fun f hf hne ht => ⟨hf, ht, hinv.disk.file_type f hne ht⟩
  have hlive : ∀ i, Live s.disk i → ∃ f : Nat, entryInode s.disk i = f ∧ FileInode s.disk f :=
    fun i hi => hinv.disk.dir.entry_file i hi.1 hi.2
  refine ⟨fun f hf hne => ⟨fun ht => ?_, ?_⟩, fun i j hi hj he => ?_, fun i hi => ?_,
    fun f hf hne ht => (hfile f hf hne ht).2.2, fun i hi ht => ?_⟩
  · obtain ⟨k, ⟨hk, he⟩, _⟩ := hlisted f (hfile f hf hne ht)
    exact ⟨k, ⟨hk, by omega⟩, he⟩
  · rintro ⟨i, hi, he⟩
    obtain ⟨g, hg, hgf⟩ := hlive i hi
    obtain rfl : g = f := by omega
    exact hgf.2.1
  · obtain ⟨f, hf, hff⟩ := hlive i hi
    exact (hlisted f hff).unique ⟨hi.1, hf⟩ ⟨hj.1, he.symm.trans hf⟩
  · obtain ⟨f, hf, hff⟩ := hlive i hi
    exact ⟨f, hf, hff.1, hff.ne_root hinv.disk, hff.2.1⟩
  · obtain ⟨f, hf, hff, _⟩ := hinv.handle i hi ht
    exact ⟨f, hf, hff.1, hff.ne_root hinv.disk, hff.2.1⟩

theorem exec_addsOneEntry {s : State} (h : Inv s) (op : Op) :
    AddsOneEntry s.disk op (exec s op).2.disk := by
  rcases exec_directory h op with hq | ⟨path, flags, i, j, hop, hc, hd⟩
  · exact Or.inl hq.dir
  · rw [hd]
    refine Or.inr ⟨path, flags, i, j, hop, hc.lt, hc.empty, hc.inode, ?_, fun _ _ => rfl⟩
    unfold rootBlock
    rw [← freshFile_of_ne s.disk (h.disk.free_ne_root hc.inode)]
    rfl

/-- A creation for which there is no room leaves no trace. -/
theorem tfsOpen_noRoom {s : State} (h : Inv s) {path : CString} (flags : BitVec 32)
    (hl : tfsLookup s.disk path = -1) (hroom : NoRoom s.disk) :
    (tfsOpen s (some path) flags).1 = -1 ∧ Quiet s.disk (tfsOpen s (some path) flags).2.disk := by
  rcases tfsOpen_cases h.disk (some path) flags with hr | ⟨i, hi, hr⟩ | ⟨p, f, hp, hlp, _, _⟩ |
    ⟨p, i, j, _, _, _, hi, hj, _⟩
  · rw [hr]
    exact ⟨rfl, .refl _⟩
  · rw [hr]
    exact ⟨rfl, undone_quiet h.disk hi⟩
  · obtain rfl := Option.some.inj hp
    omega
  · rcases hroom with hno | hno
    · exact (hno i hi).elim
    · rw [hno] at hj
      cases hj

/-- In every reachable state the directory lists the taken inodes, each of them once, and no call
changes it but a creation, which adds one entry. A creation for which there is no room changes
nothing. -/
theorem the_directory_lists_the_files (s : State) (h : Reachable s) :
    DirectoryLaws s ∧ (∀ op, AddsOneEntry s.disk op (exec s op).2.disk) ∧
      ∀ path flags, validPathname (some path) = true → hasFlag flags TFS_O_CREAT = true →
        tfsLookup s.disk path = -1 → NoRoom s.disk →
          (tfsOpen s (some path) flags).1 = -1 ∧
            (tfsOpen s (some path) flags).2.disk.freeinode_ts = s.disk.freeinode_ts ∧
            DirSame s.disk (tfsOpen s (some path) flags).2.disk := by
  refine ⟨h.directoryLaws, exec_addsOneEntry h.inv, fun path flags _ _ hl hroom => ?_⟩
  obtain ⟨hret, hq⟩ := tfsOpen_noRoom h.inv flags hl hroom
  exact ⟨hret, hq.taken, hq.dir⟩

theorem the_directory_lists_one_file :
    DirectoryLaws oneByteWritten ∧ entryInode oneByteWritten.disk 0 = 1 :=
  ⟨(the_directory_lists_the_files oneByteWritten oneByteWritten_reachable).1, by decide +kernel⟩

end tecnicofs.parte1
