-- Lookup, opening and creation. A lookup finds files only. A creation takes an
-- inode and an entry of the directory, or leaves both as they were.
import TecnicoFS.Parte1.Truncation

open byte_memory block_map ownership

namespace tecnicofs.parte1

/-! ## Lookup -/

theorem DiskInv.dataBlockGet_root {d : Disk} (h : DiskInv d) :
    dataBlockGet ((d.inode_table ROOT_DIR_INUM).i_data_block 0) = some (rootAddr d) :=
  dataBlockGet_of_taken (h.exact.taken_of_own (o := .root) rfl)

theorem tfsLookup_eq {d : Disk} (h : DiskInv d) (name : CString) :
    tfsLookup d name = scanDir d.fs_data (rootAddr d) name.skip := by
  have hv : validInumber (ROOT_DIR_INUM : Nat) = true := by decide
  have hdir : (d.inode_table (Int.toNat (ROOT_DIR_INUM : Nat))).i_node_type = .T_DIRECTORY := h.root_dir
  have hget : dataBlockGet ((d.inode_table (Int.toNat (ROOT_DIR_INUM : Nat))).i_data_block 0) =
      some (rootAddr d) := h.dataBlockGet_root
  unfold tfsLookup findInDir
  rw [if_neg (by simp only [hv, hdir]; decide), hget]

/-- A lookup finds a file, or gives -1. -/
theorem tfsLookup_cases {d : Disk} (h : DiskInv d) (name : CString) :
    tfsLookup d name = -1 ∨ ∃ f : Nat, tfsLookup d name = f ∧ FileInode d f := by
  rw [tfsLookup_eq h]
  rcases scanDir_cases d.fs_data (rootAddr d) name.skip with hs | ⟨i, hi, hne, hs⟩
  · exact Or.inl hs
  · obtain ⟨f, hf, hfile⟩ := h.dir.entry_file i hi hne
    exact Or.inr ⟨f, hs.trans hf, hfile⟩

theorem tfsLookup_congr {d d' : Disk} (h : DiskInv d) (h' : DiskInv d') (hd : DirSame d d')
    (name : CString) : tfsLookup d' name = tfsLookup d name := by
  rw [tfsLookup_eq h, tfsLookup_eq h', hd.addr]
  exact scanDir_congr _ hd.bytes

theorem inodeGet_file {d : Disk} {f : Nat} (hf : FileInode d f) : inodeGet (f : Int) = some f := by
  have hlt : f < INODE_TABLE_SIZE := hf.1
  have hv : validInumber (f : Int) = true := by
    simp only [validInumber, decide_eq_true_eq]
    omega
  unfold inodeGet
  rw [if_pos hv, Int.toNat_natCast]

/-! ## Opening a file that exists -/

/-- The disk after the truncation that the flags ask for. -/
def afterTrunc (d : Disk) (flags : BitVec 32) (f : Nat) : Disk :=
  if hasFlag flags TFS_O_TRUNC = true ∧ 0 < (d.inode_table f).i_size then truncated d f else d

theorem afterTrunc_inv {d : Disk} {f : Nat} (h : DiskInv d) (hf : FileInode d f)
    (flags : BitVec 32) : DiskInv (afterTrunc d flags f) := by
  unfold afterTrunc
  split
  · exact h.truncated hf
  · exact h

theorem afterTrunc_fileInode (d : Disk) (flags : BitVec 32) (f g : Nat) :
    FileInode (afterTrunc d flags f) g ↔ FileInode d g := by
  unfold afterTrunc
  split
  · exact truncated_fileInode d f g
  · rfl

theorem openExistingFile_eq {d : Disk} {f : Nat} (h : DiskInv d) (hf : FileInode d f)
    (flags : BitVec 32) :
    openExistingFile d flags f =
      (⟨0, (initialOffset (afterTrunc d flags f) flags f).2,
        (initialOffset (afterTrunc d flags f) flags f).1⟩, afterTrunc d flags f) := by
  have ht : (if hasFlag flags TFS_O_TRUNC = true then truncateInode d f else (0, d)) =
      (0, afterTrunc d flags f) := by
    unfold afterTrunc
    by_cases hflag : hasFlag flags TFS_O_TRUNC = true
    · simp only [hflag, if_true, true_and, truncateInode_eq h hf]
    · simp only [hflag, if_false, false_and, Bool.false_eq_true]
  unfold openExistingFile
  simp only [inodeGet_file hf, ht, zero_ne_neg_one, if_false]

/-! ## Creation -/

/-- Inode `i` is free. -/
def FreeInode (d : Disk) (i : Nat) : Prop := i < INODE_TABLE_SIZE ∧ d.freeinode_ts i = .FREE

/-- The disk with inode `i` taken for a new, empty file. -/
def freshFile (d : Disk) (i : Nat) : Disk :=
  (d.setFreeinode i .TAKEN).modInode i fun n =>
    { n with i_node_type := .T_FILE, i_size := 0, blocksAlloc := 0 }

/-- The disk with the new file in entry `j` of the directory. -/
def createdFile (d : Disk) (i j : Nat) (name : CString) : Disk :=
  { freshFile d i with fs_data := fillDirEntry d.fs_data (rootAddr d) j i name.skip }

theorem inodeCreate_cases (d : Disk) :
    (inodeCreate d .T_FILE = (-1, d) ∧ ∀ i, ¬ FreeInode d i) ∨
      ∃ i, FreeInode d i ∧ inodeCreate d .T_FILE = ((i : Int), freshFile d i) := by
  unfold inodeCreate
  rcases hf : (List.range INODE_TABLE_SIZE).find? fun i => decide (d.freeinode_ts i = .FREE) with _ | i
  · refine Or.inl ⟨rfl, fun i hi => ?_⟩
    have := List.find?_range_eq_none.mp hf i hi.1
    simp [hi.2] at this
  · obtain ⟨h1, h2, _⟩ := List.find?_range_eq_some.mp hf
    refine Or.inr ⟨i, ⟨List.mem_range.mp h2, by simpa using h1⟩, ?_⟩
    simp [freshFile, Disk.modInode, Disk.setFreeinode]

theorem FreeInode.not_file {d : Disk} {i f : Nat} (hi : FreeInode d i) (hf : FileInode d f) :
    f ≠ i := by
  rintro rfl
  have := hf.2.1
  rw [hi.2] at this
  cases this

theorem freshFile_fileInode {d : Disk} {i : Nat} (hi : FreeInode d i) (g : Nat) :
    FileInode (freshFile d i) g ↔ FileInode d g ∨ g = i := by
  by_cases hg : g = i
  · subst hg
    simp [FileInode, freshFile, Disk.setFreeinode, hi.1]
  · simp [FileInode, freshFile, Disk.setFreeinode, Function.update_of_ne, hg]

theorem freshFile_of_ne (d : Disk) {i g : Nat} (hg : g ≠ i) :
    (freshFile d i).inode_table g = d.inode_table g := by simp [freshFile, hg]

theorem DiskInv.free_ne_root {d : Disk} {i : Nat} (h : DiskInv d) (hi : FreeInode d i) :
    ROOT_DIR_INUM ≠ i := by
  rintro rfl
  have := h.root_taken
  rw [hi.2] at this
  cases this

/-- A new file owns nothing. -/
theorem freshFile_ownedBlock {d : Disk} {i : Nat} (h : DiskInv d) (hi : FreeInode d i) (o : Owner) :
    ownedBlock (freshFile d i) o = ownedBlock d o := by
  have hzero : ((freshFile d i).inode_table i).blocksAlloc = 0 := by simp [freshFile]
  have hnot : ¬ FileInode d i := fun hf => hi.not_file hf rfl
  cases o with
  | root =>
    unfold ownedBlock rootBlock
    rw [freshFile_of_ne d (h.free_ne_root hi)]
  | data g k =>
    by_cases hg : g = i
    · subst hg
      rw [ownedBlock_data_none (by omega)]
      simp [ownedBlock, hnot]
    · simp only [ownedBlock, freshFile_fileInode hi, hg, or_false, freshFile_of_ne d hg, blockNo,
        indirectAddr]
      rfl
  | indirect g =>
    by_cases hg : g = i
    · subst hg
      rw [ownedBlock_indirect_none (by omega)]
      simp [ownedBlock, hnot]
    · simp only [ownedBlock, freshFile_fileInode hi, hg, or_false, freshFile_of_ne d hg]

theorem DiskInv.freshFile {d : Disk} {i : Nat} (h : DiskInv d) (hi : FreeInode d i) :
    DiskInv (freshFile d i) where
  root_taken := by
    simp [parte1.freshFile, Disk.setFreeinode, Function.update_of_ne (h.free_ne_root hi), h.root_taken]
  root_dir := by rw [freshFile_of_ne d (h.free_ne_root hi)]; exact h.root_dir
  file_type := by
    intro f h0 ht
    by_cases hf : f = i
    · subst hf
      simp [parte1.freshFile]
    · rw [freshFile_of_ne d hf]
      apply h.file_type f h0
      simpa [parte1.freshFile, Disk.setFreeinode, Function.update_of_ne hf] using ht
  blocks_le := by
    intro f hf
    by_cases he : f = i
    · subst he
      simp [parte1.freshFile]
    · rw [freshFile_of_ne d he]
      exact h.blocks_le f (((freshFile_fileInode hi f).mp hf).resolve_right he)
  exact := h.exact.congr (fun _ => Iff.rfl) (freshFile_ownedBlock h hi)
  dir := by
    refine h.dir.of_same ⟨?_, fun _ _ => rfl⟩ fun f hf => (freshFile_fileInode hi f).mpr (Or.inl hf)
    unfold rootBlock
    rw [freshFile_of_ne d (h.free_ne_root hi)]

/-- The disk after the new inode was given back, when the directory has no room. -/
def undone (d : Disk) (i : Nat) : Disk := (freshFile d i).setFreeinode i .FREE

theorem undone_fileInode {d : Disk} {i : Nat} (hi : FreeInode d i) (g : Nat) :
    FileInode (undone d i) g ↔ FileInode d g := by
  by_cases hg : g = i
  · subst hg
    simp [FileInode, undone, Disk.setFreeinode, hi.2]
  · simp [FileInode, undone, freshFile, Disk.setFreeinode, Function.update_of_ne, hg]

theorem undone_ownedBlock {d : Disk} {i : Nat} (h : DiskInv d) (hi : FreeInode d i) (o : Owner) :
    ownedBlock (undone d i) o = ownedBlock d o := by
  rw [← freshFile_ownedBlock h hi]
  have hzero : ((freshFile d i).inode_table i).blocksAlloc = 0 := by simp [freshFile]
  have hzero' : ((undone d i).inode_table i).blocksAlloc = 0 := hzero
  cases o with
  | root => rfl
  | data g k =>
    by_cases hg : g = i
    · subst hg
      rw [ownedBlock_data_none (by omega), ownedBlock_data_none (by omega)]
    · simp only [ownedBlock, undone_fileInode hi, freshFile_fileInode hi, hg, or_false]
      rfl
  | indirect g =>
    by_cases hg : g = i
    · subst hg
      rw [ownedBlock_indirect_none (by omega), ownedBlock_indirect_none (by omega)]
    · simp only [ownedBlock, undone_fileInode hi, freshFile_fileInode hi, hg, or_false]
      rfl

theorem DiskInv.undone {d : Disk} {i : Nat} (h : DiskInv d) (hi : FreeInode d i) :
    DiskInv (undone d i) := by
  have h1 := h.freshFile hi
  have hne := h.free_ne_root hi
  exact
    { root_taken := by
        have := h1.root_taken
        simpa [parte1.undone, Disk.setFreeinode, Function.update_of_ne hne] using this
      root_dir := h1.root_dir
      file_type := fun f h0 ht => by
        apply h1.file_type f h0
        by_cases hf : f = i
        · subst hf
          simp [parte1.undone, Disk.setFreeinode] at ht
        · simpa [parte1.undone, Disk.setFreeinode, Function.update_of_ne hf] using ht
      blocks_le := fun f hf => by
        refine h1.blocks_le f ((freshFile_fileInode hi f).mpr (Or.inl ?_))
        exact (undone_fileInode hi f).mp hf
      exact := h.exact.congr (fun _ => Iff.rfl) (undone_ownedBlock h hi)
      dir := by
        refine h.dir.of_same ⟨?_, fun _ _ => rfl⟩ fun f => (undone_fileInode hi f).mpr
        unfold rootBlock parte1.undone
        rw [Disk.setFreeinode_inode, freshFile_of_ne d hne] }

/-- An entry that is filled with a file keeps the invariant. -/
theorem DiskInv.fill {d : Disk} {i j : Nat} (h : DiskInv d) (hi : FileInode d i)
    (hj : firstEmptyEntry d.fs_data (rootAddr d) = some j) (name : CString) :
    DiskInv { d with fs_data := fillDirEntry d.fs_data (rootAddr d) j i name } := by
  obtain ⟨h1, h2, h3⟩ := List.find?_range_eq_some.mp hj
  have hjlt := List.mem_range.mp h2
  have hisize := hi.1
  simp only [INODE_TABLE_SIZE] at hisize
  -- the indirect blocks are not the block of the directory
  have hind : IndirectSame d (fillDirEntry d.fs_data (rootAddr d) j i name) := by
    intro f b hb a ha
    apply fillDirEntry_other_block _ _ _ _ _ hjlt
    by_contra hc
    have : b.toNat = (rootBlock d).toNat := by
      rw [← ha]
      unfold rootAddr BLOCK_SIZE at hc
      unfold BLOCK_SIZE
      omega
    have hroot := h.owner_inj hb (show ownedBlock d .root = _ from rfl) this
    cases hroot
  have hself := dInumber_fill_self d.fs_data (rootAddr d) j (i : Int) name (by omega) (by omega)
  exact
    { root_taken := h.root_taken
      root_dir := h.root_dir
      file_type := h.file_type
      blocks_le := h.blocks_le
      exact := h.exact.congr (fun _ => Iff.rfl) (h.ownedBlock_of_indirect hind)
      dir :=
        { entry_file := fun k hk hne => by
            by_cases hkj : k = j
            · subst hkj
              exact ⟨i, hself, hi⟩
            · have hother := dInumber_fill_of_ne d.fs_data (rootAddr d) j (i : Int) name hkj
              obtain ⟨f, hf, hfile⟩ := h.dir.entry_file k hk (by rw [← hother]; exact hne)
              exact ⟨f, hother.trans hf, hfile⟩
          live_first := fun k l hkl hl hk => by
            have hkj : k ≠ j := by
              rintro rfl
              have := hself.symm.trans hk
              omega
            have hk' : dInumber d.fs_data (rootAddr d) k = -1 := by
              rw [← dInumber_fill_of_ne d.fs_data (rootAddr d) j (i : Int) name hkj]
              exact hk
            have hlj : l ≠ j := by
              rintro rfl
              have := h3 k hkl
              simp [hk'] at this
            apply (dInumber_fill_of_ne d.fs_data (rootAddr d) j (i : Int) name hlj).trans
            exact h.dir.live_first k l hkl hl hk' } }

theorem DiskInv.createdFile {d : Disk} {i j : Nat} (h : DiskInv d) (hi : FreeInode d i)
    (hj : firstEmptyEntry d.fs_data (rootAddr d) = some j) (name : CString) :
    DiskInv (createdFile d i j name) := by
  have hroot : rootAddr (parte1.freshFile d i) = rootAddr d := by
    unfold rootAddr rootBlock
    rw [freshFile_of_ne d (h.free_ne_root hi)]
  have := (h.freshFile hi).fill ((freshFile_fileInode hi i).mpr (Or.inr rfl))
    (by rw [hroot]; exact hj) name.skip
  rw [hroot] at this
  exact this

/-- The inode that was just taken is given back as it is: a new file has no blocks to free. -/
theorem inodeDelete_fresh {d : Disk} {i : Nat} (hi : FreeInode d i) :
    inodeDelete (freshFile d i) i = (0, undone d i) := by
  have hlt := hi.1
  have hv : validInumber (i : Int) = true := by
    simp only [validInumber, decide_eq_true_eq]
    omega
  have hsize : ((freshFile d i).inode_table i).i_size = 0 := by simp [freshFile]
  have htaken : (freshFile d i).freeinode_ts i = .TAKEN := by simp [freshFile, Disk.setFreeinode]
  unfold inodeDelete
  rw [if_neg (by simp [hv, htaken])]
  simp [hsize, undone]

/-- The entry of the new file is the first empty one. -/
theorem addDirEntry_fresh {d : Disk} {i : Nat} (h : DiskInv d) (hi : FreeInode d i) {name : CString}
    (hname : name.strlen ≠ 0) :
    addDirEntry (freshFile d i) ROOT_DIR_INUM i name =
      match firstEmptyEntry d.fs_data (rootAddr d) with
      | none => (-1, freshFile d i)
      | some j => (0, { freshFile d i with fs_data := fillDirEntry d.fs_data (rootAddr d) j i name }) := by
  have hlt := hi.1
  have hv : validInumber (ROOT_DIR_INUM : Nat) = true := by decide
  have hvi : validInumber (i : Int) = true := by
    simp only [validInumber, decide_eq_true_eq]
    omega
  have hroot : (freshFile d i).inode_table ROOT_DIR_INUM = d.inode_table ROOT_DIR_INUM :=
    freshFile_of_ne d (h.free_ne_root hi)
  have hget : dataBlockGet ((d.inode_table ROOT_DIR_INUM).i_data_block 0) = some (rootAddr d) :=
    h.dataBlockGet_root
  unfold addDirEntry
  rw [if_neg (by simp only [hv, hvi]; decide), Int.toNat_natCast, hroot,
    if_neg (by simp [h.root_dir]), if_neg hname, hget]
  rfl

theorem skip_strlen {name : CString} (h : validPathname (some name) = true) :
    name.skip.strlen ≠ 0 := by
  simp only [validPathname, Bool.and_eq_true, decide_eq_true_eq] at h
  have := h.1
  simp only [CString.strlen, CString.skip, List.length_tail] at *
  omega

theorem createCritical_full {d : Disk} {name : CString} (hl : tfsLookup d name = -1)
    (hc : inodeCreate d .T_FILE = (-1, d)) : createCritical d name = (.failed, d) := by
  simp only [createCritical, hl, hc, not_zero_le_neg_one, if_false, if_true]

theorem createCritical_inode {d : Disk} {i : Nat} {name : CString} (h : DiskInv d)
    (hname : validPathname (some name) = true) (hl : tfsLookup d name = -1) (hi : FreeInode d i)
    (hc : inodeCreate d .T_FILE = ((i : Int), freshFile d i)) :
    createCritical d name =
      match firstEmptyEntry d.fs_data (rootAddr d) with
      | none => (.failed, undone d i)
      | some j => (.created i, createdFile d i j name) := by
  have hne : ¬ (i : Int) = -1 := by omega
  have hadd := addDirEntry_fresh h hi (skip_strlen hname)
  unfold createCritical
  simp only [hl, hc, not_zero_le_neg_one, hne, hadd, if_false]
  cases firstEmptyEntry d.fs_data (rootAddr d) with
  | none => simp only [if_true, inodeDelete_fresh hi]
  | some j =>
    simp only [zero_ne_neg_one, if_false]
    rfl

/-- How the section under `newFileMutex` ends: the file is there, nothing was created and no
file was touched, or inode `i` and entry `j` hold the new file. -/
theorem createCritical_cases {d : Disk} (h : DiskInv d) {name : CString}
    (hname : validPathname (some name) = true) :
    (∃ f : Nat, tfsLookup d name = f ∧ FileInode d f ∧ createCritical d name = (.found f, d)) ∨
    (tfsLookup d name = -1 ∧
      (createCritical d name = (.failed, d) ∨
        ∃ i, FreeInode d i ∧ createCritical d name = (.failed, undone d i))) ∨
    (tfsLookup d name = -1 ∧
      ∃ i j, FreeInode d i ∧ firstEmptyEntry d.fs_data (rootAddr d) = some j ∧
        createCritical d name = (.created i, createdFile d i j name)) := by
  rcases tfsLookup_cases h name with hl | ⟨f, hl, hf⟩
  · refine Or.inr ?_
    rcases inodeCreate_cases d with ⟨hc, _⟩ | ⟨i, hi, hc⟩
    · exact Or.inl ⟨hl, Or.inl (createCritical_full hl hc)⟩
    · have hcreate := createCritical_inode h hname hl hi hc
      rcases hj : firstEmptyEntry d.fs_data (rootAddr d) with _ | j <;> rw [hj] at hcreate
      · exact Or.inl ⟨hl, Or.inr ⟨i, hi, hcreate⟩⟩
      · exact Or.inr ⟨hl, i, j, hi, rfl, hcreate⟩
  · refine Or.inl ⟨f, hl, hf, ?_⟩
    simp [createCritical, hl]

end tecnicofs.parte1
