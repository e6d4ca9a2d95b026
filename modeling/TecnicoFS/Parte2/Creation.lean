-- The creation of a file on the server: the disk after each of its steps, and
-- the invariant for it.
import TecnicoFS.Parte2.Blocks

open byte_memory ownership

namespace tecnicofs.parte2

/-! ## A new inode -/

def FreeInode (d : Disk) (i : Nat) : Prop := i < INODE_TABLE_SIZE ∧ d.freeinode_ts i = .FREE

/-- The disk after inode `i` was taken for an empty file. -/
def freshFile (d : Disk) (i : Nat) : Disk :=
  (d.setFreeinode i .TAKEN).modInode i fun _ => ⟨.T_FILE, 0, -1⟩

/-- The disk after the new inode was given back, when the directory has no room. -/
def undone (d : Disk) (i : Nat) : Disk := (freshFile d i).setFreeinode i .FREE

theorem inodeCreate_cases (d : Disk) :
    inodeCreate d .T_FILE = (-1, d) ∨
      ∃ i, FreeInode d i ∧ inodeCreate d .T_FILE = ((i : Int), freshFile d i) := by
  unfold inodeCreate
  rcases hf : (List.range INODE_TABLE_SIZE).find? fun i => decide (d.freeinode_ts i = .FREE) with _ | i
  · exact Or.inl rfl
  · obtain ⟨h1, h2, _⟩ := List.find?_range_eq_some.mp hf
    refine Or.inr ⟨i, ⟨List.mem_range.mp h2, by simpa using h1⟩, ?_⟩
    simp [freshFile, Disk.modInode, Disk.setFreeinode]

section
variable {d : Disk} (h : DiskInv d) {i : Nat} (hi : FreeInode d i)

theorem freshFile_of_ne (d : Disk) {i g : Nat} (hg : g ≠ i) :
    (freshFile d i).inode_table g = d.inode_table g := by simp [freshFile, hg]

theorem freshFile_freeinode (d : Disk) (i g : Nat) :
    (freshFile d i).freeinode_ts g = if g = i then .TAKEN else d.freeinode_ts g := by
  simp [freshFile, Function.update_apply]

theorem undone_freeinode (d : Disk) (i g : Nat) :
    (undone d i).freeinode_ts g = if g = i then .FREE else d.freeinode_ts g := by
  unfold undone
  rw [Disk.setFreeinode_freeinode, Function.update_apply, freshFile_freeinode]
  split <;> rfl

include hi in
theorem FreeInode.ne {f : Nat} (ht : d.freeinode_ts f = .TAKEN) : f ≠ i := by
  rintro rfl
  rw [hi.2] at ht
  cases ht

include hi in
theorem freshFile_fileInode {g : Nat} (hg : FileInode d g) : FileInode (freshFile d i) g := by
  refine ⟨hg.1, ?_⟩
  rw [freshFile_freeinode, if_neg (hi.ne hg.2)]
  exact hg.2

include hi in
theorem undone_fileInode {g : Nat} (hg : FileInode d g) : FileInode (undone d i) g := by
  refine ⟨hg.1, ?_⟩
  rw [undone_freeinode, if_neg (hi.ne hg.2)]
  exact hg.2

include hi in
/-- A new file owns nothing. -/
theorem freshFile_ownedBlock (g : Nat) : ownedBlock (freshFile d i) g = ownedBlock d g := by
  by_cases hg : g = i
  · subst hg
    rw [ownedBlock_none (by simp [freshFile])]
    simp [ownedBlock, hi.2]
  · exact ownedBlock_congr (by rw [freshFile_freeinode, if_neg hg]) (freshFile_of_ne d hg)

include hi in
theorem undone_ownedBlock (g : Nat) : ownedBlock (undone d i) g = ownedBlock d g := by
  by_cases hg : g = i
  · subst hg
    rw [ownedBlock_none (by simp [undone, freshFile])]
    simp [ownedBlock, hi.2]
  · exact ownedBlock_congr (by rw [undone_freeinode, if_neg hg]) (freshFile_of_ne d hg)

include h hi

theorem DiskInv.freshFile : DiskInv (freshFile d i) where
  root_taken := by
    rw [freshFile_freeinode, if_neg (hi.ne h.root_taken)]
    exact h.root_taken
  root_dir := by rw [freshFile_of_ne d (hi.ne h.root_taken)]; exact h.root_dir
  root_size := by rw [freshFile_of_ne d (hi.ne h.root_taken)]; exact h.root_size
  taken_lt := by
    intro g hg
    rw [freshFile_freeinode] at hg
    split at hg
    · rename_i he
      exact he ▸ hi.1
    · exact h.taken_lt g hg
  size_le := by
    intro g hg
    rw [freshFile_freeinode] at hg
    split at hg
    · rename_i he
      simp [he, parte2.freshFile]
    · rename_i he
      rw [freshFile_of_ne d he]
      exact h.size_le g hg
  exact := h.exact.congr (fun _ => Iff.rfl) (freshFile_ownedBlock hi)
  entry_file := fun _ hi' hne =>
    h.entries_of_same (parte2.freshFile d i)
      (by unfold rootBlock; rw [freshFile_of_ne d (hi.ne h.root_taken)]) (fun _ _ => rfl)
      (fun _ => freshFile_fileInode hi) hi' hne

theorem DiskInv.undone : DiskInv (undone d i) where
  root_taken := by
    rw [undone_freeinode, if_neg (hi.ne h.root_taken)]
    exact h.root_taken
  root_dir := (h.freshFile hi).root_dir
  root_size := (h.freshFile hi).root_size
  taken_lt := by
    intro g hg
    rw [undone_freeinode] at hg
    split at hg
    · cases hg
    · exact h.taken_lt g hg
  size_le := by
    intro g hg
    rw [undone_freeinode] at hg
    split at hg
    · cases hg
    · rename_i he
      exact (congrArg Inode.i_size (freshFile_of_ne d he)).le.trans (h.size_le g hg)
  exact := h.exact.congr (fun _ => Iff.rfl) (undone_ownedBlock hi)
  entry_file := fun _ hi' hne =>
    h.entries_of_same (parte2.undone d i)
      (congrArg Inode.i_data_block (freshFile_of_ne d (hi.ne h.root_taken))) (fun _ _ => rfl)
      (fun _ => undone_fileInode hi) hi' hne

end

/-! ## A new entry -/

/-- The entry after it was filled does not depend on the order of the two stores. -/
theorem fillDirEntry_eq (m : Memory) (base i : Nat) (sub_inumber : Int) (sub_name : CString) :
    fillDirEntry m base i sub_inumber sub_name =
      tecnicofs.fillDirEntry m base i sub_inumber sub_name := by
  unfold fillDirEntry tecnicofs.fillDirEntry copyDName setDInumber storeInt
  rw [store_comm]
  simp only [intBytes_length, strncpy_length, MAX_FILE_NAME]
  omega

/-- The disk with a file in entry `j` of the directory. -/
def filled (d : Disk) (i j : Nat) (name : CString) : Disk :=
  { d with fs_data := fillDirEntry d.fs_data (rootAddr d) j i name }

theorem DiskInv.filled {d : Disk} {i j : Nat} (h : DiskInv d) (hi : FileInode d i)
    (hj : j < MAX_DIR_ENTRIES) (name : CString) : DiskInv (filled d i j name) where
  root_taken := h.root_taken
  root_dir := h.root_dir
  root_size := h.root_size
  taken_lt := h.taken_lt
  size_le := h.size_le
  exact := h.exact.congr (fun _ => Iff.rfl) fun _ => rfl
  entry_file := by
    intro k hk hne
    simp only [parte2.filled, fillDirEntry_eq] at hne ⊢
    by_cases hkj : k = j
    · subst hkj
      have hlt := h.taken_lt i hi.2
      simp only [INODE_TABLE_SIZE] at hlt
      exact ⟨i, dInumber_fill_self _ _ _ _ _ (by omega) (by omega), hi⟩
    · have hother := dInumber_fill_of_ne d.fs_data (rootAddr d) j (i : Int) name hkj
      obtain ⟨f, hf, hfile⟩ := h.entry_file k hk (by rw [← hother]; exact hne)
      exact ⟨f, hother.trans hf, hfile⟩

theorem addDirEntry_cases {d : Disk} (h : DiskInv d) (i : Nat) (name : CString) :
    addDirEntry d ROOT_DIR_INUM i name = (-1, d) ∨
      ∃ j < MAX_DIR_ENTRIES, addDirEntry d ROOT_DIR_INUM i name = (0, filled d i j name) := by
  have hget : dataBlockGet (d.inode_table ROOT_DIR_INUM).i_data_block = some (rootAddr d) :=
    dataBlockGet_of_taken h.root_block_taken
  unfold addDirEntry
  split
  · exact Or.inl rfl
  split
  · exact Or.inl rfl
  split
  · exact Or.inl rfl
  simp only [Int.toNat_natCast, hget]
  rcases hj : firstEmptyEntry d.fs_data (rootAddr d) with _ | j
  · exact Or.inl rfl
  · obtain ⟨_, h2, _⟩ := List.find?_range_eq_some.mp hj
    exact Or.inr ⟨j, List.mem_range.mp h2, rfl⟩

/-- The inode that was just taken is given back as it is. -/
theorem inodeDelete_fresh {d : Disk} {i : Nat} (hi : FreeInode d i) :
    inodeDelete (freshFile d i) i = (0, undone d i) := by
  have hv := validInumber_nat hi.1
  have hsize : ((freshFile d i).inode_table i).i_size = 0 := by simp [freshFile]
  have htaken : (freshFile d i).freeinode_ts i = .TAKEN := by simp [freshFile_freeinode]
  unfold inodeDelete
  rw [if_neg (by simp [hv, htaken])]
  simp [hsize, undone]

/-! ## The whole open -/

/-- The disk after the truncation that the flags ask for. -/
def afterTrunc (d : Disk) (flags : BitVec 32) (f : Nat) : Disk :=
  if hasFlag flags TFS_O_TRUNC then truncated d f else d

/-- The disk with the new file `i` in entry `j`. -/
def createdFile (d : Disk) (i j : Nat) (name : CString) : Disk := filled (freshFile d i) i j name

/-- The ways in which the body of `tfs_open` can end: refused, no room for a new file, a file that
was found, a file that was created. -/
theorem tfsOpenUnsynchronized_ends {s : State} (h : DiskInv s.disk) {name : Option CString}
    {flags : BitVec 32} {r : Int × State} (hr : tfsOpenUnsynchronized s name flags = some r) :
    (tfsLookupUnsynchronized s.disk name = -1 ∧ r = (-1, s)) ∨
    (∃ i, FreeInode s.disk i ∧ tfsLookupUnsynchronized s.disk name = -1 ∧
      r = (-1, { s with disk := undone s.disk i })) ∨
    (∃ f : Nat, tfsLookupUnsynchronized s.disk name = f ∧ FileInode s.disk f ∧
      r = addToOpenFileTable { s with disk := afterTrunc s.disk flags f } f
        (initialOffset (afterTrunc s.disk flags f) flags f)) ∨
    (∃ i, FreeInode s.disk i ∧ tfsLookupUnsynchronized s.disk name = -1 ∧
      ∃ j < MAX_DIR_ENTRIES, ∃ sub_name,
        r = addToOpenFileTable { s with disk := createdFile s.disk i j sub_name } i 0) := by
  unfold tfsOpenUnsynchronized at hr
  simp only at hr
  rcases h.lookup_cases name with hl | ⟨f, hl, hf⟩
  · rw [hl] at hr ⊢
    simp only [not_zero_le_neg_one, if_false] at hr
    split at hr
    · unfold openNew at hr
      rcases inodeCreate_cases s.disk with hc | ⟨i, hi, hc⟩
      · simp only [hc, if_true, Option.some.injEq] at hr
        exact Or.inl ⟨rfl, hr.symm⟩
      · have hne : ¬ (i : Int) = -1 := by omega
        simp only [hc, hne, if_false] at hr
        obtain ⟨sub_name, _, rfl⟩ := Option.map_eq_some_iff.mp hr
        rcases addDirEntry_cases (h.freshFile hi) i sub_name with ha | ⟨j, hj, ha⟩
        · refine Or.inr (Or.inl ⟨i, hi, rfl, ?_⟩)
          simp only [ha, if_true, inodeDelete_fresh hi]
        · refine Or.inr (Or.inr (Or.inr ⟨i, hi, rfl, j, hj, sub_name, ?_⟩))
          simp only [ha, zero_ne_neg_one, if_false]
          rfl
    · cases hr
      exact Or.inl ⟨rfl, rfl⟩
  · have h0 : (0 : Int) ≤ f := by omega
    rw [hl] at hr ⊢
    simp only [h0, if_true, Option.some.injEq] at hr
    refine Or.inr (Or.inr (Or.inl ⟨f, rfl, hf, ?_⟩))
    subst hr
    have ht : (if hasFlag flags TFS_O_TRUNC = true then truncateInode s.disk f else (0, s.disk)) =
        (0, afterTrunc s.disk flags f) := by
      unfold afterTrunc
      split
      · exact truncateInode_eq h hf.2
      · rfl
    unfold openExisting
    simp only [h.inodeGet hf.2, ht, zero_ne_neg_one, if_false]

end tecnicofs.parte2
