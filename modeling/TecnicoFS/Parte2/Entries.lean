-- The inodes and the directory of the server after any calls: the first `n`
-- entries hold the inodes from 1 to `n`, and no other inode is taken. So it is
-- known which inode and which entry the next file gets.
import TecnicoFS.Common.Listing
import TecnicoFS.Parte2.Bounds

open byte_memory ownership

namespace tecnicofs.parte2

/-- The directory holds the inodes from 1 to `n`, and these are the files. -/
structure Filled (d : Disk) (n : Nat) : Prop where
  taken : ∀ f, d.freeinode_ts f = .TAKEN ↔ f ≤ n
  dir : DirFilled d.fs_data (rootAddr d) n
  file_type : ∀ f, f ≠ ROOT_DIR_INUM → f ≤ n → (d.inode_table f).i_node_type = .T_FILE

theorem firstDisk_filled (d : Disk) : Filled (firstDisk d) 0 where
  taken := by
    intro f
    refine ⟨fun hf => (firstDisk_taken hf).le, fun hf => ?_⟩
    obtain rfl : f = 0 := Nat.le_zero.mp hf
    simp [firstDisk]
  dir := by
    have haddr : rootAddr (firstDisk d) = 0 := by simp [rootAddr, rootBlock, firstDisk]
    rw [haddr]
    exact clearDir_filled d.fs_data 0
  file_type := fun f hne hf => absurd (Nat.le_zero.mp hf) hne

theorem root_ne_next (n : Nat) : ROOT_DIR_INUM ≠ n + 1 := (Nat.succ_ne_zero n).symm

section
variable {d : Disk} {n : Nat} (h : Filled d n)
include h

theorem Filled.fileInode_iff {f : Nat} : FileInode d f ↔ f ≠ ROOT_DIR_INUM ∧ f ≤ n := by
  unfold FileInode
  rw [h.taken]

/-- There are fewer entries than inodes, so there is an inode for each of them. -/
theorem Filled.next_free : FreeInode d (n + 1) := by
  have hle := h.dir.length_le
  refine ⟨by unfold MAX_DIR_ENTRIES at hle; unfold INODE_TABLE_SIZE; omega, ?_⟩
  rcases ht : d.freeinode_ts (n + 1) with _ | _
  · rfl
  · have := (h.taken _).mp ht
    omega

theorem Filled.inodeCreate : inodeCreate d .T_FILE = (((n + 1 : Nat) : Int), freshFile d (n + 1)) := by
  have hfirst : (List.range INODE_TABLE_SIZE).find? (fun i => decide (d.freeinode_ts i = .FREE)) =
      some (n + 1) := by
    apply List.find?_range_eq_some.mpr
    refine ⟨decide_eq_true_eq.mpr h.next_free.2, List.mem_range.mpr h.next_free.1, fun j hj => ?_⟩
    rw [(h.taken j).mpr (by omega)]
    rfl
  unfold parte2.inodeCreate
  rw [hfirst]
  simp [freshFile, Disk.modInode, Disk.setFreeinode]

/-- The same inodes are taken, with the same types, and the directory is the same. -/
theorem Filled.congr {d' : Disk} (ht : d'.freeinode_ts = d.freeinode_ts)
    (hty : ∀ f, f ≠ ROOT_DIR_INUM → f ≤ n →
      (d'.inode_table f).i_node_type = (d.inode_table f).i_node_type)
    (hb : rootBlock d' = rootBlock d)
    (hm : ∀ j < BLOCK_SIZE, d'.fs_data (rootAddr d + j) = d.fs_data (rootAddr d + j)) :
    Filled d' n where
  taken := by rw [ht]; exact h.taken
  dir := by
    have haddr : rootAddr d' = rootAddr d := by
      unfold rootAddr
      rw [hb]
    rw [haddr]
    exact h.dir.congr hm
  file_type := fun f hne hf => (hty f hne hf).trans (h.file_type f hne hf)

theorem Filled.undone : Filled (undone d (n + 1)) n := by
  have hroot : (parte2.undone d (n + 1)).inode_table ROOT_DIR_INUM = d.inode_table ROOT_DIR_INUM :=
    freshFile_of_ne d (root_ne_next n)
  refine h.congr (funext fun f => ?_) (fun f _ hf => ?_) (congrArg Inode.i_data_block hroot)
    fun _ _ => rfl
  · rw [undone_freeinode]
    split
    · rename_i hf
      rw [hf]
      exact h.next_free.2.symm
    · rfl
  · exact congrArg Inode.i_node_type (freshFile_of_ne d (by omega))

theorem Filled.createdFile (hroom : n < MAX_DIR_ENTRIES) (name : CString) :
    Filled (createdFile d (n + 1) n name) (n + 1) := by
  have hroot : (freshFile d (n + 1)).inode_table ROOT_DIR_INUM = d.inode_table ROOT_DIR_INUM :=
    freshFile_of_ne d (root_ne_next n)
  have haddr : rootAddr (freshFile d (n + 1)) = rootAddr d := by
    unfold rootAddr rootBlock
    rw [hroot]
  refine ⟨fun f => ?_, ?_, fun f hne hf => ?_⟩
  · change (freshFile d (n + 1)).freeinode_ts f = .TAKEN ↔ f ≤ n + 1
    rw [freshFile_freeinode]
    split
    · rename_i hf
      exact iff_of_true rfl (by omega)
    · rw [h.taken]
      omega
  · change DirFilled (fillDirEntry d.fs_data (rootAddr (freshFile d (n + 1))) n _ name)
      (rootAddr (freshFile d (n + 1))) (n + 1)
    rw [haddr, fillDirEntry_eq]
    exact h.dir.fill name hroom
  · change ((freshFile d (n + 1)).inode_table f).i_node_type = .T_FILE
    by_cases hfn : f = n + 1
    · subst hfn
      simp [freshFile]
    · rw [freshFile_of_ne d hfn]
      exact h.file_type f hne (by omega)

theorem Filled.truncated {f : Nat} (hf : FileInode d f) : Filled (truncated d f) n := by
  refine h.congr (truncated_freeinode d f) (fun g _ _ => ?_)
    (congrArg Inode.i_data_block (truncated_of_ne d hf.1.symm)) fun _ _ => by rw [truncated_data]
  unfold parte2.truncated
  split
  · by_cases hg : g = f
    · subst hg
      simp
    · simp [hg]
  · rfl

theorem Filled.afterTrunc (flags : BitVec 32) {f : Nat} (hf : FileInode d f) :
    Filled (afterTrunc d flags f) n := by
  unfold parte2.afterTrunc
  split
  · exact h.truncated hf
  · exact h

theorem Filled.withDataBlock {f : Nat} (hf : FileInode d f) : Filled (withDataBlock d f) n := by
  refine h.congr (withDataBlock_freeinode d f) (fun g _ _ => ?_)
    (congrArg Inode.i_data_block (withDataBlock_of_ne d hf.1.symm)) fun _ _ => by
      rw [withDataBlock_data]
  rcases withDataBlock_cases d f with ⟨_, he⟩ | ⟨_, he⟩ | ⟨_, b, _, _, he⟩ <;> rw [he]
  all_goals
    by_cases hg : g = f
    · subst hg
      simp [withBlock]
    · simp [withBlock, hg]

theorem Filled.grown {f : Nat} (hf : FileInode d f) (o : Nat) (m : Memory)
    (hm : ∀ j < BLOCK_SIZE, m (rootAddr d + j) = d.fs_data (rootAddr d + j)) :
    Filled (grown d f o m) n := by
  refine h.congr rfl (fun g _ _ => ?_)
    (congrArg Inode.i_data_block (grown_of_ne d hf.1.symm o m)) hm
  unfold parte2.grown
  by_cases hg : g = f
  · subst hg
    rw [Disk.modInode_self]
    split <;> rfl
  · simp [hg]

end

/-! ## The ends of an open -/

theorem nameSkip_some {path : CString} (hp : path.strlen ≠ 0) :
    nameSkip (some path) = some path.skip := by
  simp only [nameSkip, hp, if_false]

section
variable {s : State} {n : Nat} (h : DiskInv s.disk) (hn : Filled s.disk n)
include h hn

/-- The new name needs a character, and the directory an empty entry. -/
theorem addDirEntry_fresh (name : CString) :
    addDirEntry (freshFile s.disk (n + 1)) ROOT_DIR_INUM (n + 1 : Nat) name =
      if name.strlen = 0 ∨ n = MAX_DIR_ENTRIES then (-1, freshFile s.disk (n + 1))
      else (0, createdFile s.disk (n + 1) n name) := by
  have hle := hn.dir.length_le
  have hfree := hn.next_free
  have hfresh := h.freshFile hfree
  have hget : dataBlockGet ((freshFile s.disk (n + 1)).inode_table ROOT_DIR_INUM).i_data_block =
      some (rootAddr (freshFile s.disk (n + 1))) := dataBlockGet_of_taken hfresh.root_block_taken
  have hroot : (freshFile s.disk (n + 1)).inode_table ROOT_DIR_INUM =
      s.disk.inode_table ROOT_DIR_INUM := freshFile_of_ne s.disk (root_ne_next n)
  have haddr : rootAddr (freshFile s.disk (n + 1)) = rootAddr s.disk := by
    unfold rootAddr rootBlock
    rw [hroot]
  have hempty : firstEmptyEntry (freshFile s.disk (n + 1)).fs_data (rootAddr s.disk) =
      if n < MAX_DIR_ENTRIES then some n else none := hn.dir.firstEmpty
  have hv0 : validInumber (ROOT_DIR_INUM : Int) = true := by decide
  have hv1 := validInumber_nat hfree.1
  unfold addDirEntry
  simp only [hv0, hv1, Bool.true_eq_false, or_self, if_false, Int.toNat_natCast, hfresh.root_dir,
    ne_eq, not_true_eq_false, hget, haddr, hempty]
  by_cases hname : name.strlen = 0
  · simp only [hname, if_true, true_or]
  · simp only [hname, if_false, false_or]
    by_cases hfull : n = MAX_DIR_ENTRIES
    · rw [if_neg (by omega), if_pos hfull]
    · rw [if_pos (by omega), if_neg hfull]
      simp only [createdFile, filled, haddr]

/-- A file is created with the next inode, in the next entry. -/
theorem openNew_eq {path : CString} (hp : path.strlen ≠ 0) :
    openNew s (some path) = some (
      if path.skip.strlen = 0 ∨ n = MAX_DIR_ENTRIES then
        (-1, { s with disk := undone s.disk (n + 1) })
      else
        addToOpenFileTable { s with disk := createdFile s.disk (n + 1) n path.skip }
          (n + 1 : Nat) 0) := by
  have hne : ¬ ((n + 1 : Nat) : Int) = -1 := by omega
  unfold openNew
  simp only [hn.inodeCreate, hne, if_false, nameSkip_some hp, Option.map_some,
    addDirEntry_fresh h hn]
  by_cases hfull : path.skip.strlen = 0 ∨ n = MAX_DIR_ENTRIES
  · simp only [hfull, if_true, inodeDelete_fresh hn.next_free]
  · simp only [hfull, if_false, zero_ne_neg_one]

omit hn in
theorem openExisting_file {f : Nat} (hf : FileInode s.disk f) (flags : BitVec 32) :
    openExisting s flags f =
      addToOpenFileTable { s with disk := afterTrunc s.disk flags f } f
        (initialOffset (afterTrunc s.disk flags f) flags f) := by
  have ht : (if hasFlag flags TFS_O_TRUNC = true then truncateInode s.disk f else (0, s.disk)) =
      (0, afterTrunc s.disk flags f) := by
    unfold afterTrunc
    split
    · exact truncateInode_eq h hf.2
    · rfl
  unfold openExisting
  simp only [h.inodeGet hf.2, ht, zero_ne_neg_one, if_false]

/-- The ways in which the body of `tfs_open` can end: nothing is done, there is no room for a new
file, a file was found, or the next one was created. -/
theorem tfsOpenUnsynchronized_filled {name : Option CString} {flags : BitVec 32}
    {r : Int × State} (hr : tfsOpenUnsynchronized s name flags = some r) :
    r = (-1, s) ∨ r = (-1, { s with disk := undone s.disk (n + 1) }) ∨
      (∃ f, FileInode s.disk f ∧
        r = addToOpenFileTable { s with disk := afterTrunc s.disk flags f } f
          (initialOffset (afterTrunc s.disk flags f) flags f)) ∨
      ∃ sub_name, n < MAX_DIR_ENTRIES ∧
        r = addToOpenFileTable { s with disk := createdFile s.disk (n + 1) n sub_name }
          (n + 1 : Nat) 0 := by
  unfold tfsOpenUnsynchronized at hr
  simp only at hr
  rcases h.lookup_cases name with hl | ⟨f, hl, hf⟩
  · rw [hl] at hr
    simp only [not_zero_le_neg_one, if_false] at hr
    split at hr
    · cases name with
      | none =>
        unfold openNew at hr
        have hne : ¬ ((n + 1 : Nat) : Int) = -1 := by omega
        simp only [hn.inodeCreate, hne, if_false, nameSkip, Option.map_none] at hr
        cases hr
      | some path =>
        by_cases hp : path.strlen = 0
        · have hne : ¬ ((n + 1 : Nat) : Int) = -1 := by omega
          unfold openNew at hr
          simp only [hn.inodeCreate, hne, if_false, nameSkip, hp, if_true, Option.map_none] at hr
          cases hr
        · rw [openNew_eq h hn hp, Option.some.injEq] at hr
          split at hr
          · exact Or.inr (Or.inl hr.symm)
          · have hle := hn.dir.length_le
            exact Or.inr (Or.inr (Or.inr ⟨path.skip, by omega, hr.symm⟩))
    · cases hr
      exact Or.inl rfl
  · have h0 : (0 : Int) ≤ f := by omega
    rw [hl] at hr
    simp only [h0, if_true, Option.some.injEq] at hr
    rw [openExisting_file h hf] at hr
    exact Or.inr (Or.inr (Or.inl ⟨f, hf, hr.symm⟩))

end

end tecnicofs.parte2
