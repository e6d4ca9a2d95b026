-- The invariant of the server's disk: a block is taken exactly when it is the
-- block of one inode that is not empty, and the directory lists taken inodes.
import TecnicoFS.Lib.Ownership
import TecnicoFS.Parte2.Handles

open byte_memory ownership

namespace tecnicofs.parte2

/-! ## Owners -/

/-- `b` is the number of a block that is marked taken. -/
def TakenBlock (d : Disk) (b : Int) : Prop :=
  validBlockNumber b = true ∧ d.free_blocks b.toNat = .TAKEN

/-- The block of an inode. An empty file has none, whatever its `i_data_block` says. -/
def ownedBlock (d : Disk) (f : Nat) : Option Int :=
  if d.freeinode_ts f = .TAKEN ∧ 0 < (d.inode_table f).i_size then
    some (d.inode_table f).i_data_block
  else none

/-- Inode `f` is taken and is not the directory. -/
def FileInode (d : Disk) (f : Nat) : Prop := f ≠ ROOT_DIR_INUM ∧ d.freeinode_ts f = .TAKEN

def rootBlock (d : Disk) : Int := (d.inode_table ROOT_DIR_INUM).i_data_block

/-- The address of the directory. -/
def rootAddr (d : Disk) : Nat := (rootBlock d).toNat * BLOCK_SIZE

structure DiskInv (d : Disk) : Prop where
  root_taken : d.freeinode_ts ROOT_DIR_INUM = .TAKEN
  root_dir : (d.inode_table ROOT_DIR_INUM).i_node_type = .T_DIRECTORY
  root_size : (d.inode_table ROOT_DIR_INUM).i_size = BLOCK_SIZE
  taken_lt : ∀ f, d.freeinode_ts f = .TAKEN → f < INODE_TABLE_SIZE
  size_le : ∀ f, d.freeinode_ts f = .TAKEN → (d.inode_table f).i_size ≤ BLOCK_SIZE
  exact : Exact (TakenBlock d) (ownedBlock d)
  entry_file : ∀ i < MAX_DIR_ENTRIES, dInumber d.fs_data (rootAddr d) i ≠ -1 →
    ∃ f : Nat, dInumber d.fs_data (rootAddr d) i = f ∧ FileInode d f

theorem TakenBlock.bounds {d : Disk} {b : Int} (h : TakenBlock d b) :
    0 ≤ b ∧ b < DATA_BLOCKS := by
  simpa [validBlockNumber] using h.1

theorem dataBlockGet_of_taken {d : Disk} {b : Int} (h : TakenBlock d b) :
    dataBlockGet b = some (b.toNat * BLOCK_SIZE) := by
  unfold dataBlockGet
  rw [if_pos h.1]

theorem ownedBlock_some {d : Disk} {f : Nat} (ht : d.freeinode_ts f = .TAKEN)
    (hs : 0 < (d.inode_table f).i_size) : ownedBlock d f = some (d.inode_table f).i_data_block := by
  unfold ownedBlock
  rw [if_pos ⟨ht, hs⟩]

theorem ownedBlock_none {d : Disk} {f : Nat} (hs : (d.inode_table f).i_size = 0) :
    ownedBlock d f = none := by
  unfold ownedBlock
  rw [if_neg (by omega)]

/-- What an inode owns depends on its table entries only. -/
theorem ownedBlock_congr {d d' : Disk} {f : Nat} (ht : d'.freeinode_ts f = d.freeinode_ts f)
    (hi : d'.inode_table f = d.inode_table f) : ownedBlock d' f = ownedBlock d f := by
  unfold ownedBlock
  rw [ht, hi]

section
variable {d : Disk} (h : DiskInv d)
include h

theorem DiskInv.root_owns : ownedBlock d ROOT_DIR_INUM = some (rootBlock d) :=
  ownedBlock_some h.root_taken (by rw [h.root_size]; decide)

theorem DiskInv.root_block_taken : TakenBlock d (rootBlock d) := h.exact.taken_of_own h.root_owns

theorem DiskInv.inodeGet {f : Nat} (ht : d.freeinode_ts f = .TAKEN) :
    inodeGet (f : Int) = some f := by
  unfold parte2.inodeGet
  rw [if_pos (validInumber_nat (h.taken_lt f ht)), Int.toNat_natCast]

theorem DiskInv.block_taken {f : Nat} (ht : d.freeinode_ts f = .TAKEN)
    (hs : 0 < (d.inode_table f).i_size) : TakenBlock d (d.inode_table f).i_data_block :=
  h.exact.taken_of_own (ownedBlock_some ht hs)

/-- Nobody else has the block of `f`. -/
theorem DiskInv.block_alone {f g : Nat} (ht : d.freeinode_ts f = .TAKEN)
    (hs : 0 < (d.inode_table f).i_size) (hg : g ≠ f) :
    ownedBlock d g ≠ some (d.inode_table f).i_data_block := fun ho =>
  hg (h.exact.inj ho (ownedBlock_some ht hs))

/-- The lookup gives -1 or the number of a file. -/
theorem DiskInv.lookup_cases (name : Option CString) :
    tfsLookupUnsynchronized d name = -1 ∨
      ∃ f : Nat, tfsLookupUnsynchronized d name = f ∧ FileInode d f := by
  unfold tfsLookupUnsynchronized
  cases name with
  | none => exact Or.inl rfl
  | some name =>
    simp only
    split
    · exact Or.inl rfl
    · have hroot : findInDir d ROOT_DIR_INUM name.skip =
          scanDir d.fs_data (rootAddr d) name.skip := by
        have hget := dataBlockGet_of_taken h.root_block_taken
        unfold rootBlock at hget
        unfold findInDir
        rw [if_neg (by simp [h.root_dir, validInumber])]
        simp only [Int.toNat_natCast, hget]
        rfl
      rw [hroot]
      rcases scanDir_cases d.fs_data (rootAddr d) name.skip with hs | ⟨i, hi, hne, hs⟩
      · exact Or.inl hs
      · obtain ⟨f, hf, hfile⟩ := h.entry_file i hi hne
        exact Or.inr ⟨f, hs.trans hf, hfile⟩

end

/-! ## The first state -/

/-- The disk that `tfs_init` leaves: inode 0 is the directory, in block 0. -/
def firstDisk (d : Disk) : Disk where
  inode_table := Function.update d.inode_table 0 ⟨.T_DIRECTORY, BLOCK_SIZE, 0⟩
  freeinode_ts := Function.update (fun _ => .FREE) 0 .TAKEN
  fs_data := clearDir d.fs_data 0 MAX_DIR_ENTRIES
  free_blocks := Function.update (fun _ => .FREE) 0 .TAKEN

theorem tfsInit_eq (s : State) :
    tfsInit s = (0,
      { disk := firstDisk s.disk
        open_file_table := s.open_file_table
        free_open_file_entries := fun _ => .FREE
        openFiles := 0 }) := by
  have hinode : (List.range INODE_TABLE_SIZE).find?
      (fun i => decide ((stateInit s).disk.freeinode_ts i = .FREE)) = some 0 :=
    find?_range_first (by decide) rfl
  have hblock : ∀ d : Disk, d.free_blocks = (fun _ => .FREE) →
      dataBlockAlloc d = (0, d.setFreeBlock 0 .TAKEN) := by
    intro d hd
    unfold dataBlockAlloc
    rw [find?_range_first (by decide) (by simp [hd])]
    rfl
  have hget : dataBlockGet (0 : Int) = some 0 := by decide
  unfold tfsInit inodeCreate
  simp only [hinode]
  rw [hblock _ (by simp [stateInit])]
  simp only [hget, zero_ne_neg_one, if_false]
  simp [firstDisk, stateInit, Disk.modInode, Disk.setFreeinode, Disk.setFreeBlock,
    Function.update_idem]

theorem firstDisk_taken {d : Disk} {f : Nat} (h : (firstDisk d).freeinode_ts f = .TAKEN) : f = 0 := by
  by_contra hf
  simp [firstDisk, Function.update_of_ne hf] at h

theorem firstDisk_inv (d : Disk) : DiskInv (firstDisk d) where
  root_taken := by simp [firstDisk]
  root_dir := by simp [firstDisk]
  root_size := by simp [firstDisk]
  taken_lt := fun f hf => by rw [firstDisk_taken hf]; decide
  size_le := fun f hf => by rw [firstDisk_taken hf]; simp [firstDisk]
  exact :=
    { taken_of_own := by
        intro f b ho
        unfold ownedBlock at ho
        split at ho
        · rename_i ht
          rw [firstDisk_taken ht.1] at ho
          simp only [firstDisk, Function.update_self, Option.some.injEq] at ho
          subst ho
          exact ⟨by decide, by simp [firstDisk]⟩
        · cases ho
      own_of_taken := by
        rintro b ⟨hv, ht⟩
        refine ⟨0, ?_⟩
        simp only [validBlockNumber, decide_eq_true_eq] at hv
        by_cases hb : b.toNat = 0
        · have hb0 : b = 0 := by omega
          simp [ownedBlock, firstDisk, hb0]
        · simp [firstDisk, Function.update_of_ne hb] at ht
      inj := by
        intro f g b hf hg
        unfold ownedBlock at hf hg
        split at hf
        · split at hg
          · rename_i h1 h2
            rw [firstDisk_taken h1.1, firstDisk_taken h2.1]
          · cases hg
        · cases hf }
  entry_file := fun i hi hne => by
    refine (hne ?_).elim
    simpa [rootAddr, rootBlock, firstDisk] using clearDir_inumber d.fs_data 0 _ i hi

/-! ## Truncation -/

/-- The entries of the directory carry over to a disk with the same directory and more files. -/
theorem DiskInv.entries_of_same {d : Disk} (h : DiskInv d) (d' : Disk) (hb : rootBlock d' = rootBlock d)
    (hm : ∀ j < BLOCK_SIZE, d'.fs_data (rootAddr d + j) = d.fs_data (rootAddr d + j))
    (hf : ∀ f, FileInode d f → FileInode d' f) {i : Nat} (hi : i < MAX_DIR_ENTRIES)
    (hne : dInumber d'.fs_data (rootAddr d') i ≠ -1) :
    ∃ f : Nat, dInumber d'.fs_data (rootAddr d') i = f ∧ FileInode d' f := by
  have haddr : rootAddr d' = rootAddr d := by
    unfold rootAddr
    rw [hb]
  have hsame := dInumber_congr hi hm
  rw [haddr, hsame] at hne ⊢
  obtain ⟨f, he, hfile⟩ := h.entry_file i hi hne
  exact ⟨f, he, hf f hfile⟩

/-- The disk after the file `f` lost its bytes and its block. -/
def truncated (d : Disk) (f : Nat) : Disk :=
  if 0 < (d.inode_table f).i_size then
    (d.setFreeBlock (d.inode_table f).i_data_block.toNat .FREE).modInode f fun i => { i with i_size := 0 }
  else d

theorem truncateInode_eq {d : Disk} {f : Nat} (h : DiskInv d) (ht : d.freeinode_ts f = .TAKEN) :
    truncateInode d f = (0, truncated d f) := by
  unfold truncateInode truncated dataBlockFree
  split
  · rename_i hs
    have hb := (h.block_taken ht hs).1
    simp only [hb, if_true, zero_ne_neg_one, if_false]
  · rfl

theorem truncated_freeinode (d : Disk) (f : Nat) : (truncated d f).freeinode_ts = d.freeinode_ts := by
  unfold truncated
  split <;> rfl

theorem truncated_data (d : Disk) (f : Nat) : (truncated d f).fs_data = d.fs_data := by
  unfold truncated
  split <;> rfl

theorem truncated_size (d : Disk) (f : Nat) : ((truncated d f).inode_table f).i_size = 0 := by
  unfold truncated
  split
  · simp
  · omega

theorem truncated_of_ne (d : Disk) {f g : Nat} (hg : g ≠ f) :
    (truncated d f).inode_table g = d.inode_table g := by
  unfold truncated
  split
  · simp [hg]
  · rfl

theorem DiskInv.truncated_exact {d : Disk} (h : DiskInv d) {f : Nat}
    (ht : d.freeinode_ts f = .TAKEN) :
    Exact (TakenBlock (truncated d f)) (ownedBlock (truncated d f)) := by
  have hown : ∀ g, ownedBlock (truncated d f) g = if g = f then none else ownedBlock d g := by
    intro g
    split
    · rename_i hg
      subst hg
      exact ownedBlock_none (truncated_size d g)
    · rename_i hg
      exact ownedBlock_congr (by rw [truncated_freeinode]) (truncated_of_ne d hg)
  refine (h.exact.release (· = f)).congr (fun b => ?_) hown
  unfold TakenBlock truncated
  split
  · rename_i hs
    have hself := ownedBlock_some ht hs
    have hbound := (h.block_taken ht hs).bounds
    simp only [Disk.modInode_free, Disk.setFreeBlock_free]
    constructor
    · rintro ⟨hv, hb⟩
      have hne : b ≠ (d.inode_table f).i_data_block := by
        rintro rfl
        simp at hb
      refine ⟨⟨hv, ?_⟩, ?_⟩
      · simp only [validBlockNumber, decide_eq_true_eq] at hv
        rwa [Function.update_of_ne (by omega)] at hb
      · rintro g rfl ho
        rw [hself, Option.some.injEq] at ho
        exact hne ho.symm
    · rintro ⟨⟨hv, hb⟩, hrest⟩
      refine ⟨hv, ?_⟩
      have hne : b ≠ (d.inode_table f).i_data_block := by
        rintro rfl
        exact hrest f rfl hself
      simp only [validBlockNumber, decide_eq_true_eq] at hv
      rwa [Function.update_of_ne (by omega)]
  · rename_i hs
    refine ⟨fun hb => ⟨hb, ?_⟩, fun hb => hb.1⟩
    rintro g rfl ho
    rw [ownedBlock_none (by omega)] at ho
    cases ho

theorem truncated_fileInode (d : Disk) (f g : Nat) :
    FileInode (truncated d f) g ↔ FileInode d g := by
  unfold FileInode
  rw [truncated_freeinode]

theorem DiskInv.truncated {d : Disk} (h : DiskInv d) {f : Nat} (hf : FileInode d f) :
    DiskInv (truncated d f) where
  root_taken := by rw [truncated_freeinode]; exact h.root_taken
  root_dir := by rw [truncated_of_ne d hf.1.symm]; exact h.root_dir
  root_size := by rw [truncated_of_ne d hf.1.symm]; exact h.root_size
  taken_lt := by rw [truncated_freeinode]; exact h.taken_lt
  size_le := by
    intro g hg
    rw [truncated_freeinode] at hg
    by_cases hgf : g = f
    · subst hgf
      rw [truncated_size]
      exact Nat.zero_le _
    · rw [truncated_of_ne d hgf]
      exact h.size_le g hg
  exact := h.truncated_exact hf.2
  entry_file := fun _ hi hne =>
    h.entries_of_same _ (by unfold rootBlock; rw [truncated_of_ne d hf.1.symm])
      (fun _ _ => by rw [truncated_data]) (fun g => (truncated_fileInode d f g).mpr) hi hne

end tecnicofs.parte2
