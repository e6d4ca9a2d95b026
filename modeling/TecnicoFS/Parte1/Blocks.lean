-- The blocks of the files of the first part: which block holds each run of a
-- file, who owns each block, and the invariant of the disk that ties the
-- tables, the block numbers stored in indirect blocks and the directory.
import TecnicoFS.Lib.BlockMap
import TecnicoFS.Lib.Ownership
import TecnicoFS.Parte1.Operations

open byte_memory block_map ownership

namespace tecnicofs.parte1

/-! ## Views of a file -/

/-- Inode `f` is taken and holds a file. -/
def FileInode (d : Disk) (f : Nat) : Prop :=
  f < INODE_TABLE_SIZE ∧ d.freeinode_ts f = .TAKEN ∧ (d.inode_table f).i_node_type = .T_FILE

instance (d : Disk) (f : Nat) : Decidable (FileInode d f) := inferInstanceAs (Decidable (_ ∧ _))

/-- The address of place `n` of the indirect block of `f`. -/
def indirectAddr (d : Disk) (f n : Nat) : Nat :=
  (d.inode_table f).indirect_data_block.toNat * BLOCK_SIZE + 4 * n

/-- The number of block `k` of `f`, from 0 on: a direct one, or one that the indirect block
stores. -/
def blockNo (d : Disk) (f k : Nat) : Int :=
  if k < DIRECT_BLOCK_COUNT then (d.inode_table f).i_data_block k
  else loadInt d.fs_data (indirectAddr d f (k - DIRECT_BLOCK_COUNT))

/-- The block map of `f`, for the laws of `block_map`. -/
def blocksOf (d : Disk) (f : Nat) : Nat → Nat := fun k => (blockNo d f k).toNat

def rootBlock (d : Disk) : Int := (d.inode_table ROOT_DIR_INUM).i_data_block 0

/-- The address of the directory. -/
def rootAddr (d : Disk) : Nat := (rootBlock d).toNat * BLOCK_SIZE

/-! ## Owners of blocks -/

/-- What can own a block: the root directory, a file at block `k`, and the list of the indirect
blocks of a file. -/
inductive Owner
  | root
  | data (f k : Nat)
  | indirect (f : Nat)
  deriving DecidableEq

/-- The block that an owner holds. -/
def ownedBlock (d : Disk) : Owner → Option Int
  | .root => some (rootBlock d)
  | .data f k => if FileInode d f ∧ k < (d.inode_table f).blocksAlloc then some (blockNo d f k) else none
  | .indirect f =>
    if FileInode d f ∧ DIRECT_BLOCK_COUNT < (d.inode_table f).blocksAlloc then
      some (d.inode_table f).indirect_data_block
    else none

/-- `b` is the number of a block that is marked taken. -/
def TakenBlock (d : Disk) (b : Int) : Prop :=
  validBlockNumber b = true ∧ d.free_blocks b.toNat = .TAKEN

/-! ## The invariant of the disk -/

/-- The directory lists files, and its live entries come before its empty ones. -/
structure DirInv (d : Disk) : Prop where
  entry_file : ∀ i < MAX_DIR_ENTRIES, dInumber d.fs_data (rootAddr d) i ≠ -1 →
    ∃ f : Nat, dInumber d.fs_data (rootAddr d) i = f ∧ FileInode d f
  live_first : ∀ i j, i < j → j < MAX_DIR_ENTRIES → dInumber d.fs_data (rootAddr d) i = -1 →
    dInumber d.fs_data (rootAddr d) j = -1

structure DiskInv (d : Disk) : Prop where
  root_taken : d.freeinode_ts ROOT_DIR_INUM = .TAKEN
  root_dir : (d.inode_table ROOT_DIR_INUM).i_node_type = .T_DIRECTORY
  file_type : ∀ f, f ≠ ROOT_DIR_INUM → d.freeinode_ts f = .TAKEN →
    (d.inode_table f).i_node_type = .T_FILE
  blocks_le : ∀ f, FileInode d f → (d.inode_table f).blocksAlloc ≤ MAX_INODE_BLOCKS
  exact : Exact (TakenBlock d) (ownedBlock d)
  dir : DirInv d

/-- The same directory in the same block. -/
structure DirSame (d d' : Disk) : Prop where
  block : rootBlock d' = rootBlock d
  bytes : ∀ j < BLOCK_SIZE, d'.fs_data (rootAddr d + j) = d.fs_data (rootAddr d + j)

/-- The same inodes are files. -/
def FilesSame (d d' : Disk) : Prop :=
  d'.freeinode_ts = d.freeinode_ts ∧
    ∀ g, (d'.inode_table g).i_node_type = (d.inode_table g).i_node_type

theorem FilesSame.fileInode {d d' : Disk} (h : FilesSame d d') (f : Nat) :
    FileInode d' f ↔ FileInode d f := by
  unfold FileInode
  rw [h.1, h.2 f]

theorem DirSame.addr {d d' : Disk} (h : DirSame d d') : rootAddr d' = rootAddr d := by
  unfold rootAddr
  rw [h.block]

theorem DirSame.inumber {d d' : Disk} (h : DirSame d d') {i : Nat} (hi : i < MAX_DIR_ENTRIES) :
    dInumber d'.fs_data (rootAddr d') i = dInumber d.fs_data (rootAddr d) i := by
  rw [h.addr]
  exact dInumber_congr hi h.bytes

theorem DirInv.of_same {d d' : Disk} (h : DirInv d) (hd : DirSame d d')
    (hf : ∀ f, FileInode d f → FileInode d' f) : DirInv d' where
  entry_file := by
    intro i hi hne
    rw [hd.inumber hi] at hne ⊢
    obtain ⟨f, hif, hfile⟩ := h.entry_file i hi hne
    exact ⟨f, hif, hf f hfile⟩
  live_first := by
    intro i j hij hj hi
    rw [hd.inumber (by omega)] at hi
    rw [hd.inumber hj]
    exact h.live_first i j hij hj hi

/-- A step that keeps the inodes and the directory keeps the invariant, if it keeps the
ownership of the blocks. -/
theorem DiskInv.step {d d' : Disk} (h : DiskInv d) (hf : FilesSame d d') (hd : DirSame d d')
    (hle : ∀ f, FileInode d f → (d'.inode_table f).blocksAlloc ≤ MAX_INODE_BLOCKS)
    (hex : Exact (TakenBlock d') (ownedBlock d')) : DiskInv d' where
  root_taken := by rw [hf.1]; exact h.root_taken
  root_dir := by rw [hf.2]; exact h.root_dir
  file_type := by
    intro f h0 ht
    rw [hf.1] at ht
    rw [hf.2]
    exact h.file_type f h0 ht
  blocks_le := fun f hfile => hle f ((hf.fileInode f).mp hfile)
  exact := hex
  dir := h.dir.of_same hd fun f => (hf.fileInode f).mpr

/-! ## Facts that the invariant gives -/

theorem DiskInv.root_not_file {d : Disk} (h : DiskInv d) : ¬ FileInode d ROOT_DIR_INUM := by
  rintro ⟨_, _, ht⟩
  rw [h.root_dir] at ht
  cases ht

theorem ownedBlock_data {d : Disk} {f k : Nat} (hf : FileInode d f)
    (hk : k < (d.inode_table f).blocksAlloc) : ownedBlock d (.data f k) = some (blockNo d f k) := by
  simp [ownedBlock, hf, hk]

theorem ownedBlock_indirect {d : Disk} {f : Nat} (hf : FileInode d f)
    (hk : DIRECT_BLOCK_COUNT < (d.inode_table f).blocksAlloc) :
    ownedBlock d (.indirect f) = some (d.inode_table f).indirect_data_block := by
  simp only [ownedBlock, hf, hk, and_self, if_true]

theorem TakenBlock.bounds {d : Disk} {b : Int} (h : TakenBlock d b) :
    0 ≤ b ∧ b < DATA_BLOCKS := by
  simpa [validBlockNumber] using h.1

theorem dataBlockGet_of_taken {d : Disk} {b : Int} (h : TakenBlock d b) :
    dataBlockGet b = some (b.toNat * BLOCK_SIZE) := by
  unfold dataBlockGet
  rw [if_pos h.1]

theorem DiskInv.indirect_valid {d : Disk} {f : Nat} (h : DiskInv d) (hf : FileInode d f)
    (hlt : DIRECT_BLOCK_COUNT < (d.inode_table f).blocksAlloc) :
    validBlockNumber (d.inode_table f).indirect_data_block = true :=
  (h.exact.taken_of_own (ownedBlock_indirect hf hlt)).1

/-- Two owners that hold the same block, as a natural number, are one. -/
theorem DiskInv.owner_inj {d : Disk} (h : DiskInv d) {o o' : Owner} {b b' : Int}
    (hb : ownedBlock d o = some b) (hb' : ownedBlock d o' = some b') (he : b.toNat = b'.toNat) :
    o = o' := by
  have h1 := (h.exact.taken_of_own hb).bounds
  have h2 := (h.exact.taken_of_own hb').bounds
  have : b = b' := by omega
  subst this
  exact h.exact.inj hb hb'

theorem DiskInv.injBelow {d : Disk} (h : DiskInv d) {f : Nat} (hf : FileInode d f) :
    InjBelow (blocksOf d f) (d.inode_table f).blocksAlloc := by
  intro j hj k hk he
  have := h.owner_inj (ownedBlock_data hf hj) (ownedBlock_data hf hk) he
  simpa using this

/-! ## The memory that holds the tables -/

/-- `m` has the same bytes as the disk in the root directory and in the indirect blocks. -/
def MetaSame (d : Disk) (m : Memory) : Prop :=
  ∀ o b, ownedBlock d o = some b → (∀ f k, o ≠ .data f k) →
    ∀ a, a / BLOCK_SIZE = b.toNat → m a = d.fs_data a

/-- The place of block number `k ≥ 10` lies in the indirect block. -/
theorem indirectAddr_div {d : Disk} {f n i : Nat} (hn : n < 256) (hi : i < 4) :
    (indirectAddr d f n + i) / BLOCK_SIZE = (d.inode_table f).indirect_data_block.toNat := by
  unfold indirectAddr BLOCK_SIZE
  omega

theorem blockNo_congr {d d' : Disk} {f k : Nat} (hk : k < MAX_INODE_BLOCKS)
    (hdir : k < DIRECT_BLOCK_COUNT →
      (d'.inode_table f).i_data_block k = (d.inode_table f).i_data_block k)
    (hind : DIRECT_BLOCK_COUNT ≤ k →
      (d'.inode_table f).indirect_data_block = (d.inode_table f).indirect_data_block ∧
      ∀ a, a / BLOCK_SIZE = (d.inode_table f).indirect_data_block.toNat →
        d'.fs_data a = d.fs_data a) :
    blockNo d' f k = blockNo d f k := by
  unfold blockNo
  split
  · exact hdir ‹_›
  · rename_i hge
    obtain ⟨h1, h2⟩ := hind (by omega)
    have haddr : indirectAddr d' f (k - DIRECT_BLOCK_COUNT) =
        indirectAddr d f (k - DIRECT_BLOCK_COUNT) := by
      unfold indirectAddr
      rw [h1]
    rw [haddr]
    apply loadInt_congr
    intro i hi
    apply h2
    exact indirectAddr_div (by simp only [MAX_INODE_BLOCKS, DIRECT_BLOCK_COUNT] at *; omega) hi

/-- What is needed to find the blocks of the files: the indirect blocks keep their bytes. -/
def IndirectSame (d : Disk) (m : Memory) : Prop :=
  ∀ f b, ownedBlock d (.indirect f) = some b → ∀ a, a / BLOCK_SIZE = b.toNat → m a = d.fs_data a

theorem MetaSame.indirect {d : Disk} {m : Memory} (hm : MetaSame d m) : IndirectSame d m :=
  fun f b hb => hm (.indirect f) b hb (by simp)

theorem DiskInv.blockNo_of_indirect {d : Disk} (h : DiskInv d) {m : Memory}
    (hm : IndirectSame d m) {f k : Nat} (hf : FileInode d f)
    (hk : k < (d.inode_table f).blocksAlloc) :
    blockNo { d with fs_data := m } f k = blockNo d f k := by
  have hle := h.blocks_le f hf
  refine @blockNo_congr d { d with fs_data := m } f k (by omega) (fun _ => rfl) ?_
  intro hge
  exact ⟨rfl, hm f _ (ownedBlock_indirect hf (by omega))⟩

/-- A store that leaves the indirect blocks alone changes no owner. -/
theorem DiskInv.ownedBlock_of_indirect {d : Disk} (h : DiskInv d) {m : Memory}
    (hm : IndirectSame d m) (o : Owner) :
    ownedBlock { d with fs_data := m } o = ownedBlock d o := by
  cases o with
  | root => rfl
  | indirect f => rfl
  | data f k =>
    by_cases hk : FileInode d f ∧ k < (d.inode_table f).blocksAlloc
    · rw [@ownedBlock_data { d with fs_data := m } f k hk.1 hk.2, ownedBlock_data hk.1 hk.2,
        h.blockNo_of_indirect hm hk.1 hk.2]
    · have hk' : ¬ (FileInode { d with fs_data := m } f ∧ k < (d.inode_table f).blocksAlloc) := hk
      simp only [ownedBlock, if_neg hk, if_neg hk']

theorem dirSame_of_meta {d : Disk} {m : Memory} (hm : MetaSame d m) :
    DirSame d { d with fs_data := m } where
  block := rfl
  bytes := by
    intro j hj
    apply hm .root (rootBlock d) rfl (by simp)
    unfold rootAddr BLOCK_SIZE at *
    omega

theorem DiskInv.setData {d : Disk} (h : DiskInv d) {m : Memory} (hm : MetaSame d m) :
    DiskInv { d with fs_data := m } :=
  h.step ⟨rfl, fun _ => rfl⟩ (dirSame_of_meta hm) (fun f hf => h.blocks_le f hf)
    (h.exact.congr (fun _ => Iff.rfl) (h.ownedBlock_of_indirect hm.indirect))

end tecnicofs.parte1
