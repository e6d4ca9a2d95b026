-- How the blocks of the disk are spent: every file costs its blocks and, from the
-- eleventh on, its indirect block; the rest is free, but for the directory.
import TecnicoFS.Parte1.FreeBlocks
import TecnicoFS.Parte1.Invariant
import Mathlib.Algebra.BigOperators.Group.Finset.Basic

open byte_memory ownership

namespace tecnicofs.parte1

/-- The inodes that hold files. -/
def files (d : Disk) : Finset Nat := (Finset.range INODE_TABLE_SIZE).filter (FileInode d)

theorem mem_files {d : Disk} {f : Nat} : f ∈ files d ↔ FileInode d f := by
  unfold files
  rw [Finset.mem_filter, Finset.mem_range]
  exact ⟨fun h => h.2, fun h => ⟨h.1, h⟩⟩

/-- The owners of blocks in file `f`. -/
def ownersIn (d : Disk) (f : Nat) : Finset Owner :=
  (Finset.range (d.inode_table f).blocksAlloc).image (Owner.data f) ∪
    if DIRECT_BLOCK_COUNT < (d.inode_table f).blocksAlloc then {.indirect f} else ∅

def owners (d : Disk) : Finset Owner := insert .root ((files d).biUnion (ownersIn d))

theorem mem_ownersIn {d : Disk} {f : Nat} {o : Owner} :
    o ∈ ownersIn d f ↔ (∃ k < (d.inode_table f).blocksAlloc, o = .data f k) ∨
      (DIRECT_BLOCK_COUNT < (d.inode_table f).blocksAlloc ∧ o = .indirect f) := by
  unfold ownersIn
  rw [Finset.mem_union, Finset.mem_image]
  apply or_congr
  · constructor
    · rintro ⟨k, hk, rfl⟩
      exact ⟨k, Finset.mem_range.mp hk, rfl⟩
    · rintro ⟨k, hk, rfl⟩
      exact ⟨k, Finset.mem_range.mpr hk, rfl⟩
  · split
    · rename_i hlt
      simp [hlt]
    · rename_i hlt
      simp [hlt]

/-- A file owns as many blocks as it costs to get them one after the other. -/
theorem ownersIn_card (d : Disk) (f : Nat) :
    (ownersIn d f).card = blocksCost 0 (d.inode_table f).blocksAlloc := by
  have hinj : Function.Injective (Owner.data f) := fun _ _ he => (Owner.data.inj he).2
  have hdata : ((Finset.range (d.inode_table f).blocksAlloc).image (Owner.data f)).card =
      (d.inode_table f).blocksAlloc := by
    rw [Finset.card_image_of_injective _ hinj, Finset.card_range]
  unfold ownersIn blocksCost
  rw [Finset.card_union_of_disjoint, hdata]
  · split <;> split <;> simp_all
  · rw [Finset.disjoint_left]
    intro o ho hi
    obtain ⟨k, _, rfl⟩ := Finset.mem_image.mp ho
    split at hi <;> simp at hi

theorem mem_owners {d : Disk} {o : Owner} : o ∈ owners d ↔ (ownedBlock d o).isSome = true := by
  unfold owners
  rw [Finset.mem_insert, Finset.mem_biUnion]
  simp only [mem_files, mem_ownersIn]
  cases o with
  | root => simp [ownedBlock]
  | data f k =>
    by_cases hk : FileInode d f ∧ k < (d.inode_table f).blocksAlloc
    · rw [ownedBlock_data hk.1 hk.2]
      refine iff_of_true (Or.inr ⟨f, hk.1, Or.inl ⟨k, hk.2, rfl⟩⟩) rfl
    · refine iff_of_false ?_ (by simp [ownedBlock, hk])
      rintro (he | ⟨g, hg, ⟨j, hj, he⟩ | ⟨_, he⟩⟩) <;> cases he
      exact hk ⟨hg, hj⟩
  | indirect f =>
    by_cases hk : FileInode d f ∧ DIRECT_BLOCK_COUNT < (d.inode_table f).blocksAlloc
    · rw [ownedBlock_indirect hk.1 hk.2]
      refine iff_of_true (Or.inr ⟨f, hk.1, Or.inr ⟨hk.2, rfl⟩⟩) rfl
    · refine iff_of_false ?_ (by simp only [ownedBlock, hk, if_false, Option.isSome_none]; simp)
      rintro (he | ⟨g, hg, ⟨j, hj, he⟩ | ⟨hlt, he⟩⟩) <;> cases he
      exact hk ⟨hg, hlt⟩

theorem owners_card (d : Disk) :
    (owners d).card = 1 + ∑ f ∈ files d, blocksCost 0 (d.inode_table f).blocksAlloc := by
  unfold owners
  rw [Finset.card_insert_of_notMem, Finset.card_biUnion, Nat.add_comm]
  · simp only [ownersIn_card]
  · intro f _ g _ hfg
    rw [Function.onFun, Finset.disjoint_left]
    intro o hf hg
    rw [mem_ownersIn] at hf hg
    rcases hf with ⟨k, _, rfl⟩ | ⟨_, rfl⟩ <;> rcases hg with ⟨j, _, he⟩ | ⟨_, he⟩ <;> cases he <;>
      exact hfg rfl
  · intro hroot
    obtain ⟨f, _, hf⟩ := Finset.mem_biUnion.mp hroot
    rcases mem_ownersIn.mp hf with ⟨k, _, he⟩ | ⟨_, he⟩ <;> cases he

theorem DiskInv.block_count {d : Disk} (h : DiskInv d) :
    freeCount d + 1 + ∑ f ∈ files d, blocksCost 0 (d.inode_table f).blocksAlloc = DATA_BLOCKS := by
  have htaken : ∀ b, b ∈ takenAmong DATA_BLOCKS d.free_blocks ↔ TakenBlock d b := by
    intro b
    rw [mem_takenAmong]
    simp only [TakenBlock, validBlockNumber, decide_eq_true_eq]
  have hcard := h.exact.card_eq htaken fun _ => mem_owners
  have hall := freeAmong_add_taken DATA_BLOCKS d.free_blocks
  rw [owners_card] at hcard
  unfold freeCount
  omega

/-- What the files of the disk cost. -/
def filesCost (d : Disk) : Nat := ∑ f ∈ files d, blocksCost 0 (d.inode_table f).blocksAlloc

/-- An allocation fails when the files have used all blocks up. -/
theorem dataBlockAlloc_fails_iff {d : Disk} (h : DiskInv d) :
    (dataBlockAlloc d).1 = -1 ↔ filesCost d + 1 = DATA_BLOCKS := by
  have hcount := h.block_count
  have hfull : (dataBlockAlloc d).1 = -1 ↔ freeCount d = 0 := by
    rw [freeCount_eq_zero]
    rcases dataBlockAlloc_cases d with ⟨hr, hno⟩ | ⟨b, hb, _, hr⟩ <;> rw [hr]
    · exact iff_of_true rfl hno
    · apply iff_of_false
      · simp only
        omega
      · exact fun hno => hno b hb
  rw [hfull]
  unfold filesCost
  omega

/-- In every reachable state, also after writes that ran out of blocks and after truncations, the
free blocks, the block of the directory and the costs of the files add up to the blocks of the
disk. So no block is lost, and an allocation fails only when the files have used all of them up. -/
theorem every_block_is_free_or_paid_for (s : State) (h : Reachable s) :
    freeCount s.disk + 1 + filesCost s.disk = DATA_BLOCKS ∧
      ((dataBlockAlloc s.disk).1 = -1 ↔ filesCost s.disk + 1 = DATA_BLOCKS) :=
  ⟨h.inv.disk.block_count, dataBlockAlloc_fails_iff h.inv.disk⟩

theorem one_byte_costs_one_block : freeCount oneByteWritten.disk + 2 = DATA_BLOCKS := by
  have hlaw := (every_block_is_free_or_paid_for oneByteWritten oneByteWritten_reachable).1
  have hcost : filesCost oneByteWritten.disk = 1 := by decide +kernel
  omega

end tecnicofs.parte1
