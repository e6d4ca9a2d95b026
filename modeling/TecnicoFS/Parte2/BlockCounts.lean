-- How many blocks are taken on the server: one for the directory and one for each
-- file that is not empty. So a write never runs out of blocks.
import TecnicoFS.Common.Counting
import TecnicoFS.Parte2.Entries

open byte_memory ownership

namespace tecnicofs.parte2

/-- The inodes that have a block. -/
def blockOwners (d : Disk) : Finset Nat :=
  (Finset.range INODE_TABLE_SIZE).filter fun f =>
    d.freeinode_ts f = .TAKEN ∧ 0 < (d.inode_table f).i_size

theorem mem_blockOwners {d : Disk} (h : DiskInv d) {f : Nat} :
    f ∈ blockOwners d ↔ (ownedBlock d f).isSome = true := by
  unfold blockOwners ownedBlock
  rw [Finset.mem_filter, Finset.mem_range]
  split
  · rename_i hf
    exact iff_of_true ⟨h.taken_lt f hf.1, hf⟩ rfl
  · rename_i hf
    exact ⟨fun hm => absurd hm.2 hf, fun hs => by cases hs⟩

/-- Every block is free, or the block of one inode. -/
theorem DiskInv.block_count {d : Disk} (h : DiskInv d) :
    freeAmong DATA_BLOCKS d.free_blocks + (blockOwners d).card = DATA_BLOCKS := by
  have htaken : ∀ b, b ∈ takenAmong DATA_BLOCKS d.free_blocks ↔ TakenBlock d b := by
    intro b
    rw [mem_takenAmong]
    simp only [TakenBlock, validBlockNumber, decide_eq_true_eq]
  rw [h.exact.card_eq htaken fun _ => mem_blockOwners h]
  exact freeAmong_add_taken DATA_BLOCKS d.free_blocks

section
variable {d : Disk} {n : Nat} (h : DiskInv d) (hn : Filled d n)
include h hn

/-- There are more blocks than entries in the directory. -/
theorem Filled.some_free : ∃ b < DATA_BLOCKS, d.free_blocks b = .FREE := by
  have hle := hn.dir.length_le
  have hcount := h.block_count
  have howners : (blockOwners d).card ≤ n + 1 := by
    rw [← Finset.card_range (n + 1)]
    apply Finset.card_le_card
    intro f hf
    have ht := (hn.taken f).mp (Finset.mem_filter.mp hf).2.1
    exact Finset.mem_range.mpr (by omega)
  by_contra hnone
  have hzero : freeAmong DATA_BLOCKS d.free_blocks = 0 := by
    apply freeAmong_eq_zero.mpr
    intro b hb hfree
    exact hnone ⟨b, hb, hfree⟩
  unfold MAX_DIR_ENTRIES DATA_BLOCKS at *
  omega

theorem Filled.dataBlockAlloc : ∃ b < DATA_BLOCKS, d.free_blocks b = .FREE ∧
    dataBlockAlloc d = ((b : Int), d.setFreeBlock b .TAKEN) := by
  rcases dataBlockAlloc_cases d with ha | hb
  · obtain ⟨b, hb, hfree⟩ := hn.some_free h
    unfold parte2.dataBlockAlloc at ha
    rcases hf : (List.range DATA_BLOCKS).find? fun i => decide (d.free_blocks i = .FREE) with _ | c
    · have := List.find?_range_eq_none.mp hf b hb
      simp [hfree] at this
    · rw [hf] at ha
      have := congrArg Prod.fst ha
      simp only at this
      omega
  · exact hb

/-- A write has a block for its bytes. -/
theorem Filled.write_block {f : Nat} (hf : FileInode d f) :
    TakenBlock (parte2.withDataBlock d f) ((parte2.withDataBlock d f).inode_table f).i_data_block := by
  by_cases hs : (d.inode_table f).i_size = 0
  · obtain ⟨b, hb, _, ha⟩ := hn.dataBlockAlloc h
    unfold parte2.withDataBlock
    simp only [hs, if_true, ha, Disk.modInode_self]
    refine ⟨?_, by simp⟩
    simp only [validBlockNumber, decide_eq_true_eq]
    omega
  · have he : parte2.withDataBlock d f = d := by
      unfold parte2.withDataBlock
      rw [if_neg hs]
    rw [he]
    exact h.block_taken hf.2 (by omega)

end

end tecnicofs.parte2
