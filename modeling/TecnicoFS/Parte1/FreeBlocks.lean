-- How many blocks a write gets: as many as it needs, or as many as the free blocks
-- pay for. The eleventh block of a file costs two, because it comes with the
-- indirect block.
import TecnicoFS.Common.Counting
import TecnicoFS.Parte1.Copying
import Mathlib.Data.Nat.Find

open byte_memory block_map ownership

namespace tecnicofs.parte1

def freeCount (d : Disk) : Nat := freeAmong DATA_BLOCKS d.free_blocks

/-- What it costs a file to get from `b` to `n` blocks. -/
def blocksCost (b n : Nat) : Nat :=
  (n - b) + if b ≤ DIRECT_BLOCK_COUNT ∧ DIRECT_BLOCK_COUNT < n then 1 else 0

/-- The most blocks, up to the ones that are needed, that a file with `b` blocks can have. -/
def blocksWithin (b needed free : Nat) : Nat :=
  Nat.findGreatest (fun n => blocksCost b n ≤ free) (max b needed)

/-! ## Costs -/

theorem blocksCost_self (b : Nat) : blocksCost b b = 0 := by
  unfold blocksCost
  split <;> omega

theorem blocksCost_add {b m n : Nat} (hbm : b ≤ m) (hmn : m ≤ n) :
    blocksCost b m + blocksCost m n = blocksCost b n := by
  unfold blocksCost
  split_ifs <;> omega

theorem blocksCost_mono {b m n : Nat} (hbm : b ≤ m) (hmn : m ≤ n) :
    blocksCost b m ≤ blocksCost b n := by
  rw [← blocksCost_add hbm hmn]
  omega

theorem blocksWithin_eq {b needed free n : Nat} (hb : b ≤ n) (hn : n ≤ max b needed)
    (hcost : blocksCost b n ≤ free) (hmax : n = max b needed ∨ free < blocksCost b (n + 1)) :
    blocksWithin b needed free = n := by
  refine Nat.findGreatest_eq_iff.mpr ⟨hn, fun _ => hcost, fun m hm hmle hle => ?_⟩
  rcases hmax with rfl | hlt
  · omega
  · have := blocksCost_mono (show b ≤ n + 1 by omega) (show n + 1 ≤ m by omega)
    omega

theorem le_blocksWithin (b needed free : Nat) : b ≤ blocksWithin b needed free := by
  apply Nat.le_findGreatest (Nat.le_max_left ..)
  rw [blocksCost_self]
  exact Nat.zero_le _

theorem blocksWithin_le (b needed free : Nat) : blocksWithin b needed free ≤ max b needed :=
  Nat.findGreatest_le _

/-! ## The free blocks -/

theorem freeCount_take {d : Disk} {b : Nat} (hb : FreeBlock d b) :
    freeCount (d.setFreeBlock b .TAKEN) + 1 = freeCount d := freeAmong_take hb.1 hb.2

theorem freeCount_eq_zero {d : Disk} : freeCount d = 0 ↔ ∀ b, ¬ FreeBlock d b := by
  unfold freeCount
  rw [freeAmong_eq_zero]
  exact ⟨fun h b hb => h b hb.1 hb.2, fun h b hlt hfree => h b ⟨hlt, hfree⟩⟩

/-- One call for the next block is paid from the free blocks, or fails because they do not pay
for it. -/
theorem allocNthDataBlock_count {d : Disk} {f : Nat} (h : DiskInv d) (hf : FileInode d f)
    (hn : (d.inode_table f).blocksAlloc < MAX_INODE_BLOCKS) :
    let n := (d.inode_table f).blocksAlloc
    let r := allocNthDataBlock d f (n + 1)
    (r.1 = 1 ∧ freeCount r.2 = freeCount d ∧ freeCount d < blocksCost n (n + 1)) ∨
      (r.1 = 0 ∧ freeCount r.2 + blocksCost n (n + 1) = freeCount d) := by
  have hvalid := h.indirect_valid hf
  generalize hblocks : (d.inode_table f).blocksAlloc = n at hn hvalid
  have hone : n ≠ DIRECT_BLOCK_COUNT → blocksCost n (n + 1) = 1 := by
    intro hne
    unfold blocksCost
    split <;> omega
  have htwo : blocksCost DIRECT_BLOCK_COUNT (DIRECT_BLOCK_COUNT + 1) = 2 := rfl
  rcases allocNthDataBlock_cases hn hvalid with ⟨hr, hno⟩ | ⟨rfl, b, hb, honly, hr⟩ | ⟨hlt, b, hb, hr⟩ |
    ⟨rfl, b, b', hb, hb', hne, hr⟩ | ⟨hgt, b, hb, hr⟩ <;> simp only [hr]
  · refine Or.inl ⟨trivial, trivial, ?_⟩
    rw [freeCount_eq_zero.mpr hno]
    unfold blocksCost
    omega
  · -- one free block does not pay for two
    refine Or.inl ⟨trivial, rfl, ?_⟩
    have hzero : freeCount (d.setFreeBlock b .TAKEN) = 0 := by
      apply freeCount_eq_zero.mpr
      intro c hc
      have hcb : c ≠ b := by
        rintro rfl
        simpa using hc.2
      refine hcb (honly c ⟨hc.1, ?_⟩)
      simpa [Function.update_of_ne hcb] using hc.2
    have := freeCount_take hb
    omega
  · refine Or.inr ⟨trivial, ?_⟩
    rw [hone (by omega)]
    exact freeCount_take hb
  · refine Or.inr ⟨trivial, ?_⟩
    have hfree' : FreeBlock (d.setFreeBlock b .TAKEN) b' :=
      ⟨hb'.1, by simpa [Function.update_of_ne hne.symm] using hb'.2⟩
    have h1 := freeCount_take hb
    have h2 := freeCount_take hfree'
    have hsame : freeCount (withIndirect d f b b') =
        freeCount ((d.setFreeBlock b .TAKEN).setFreeBlock b' .TAKEN) := rfl
    omega
  · refine Or.inr ⟨trivial, ?_⟩
    rw [hone (by omega)]
    exact freeCount_take hb

theorem allocBlocksLoop_count {d : Disk} {f : Nat} (todo : Nat) (h : DiskInv d) (hf : FileInode d f)
    (hn : (d.inode_table f).blocksAlloc + todo ≤ MAX_INODE_BLOCKS) :
    let b := (d.inode_table f).blocksAlloc
    let r := allocBlocksLoop d f b todo
    let n := (r.2.inode_table f).blocksAlloc
    freeCount r.2 + blocksCost b n = freeCount d ∧
      (n = b + todo ∨ freeCount d < blocksCost b (n + 1)) := by
  induction todo generalizing d with
  | zero =>
    simp only [allocBlocksLoop, blocksCost_self]
    omega
  | succ todo ih =>
    obtain ⟨hinv, hg, _⟩ := allocNthDataBlock_spec h hf (by omega)
    have hblocks := (allocNthDataBlock_spec h hf (by omega)).2.2
    rcases allocNthDataBlock_count h hf (by omega) with ⟨hr, hfree, hcost⟩ | ⟨hr, hfree⟩
    · have hb := (hblocks.resolve_right fun hc => by omega).2
      simp only [allocBlocksLoop, hr]
      simp only [show ¬ (1 : Int) = -1 by decide, if_false, if_true, hb, blocksCost_self]
      omega
    · have hb := (hblocks.resolve_left fun hc => by omega).2
      have hf' := (hg.fileInode f).mpr hf
      have hrest := ih hinv hf' (by omega)
      have hle := (allocBlocksLoop_spec todo hinv hf' (by omega)).2.2.1.blocks_le
      rw [hb] at hrest hle
      simp only at hrest
      simp only [allocBlocksLoop, hr, zero_ne_neg_one, if_false, zero_ne_one]
      have h1 := blocksCost_add (Nat.le_succ (d.inode_table f).blocksAlloc) hle
      have h2 := blocksCost_add (Nat.le_succ (d.inode_table f).blocksAlloc)
        (Nat.le_succ_of_le hle)
      simp only [Nat.succ_eq_add_one] at h1 h2
      omega

/-- The blocks of the file once the blocks for a write are there, and what they have cost. -/
theorem grownFor_count {d : Disk} {f : Nat} (h : DiskInv d) (hf : FileInode d f) (len o : Nat) :
    let b := (d.inode_table f).blocksAlloc
    let n := blocksWithin b (divCeil (sizeNeeded len o) BLOCK_SIZE) (freeCount d)
    ((grownFor d f len o).inode_table f).blocksAlloc = n ∧
      freeCount (grownFor d f len o) + blocksCost b n = freeCount d := by
  have hle := h.blocks_le f hf
  have hceil : divCeil (sizeNeeded len o) BLOCK_SIZE ≤ MAX_INODE_BLOCKS :=
    divCeil_le_iff.mpr (sizeNeeded_le len o)
  have hcount := allocBlocksLoop_count
    (divCeil (sizeNeeded len o) BLOCK_SIZE - (d.inode_table f).blocksAlloc) h hf (by omega)
  have hspec := allocBlocksLoop_spec
    (divCeil (sizeNeeded len o) BLOCK_SIZE - (d.inode_table f).blocksAlloc) h hf (by omega)
  obtain ⟨_, _, hg, hto⟩ := hspec
  have hfrom := hg.blocks_le
  simp only at hcount
  have hn : blocksWithin (d.inode_table f).blocksAlloc (divCeil (sizeNeeded len o) BLOCK_SIZE)
      (freeCount d) = ((grownFor d f len o).inode_table f).blocksAlloc := by
    refine blocksWithin_eq hfrom (hto.trans (by omega)) (by
      have := hcount.1
      unfold grownFor allocNecessaryBlocks
      simp only
      omega) ?_
    rcases hcount.2 with hall | hpoor
    · refine Or.inl (hall.trans ?_)
      omega
    · exact Or.inr hpoor
  refine ⟨hn.symm, ?_⟩
  rw [hn]
  exact hcount.1

end tecnicofs.parte1
