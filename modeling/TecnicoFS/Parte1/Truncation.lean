-- Truncation: it gives back exactly the blocks of the file, the indirect block
-- too, and leaves the other files and the directory alone.
import TecnicoFS.Parte1.Allocation

open byte_memory block_map ownership

namespace tecnicofs.parte1

/-! ## Freeing block after block -/

/-- The disk with the listed blocks free. -/
def freed (d : Disk) (blocks : List Nat) : Disk :=
  { d with free_blocks := fun i => if i ∈ blocks then .FREE else d.free_blocks i }

@[simp] theorem freed_inode (d : Disk) (xs : List Nat) :
    (freed d xs).inode_table = d.inode_table := rfl

theorem freed_append (d : Disk) (xs ys : List Nat) : freed (freed d xs) ys = freed d (xs ++ ys) := by
  unfold freed
  congr 1
  funext i
  by_cases hy : i ∈ ys <;> by_cases hx : i ∈ xs <;> simp [hx, hy]

theorem freed_congr (d : Disk) {xs ys : List Nat} (h : ∀ i, i ∈ xs ↔ i ∈ ys) :
    freed d xs = freed d ys := by
  unfold freed
  congr 1
  funext i
  simp only [h i]

theorem dataBlockFree_spec {d : Disk} {b : Int} (h : validBlockNumber b = true) :
    dataBlockFree d b = (0, freed d [b.toNat]) := by
  unfold dataBlockFree freed Disk.setFreeBlock
  rw [if_pos h]
  congr 2
  funext i
  by_cases hi : i = b.toNat
  · simp [hi]
  · simp [hi, Function.update_of_ne]

theorem freeEach_spec (bs : List Int) (d : Disk) (hv : ∀ b ∈ bs, validBlockNumber b = true) :
    freeEach d bs = (0, freed d (bs.map Int.toNat)) := by
  induction bs generalizing d with
  | nil => simp [freeEach, freed]
  | cons b bs ih =>
    simp only [freeEach, dataBlockFree_spec (hv b (by simp))]
    rw [if_neg zero_ne_neg_one, ih _ fun x hx => hv x (by simp [hx]), freed_append]
    rfl

/-- The entries of the indirect block, then the indirect block itself. -/
theorem freeIndirectBlocks_spec {d : Disk} {f n : Nat}
    (hind : validBlockNumber (d.inode_table f).indirect_data_block = true)
    (hv : ∀ k < n, validBlockNumber (blockNo d f (DIRECT_BLOCK_COUNT + k)) = true) :
    freeIndirectBlocks d f (DIRECT_BLOCK_COUNT + n) =
      (0, freed d ((List.range n).map (fun k => blocksOf d f (DIRECT_BLOCK_COUNT + k)) ++
        [(d.inode_table f).indirect_data_block.toNat])) := by
  have hentries : indirectEntries d ((d.inode_table f).indirect_data_block.toNat * BLOCK_SIZE) n =
      (List.range n).map fun k => blockNo d f (DIRECT_BLOCK_COUNT + k) := by
    apply List.map_congr_left
    intro k _
    simp [blockNo, indirectAddr]
  have hvalid : ∀ b ∈ (List.range n).map (fun k => blockNo d f (DIRECT_BLOCK_COUNT + k)),
      validBlockNumber b = true := by
    intro b hb
    obtain ⟨k, hk, rfl⟩ := List.mem_map.mp hb
    exact hv k (List.mem_range.mp hk)
  have hget : dataBlockGet (d.inode_table f).indirect_data_block =
      some ((d.inode_table f).indirect_data_block.toNat * BLOCK_SIZE) := if_pos hind
  unfold freeIndirectBlocks
  simp only [hget, Nat.add_sub_cancel_left, hentries, freeEach_spec _ _ hvalid,
    zero_ne_neg_one, if_false, freed_inode, dataBlockFree_spec hind, List.map_map,
    freed_append]
  rfl

/-- The numbers of all blocks of `f`, its indirect block too. -/
def fileBlockNos (d : Disk) (f : Nat) : List Nat :=
  (List.range (d.inode_table f).blocksAlloc).map (blocksOf d f) ++
    if DIRECT_BLOCK_COUNT < (d.inode_table f).blocksAlloc then
      [(d.inode_table f).indirect_data_block.toNat] else []

/-- `o` is one of the owners that stand for file `f`. -/
def Owner.ofFile (f : Nat) : Owner → Prop
  | .root => False
  | .data g _ => g = f
  | .indirect g => g = f

instance (f : Nat) : DecidablePred (Owner.ofFile f) := fun o => by
  cases o <;> unfold Owner.ofFile <;> infer_instance

theorem mem_fileBlockNos {d : Disk} {f i : Nat} (hf : FileInode d f) :
    i ∈ fileBlockNos d f ↔ ∃ o b, o.ofFile f ∧ ownedBlock d o = some b ∧ b.toNat = i := by
  unfold fileBlockNos
  simp only [List.mem_append, List.mem_map, List.mem_range]
  constructor
  · rintro (⟨k, hk, rfl⟩ | hi)
    · exact ⟨.data f k, blockNo d f k, rfl, ownedBlock_data hf hk, rfl⟩
    · split at hi
      · rename_i hlt
        rw [List.mem_singleton] at hi
        exact ⟨.indirect f, _, rfl, ownedBlock_indirect hf hlt, hi.symm⟩
      · simp at hi
  · rintro ⟨o, b, ho, hb, rfl⟩
    cases o with
    | root => exact ho.elim
    | data g k =>
      obtain rfl : g = f := ho
      have hk : k < (d.inode_table g).blocksAlloc := by
        by_contra hn
        rw [ownedBlock_data_none (by omega)] at hb
        cases hb
      rw [ownedBlock_data hf hk, Option.some.injEq] at hb
      exact Or.inl ⟨k, hk, by rw [← hb]; rfl⟩
    | indirect g =>
      obtain rfl : g = f := ho
      have hk : DIRECT_BLOCK_COUNT < (d.inode_table g).blocksAlloc := by
        by_contra hn
        rw [ownedBlock_indirect_none (by omega)] at hb
        cases hb
      rw [ownedBlock_indirect hf hk, Option.some.injEq] at hb
      exact Or.inr (by rw [if_pos hk, ← hb]; simp)

/-- Deleting the blocks of a file frees those and no others. -/
theorem deleteInodeDataBlocks_spec {d : Disk} {f : Nat} (h : DiskInv d) (hf : FileInode d f) :
    deleteInodeDataBlocks d f = (0, freed d (fileBlockNos d f)) := by
  have hvalid : ∀ k < (d.inode_table f).blocksAlloc, validBlockNumber (blockNo d f k) = true :=
    fun k hk => (h.exact.taken_of_own (ownedBlock_data hf hk)).1
  -- the direct blocks, as far as the file has them
  have hdirect : ∀ j ≤ DIRECT_BLOCK_COUNT, j ≤ (d.inode_table f).blocksAlloc → ∀ d' : Disk,
      d'.inode_table = d.inode_table →
      freeEach d' ((List.range j).map (d'.inode_table f).i_data_block) =
        (0, freed d' ((List.range j).map (blocksOf d f))) := by
    intro j hj hjn d' hd'
    have hlist : (List.range j).map (d'.inode_table f).i_data_block =
        (List.range j).map (blockNo d f) := by
      apply List.map_congr_left
      intro k hk
      rw [hd']
      exact (if_pos (by have := List.mem_range.mp hk; omega)).symm
    rw [hlist, freeEach_spec, List.map_map]
    · rfl
    · intro b hb
      obtain ⟨k, hk, rfl⟩ := List.mem_map.mp hb
      exact hvalid k (by have := List.mem_range.mp hk; omega)
  unfold deleteInodeDataBlocks fileBlockNos
  by_cases hlt : DIRECT_BLOCK_COUNT < (d.inode_table f).blocksAlloc
  · obtain ⟨n, hn⟩ := Nat.exists_eq_add_of_le hlt.le
    have hind := h.indirect_valid hf hlt
    have hfree := freeIndirectBlocks_spec (n := n) hind fun k hk => hvalid _ (by omega)
    have h10 : 10 < DIRECT_BLOCK_COUNT + n := by rw [← hn]; exact hlt
    simp only [hn, h10, if_true, hfree, zero_ne_neg_one, if_false]
    have hten := hdirect 10 le_rfl (by omega) (freed d ((List.range n).map (fun k =>
      blocksOf d f (DIRECT_BLOCK_COUNT + k)) ++ [(d.inode_table f).indirect_data_block.toNat])) rfl
    rw [freed_inode, freed_append] at hten
    rw [freed_inode, hten]
    congr 1
    apply freed_congr
    intro i
    rw [List.range_add, List.map_append, List.map_map]
    simp only [List.mem_append, Function.comp_def]
    exact or_comm.trans or_assoc.symm
  · have hle : ¬ 10 < (d.inode_table f).blocksAlloc := hlt
    simp only [hle, if_false, zero_ne_neg_one, List.append_nil]
    exact hdirect _ (by omega) le_rfl d rfl

/-! ## Truncation -/

/-- The disk after file `f` was truncated. -/
def truncated (d : Disk) (f : Nat) : Disk :=
  (freed d (fileBlockNos d f)).modInode f fun i => { i with i_size := 0, blocksAlloc := 0 }

theorem truncateInode_eq {d : Disk} {f : Nat} (h : DiskInv d) (hf : FileInode d f) :
    truncateInode d f = (0, if 0 < (d.inode_table f).i_size then truncated d f else d) := by
  unfold truncateInode
  split
  · simp only [deleteInodeDataBlocks_spec h hf, zero_ne_neg_one, if_false]
    rfl
  · rfl

theorem truncated_fileInode (d : Disk) (f g : Nat) :
    FileInode (truncated d f) g ↔ FileInode d g := by
  by_cases hg : g = f
  · subst hg
    simp [FileInode, truncated, freed]
  · simp [FileInode, truncated, freed, hg]

theorem truncated_of_ne (d : Disk) {f g : Nat} (hg : g ≠ f) :
    (truncated d f).inode_table g = d.inode_table g := by simp [truncated, hg]

/-- The owners of the truncated file are gone, the others hold what they held. -/
theorem truncated_ownedBlock {d : Disk} {f : Nat} (h : DiskInv d) (hf : FileInode d f) (o : Owner) :
    ownedBlock (truncated d f) o = if o.ofFile f then none else ownedBlock d o := by
  have hroot : ROOT_DIR_INUM ≠ f := by rintro rfl; exact h.root_not_file hf
  cases o with
  | root =>
    unfold ownedBlock rootBlock
    rw [truncated_of_ne d hroot]
    rfl
  | data g k =>
    by_cases hg : g = f
    · subst hg
      rw [if_pos (show Owner.ofFile g (.data g k) from rfl)]
      exact ownedBlock_data_none (by simp [truncated])
    · rw [if_neg (show ¬ Owner.ofFile f (.data g k) from hg)]
      simp only [ownedBlock, truncated_fileInode, truncated_of_ne d hg, blockNo, indirectAddr]
      rfl
  | indirect g =>
    by_cases hg : g = f
    · subst hg
      rw [if_pos (show Owner.ofFile g (.indirect g) from rfl)]
      exact ownedBlock_indirect_none (by simp [truncated])
    · rw [if_neg (show ¬ Owner.ofFile f (.indirect g) from hg)]
      simp only [ownedBlock, truncated_fileInode, truncated_of_ne d hg]

theorem truncated_taken {d : Disk} {f : Nat} (h : DiskInv d) (hf : FileInode d f) (b : Int) :
    TakenBlock (truncated d f) b ↔ TakenBlock d b ∧ ∀ o, Owner.ofFile f o → ownedBlock d o ≠ some b := by
  have hfree : (truncated d f).free_blocks b.toNat =
      if b.toNat ∈ fileBlockNos d f then .FREE else d.free_blocks b.toNat := rfl
  unfold TakenBlock
  rw [hfree]
  constructor
  · rintro ⟨hv, ht⟩
    split at ht
    · cases ht
    · rename_i hn
      exact ⟨⟨hv, ht⟩, fun o ho hb => hn ((mem_fileBlockNos hf).mpr ⟨o, b, ho, hb, rfl⟩)⟩
  · rintro ⟨⟨hv, ht⟩, hno⟩
    refine ⟨hv, ?_⟩
    rw [if_neg]
    · exact ht
    · intro hm
      obtain ⟨o, b', ho, hb', he⟩ := (mem_fileBlockNos hf).mp hm
      have h1 := (h.exact.taken_of_own hb').bounds
      have h2 : 0 ≤ b ∧ b < DATA_BLOCKS := by simpa [validBlockNumber] using hv
      exact hno o ho ((show b' = b by omega) ▸ hb')

theorem DiskInv.truncated {d : Disk} {f : Nat} (h : DiskInv d) (hf : FileInode d f) :
    DiskInv (truncated d f) := by
  have hroot : ROOT_DIR_INUM ≠ f := by rintro rfl; exact h.root_not_file hf
  refine h.step ⟨rfl, fun g => ?_⟩ ⟨?_, fun _ _ => rfl⟩ (fun g hg => ?_)
    ((h.exact.release (Owner.ofFile f)).congr (truncated_taken h hf) (truncated_ownedBlock h hf))
  · by_cases hg : g = f
    · subst hg
      simp [parte1.truncated]
    · rw [truncated_of_ne d hg]
  · unfold rootBlock
    rw [truncated_of_ne d hroot]
  · by_cases hgf : g = f
    · subst hgf
      simp [parte1.truncated]
    · rw [truncated_of_ne d hgf]
      exact h.blocks_le g hg

end tecnicofs.parte1
