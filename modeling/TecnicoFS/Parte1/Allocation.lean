-- What allocation does to the disk: a file gets new blocks behind the ones it
-- has, the other files keep theirs, and the ownership of the blocks stays
-- exact. The indirect block costs a block of its own.
import TecnicoFS.Parte1.Blocks

open byte_memory block_map ownership

namespace tecnicofs.parte1

/-- Block `b` is free. -/
def FreeBlock (d : Disk) (b : Nat) : Prop := b < DATA_BLOCKS ∧ d.free_blocks b = .FREE

/-- What an allocation for file `f` leaves as it was. -/
structure Grown (f : Nat) (d d' : Disk) : Prop where
  files : FilesSame d d'
  inode_other : ∀ g, g ≠ f → d'.inode_table g = d.inode_table g
  size : (d'.inode_table f).i_size = (d.inode_table f).i_size
  blocks_le : (d.inode_table f).blocksAlloc ≤ (d'.inode_table f).blocksAlloc
  block_same : ∀ k < (d.inode_table f).blocksAlloc, blockNo d' f k = blockNo d f k
  indirect_same : DIRECT_BLOCK_COUNT < (d.inode_table f).blocksAlloc →
    (d'.inode_table f).indirect_data_block = (d.inode_table f).indirect_data_block
  mem : ∀ o b, ownedBlock d o = some b → o ≠ .indirect f →
    ∀ a, a / BLOCK_SIZE = b.toNat → d'.fs_data a = d.fs_data a

theorem Grown.refl (f : Nat) (d : Disk) : Grown f d d :=
  ⟨⟨rfl, fun _ => rfl⟩, fun _ _ => rfl, rfl, le_rfl, fun _ _ => rfl, fun _ => rfl,
    fun _ _ _ _ _ _ => rfl⟩

/-! ## One free block -/

theorem dataBlockAlloc_cases (d : Disk) :
    (dataBlockAlloc d = (-1, d) ∧ ∀ b, ¬ FreeBlock d b) ∨
      ∃ b, FreeBlock d b ∧ (∀ j < b, ¬ FreeBlock d j) ∧
        dataBlockAlloc d = ((b : Int), d.setFreeBlock b .TAKEN) := by
  unfold dataBlockAlloc
  rcases hf : (List.range DATA_BLOCKS).find? fun i => decide (d.free_blocks i = .FREE) with _ | b
  · refine Or.inl ⟨rfl, fun b hb => ?_⟩
    have := List.find?_range_eq_none.mp hf b hb.1
    simp [hb.2] at this
  · obtain ⟨h1, h2, h3⟩ := List.find?_range_eq_some.mp hf
    refine Or.inr ⟨b, ⟨List.mem_range.mp h2, by simpa using h1⟩, fun j hj hfree => ?_, rfl⟩
    have := h3 j hj
    simp [hfree.2] at this

theorem not_taken_of_free {d : Disk} {b : Nat} (h : FreeBlock d b) : ¬ TakenBlock d (b : Int) := by
  rintro ⟨_, ht⟩
  rw [Int.toNat_natCast, h.2] at ht
  cases ht

/-- No owner holds a free block. -/
theorem DiskInv.owned_ne_free {d : Disk} (h : DiskInv d) {o : Owner} {b : Int} {b' : Nat}
    (ho : ownedBlock d o = some b) (hb : FreeBlock d b') : b.toNat ≠ b' := by
  intro he
  have ht := (h.exact.taken_of_own ho).2
  rw [he, hb.2] at ht
  cases ht

theorem validBlockNumber_nat {b : Nat} (h : b < DATA_BLOCKS) : validBlockNumber (b : Int) = true := by
  simp only [validBlockNumber, decide_eq_true_eq]
  omega

/-- Marking a free block taken adds that block to the taken ones. -/
theorem takenBlock_set {d : Disk} {b : Nat} (h : b < DATA_BLOCKS) (x : Int) :
    TakenBlock (d.setFreeBlock b .TAKEN) x ↔ TakenBlock d x ∨ x = b := by
  unfold TakenBlock
  rw [Disk.setFreeBlock_free]
  constructor
  · rintro ⟨hv, ht⟩
    by_cases hx : x = b
    · exact Or.inr hx
    · have : x.toNat ≠ b := by
        have := hv
        simp only [validBlockNumber, decide_eq_true_eq] at this
        omega
      rw [Function.update_of_ne this] at ht
      exact Or.inl ⟨hv, ht⟩
  · rintro (⟨hv, ht⟩ | rfl)
    · refine ⟨hv, ?_⟩
      by_cases hx : x.toNat = b
      · rw [hx, Function.update_self]
      · rw [Function.update_of_ne hx]
        exact ht
    · exact ⟨validBlockNumber_nat h, by simp⟩

/-- A block that is marked taken and then free again is as it was. -/
theorem setFreeBlock_undo {d : Disk} {b : Nat} (h : FreeBlock d b) :
    Function.update (Function.update d.free_blocks b .TAKEN) b .FREE = d.free_blocks := by
  rw [Function.update_idem, ← h.2, Function.update_eq_self]

/-! ## One new block of a file -/

/-- Block `b` becomes the direct block `n` of `f`. -/
def withDirect (d : Disk) (f n b : Nat) : Disk :=
  (d.setFreeBlock b .TAKEN).modInode f fun i =>
    { i with
      i_data_block := Function.update i.i_data_block n b
      blocksAlloc := i.blocksAlloc + 1 }

/-- Block `b` becomes the indirect block of `f`, and block `b'` its first entry. -/
def withIndirect (d : Disk) (f b b' : Nat) : Disk :=
  { ((d.setFreeBlock b .TAKEN).setFreeBlock b' .TAKEN).modInode f fun i =>
      { i with indirect_data_block := b, blocksAlloc := i.blocksAlloc + 1 } with
    fs_data := storeInt d.fs_data (b * BLOCK_SIZE) b' }

/-- Block `b` becomes entry `n` of the indirect block of `f`. -/
def withEntry (d : Disk) (f n b : Nat) : Disk :=
  { (d.setFreeBlock b .TAKEN).modInode f fun i => { i with blocksAlloc := i.blocksAlloc + 1 } with
    fs_data := storeInt d.fs_data (indirectAddr d f n) b }

/-- Block `n` of `f` is allocated in the same way on both disks. -/
structure SameSupply (f n : Nat) (d d' : Disk) : Prop where
  free : d'.free_blocks = d.free_blocks
  indirect : DIRECT_BLOCK_COUNT < n →
    (d'.inode_table f).indirect_data_block = (d.inode_table f).indirect_data_block

theorem SameSupply.refl (f n : Nat) (d : Disk) : SameSupply f n d d := ⟨rfl, fun _ => rfl⟩

/-- Which block is found depends on the table of the free blocks only. -/
theorem dataBlockAlloc_congr {d d' : Disk} {b : Nat} (h : d'.free_blocks = d.free_blocks)
    (ha : dataBlockAlloc d = ((b : Int), d.setFreeBlock b .TAKEN)) :
    dataBlockAlloc d' = ((b : Int), d'.setFreeBlock b .TAKEN) := by
  have hb := congrArg Prod.fst ha
  unfold dataBlockAlloc at hb ⊢
  rw [h]
  split at hb <;> simp only at hb
  · simp only [Int.ofNat.inj hb]
  · omega

theorem dataBlockAlloc_none {d d' : Disk} (h : d'.free_blocks = d.free_blocks)
    (hnone : ∀ b, ¬ FreeBlock d b) : dataBlockAlloc d' = (-1, d') := by
  rcases dataBlockAlloc_cases d' with ⟨ha, _⟩ | ⟨b, hb, _⟩
  · exact ha
  · unfold FreeBlock at hb hnone
    rw [h] at hb
    exact (hnone b hb).elim

/-- The ways in which `alloc_nth_data_block` can end for a file with `n` blocks, fewer than the
most a file can have, on all disks with the same supply. -/
theorem allocNthDataBlock_supply {d : Disk} {f n : Nat} (hn : n < MAX_INODE_BLOCKS)
    (hi : DIRECT_BLOCK_COUNT < n → validBlockNumber (d.inode_table f).indirect_data_block = true) :
    ((∀ b, ¬ FreeBlock d b) ∧
      ∀ d', SameSupply f n d d' → allocNthDataBlock d' f (n + 1) = (1, d')) ∨
    (n = DIRECT_BLOCK_COUNT ∧ ∃ b, FreeBlock d b ∧ (∀ c, FreeBlock d c → c = b) ∧
      ∀ d', SameSupply f n d d' → allocNthDataBlock d' f (n + 1) =
        (1, d'.modInode f fun i => { i with indirect_data_block := b })) ∨
    (n < DIRECT_BLOCK_COUNT ∧ ∃ b, FreeBlock d b ∧
      ∀ d', SameSupply f n d d' → allocNthDataBlock d' f (n + 1) = (0, withDirect d' f n b)) ∨
    (n = DIRECT_BLOCK_COUNT ∧ ∃ b b' : Nat, FreeBlock d b ∧ FreeBlock d b' ∧ b ≠ b' ∧
      ∀ d', SameSupply f n d d' → allocNthDataBlock d' f (n + 1) = (0, withIndirect d' f b b')) ∨
    (DIRECT_BLOCK_COUNT < n ∧ ∃ b, FreeBlock d b ∧
      ∀ d', SameSupply f n d d' → allocNthDataBlock d' f (n + 1) =
        (0, withEntry d' f (n - DIRECT_BLOCK_COUNT) b)) := by
  have hv : validInodeBlockNumber (n + 1) = true := by
    simp only [validInodeBlockNumber, decide_eq_true_eq]
    omega
  unfold allocNthDataBlock
  simp only [hv, Bool.true_eq_false, if_false, Nat.add_sub_cancel]
  rcases dataBlockAlloc_cases d with ⟨_, hnone⟩ | ⟨b, hb, _, ha⟩
  · refine Or.inl ⟨hnone, fun d' hs => ?_⟩
    simp only [dataBlockAlloc_none hs.free hnone, if_true]
  · have hb0 : (b : Int) ≠ -1 := by omega
    have hfirst : ∀ d', SameSupply f n d d' →
        dataBlockAlloc d' = ((b : Int), d'.setFreeBlock b .TAKEN) :=
      fun d' hs => dataBlockAlloc_congr hs.free ha
    refine Or.inr ?_
    rcases Nat.lt_trichotomy n DIRECT_BLOCK_COUNT with hlt | heq | hgt
    · -- a direct block
      have h9 : ¬ 9 < n := by simp only [DIRECT_BLOCK_COUNT] at hlt; omega
      refine Or.inr (Or.inl ⟨hlt, b, hb, fun d' hs => ?_⟩)
      simp only [hfirst d' hs, hb0, h9, if_false]
      rfl
    · -- the indirect block and its first entry
      subst heq
      have h9 : 9 < DIRECT_BLOCK_COUNT := by decide
      have hsecond : ∀ d', SameSupply f DIRECT_BLOCK_COUNT d d' →
          ((d'.setFreeBlock b .TAKEN).modInode f fun i =>
            { i with indirect_data_block := b }).free_blocks =
          (d.setFreeBlock b .TAKEN).free_blocks := by
        intro d' hs
        rw [Disk.modInode_free, Disk.setFreeBlock_free, Disk.setFreeBlock_free, hs.free]
      rcases dataBlockAlloc_cases (d.setFreeBlock b .TAKEN) with ⟨_, hnone⟩ | ⟨b', hb', _, ha'⟩
      · refine Or.inl ⟨rfl, b, hb, ?_, fun d' hs => ?_⟩
        · intro c hc
          by_contra hne
          exact hnone c ⟨hc.1, by simp [Disk.setFreeBlock, Function.update_of_ne hne, hc.2]⟩
        · have hb' : FreeBlock d' b := ⟨hb.1, by rw [hs.free]; exact hb.2⟩
          simp only [hfirst d' hs, hb0, h9, if_true, if_false,
            dataBlockAlloc_none (hsecond d' hs) hnone, Disk.modInode_self, dataBlockFree,
            validBlockNumber_nat hb.1, Int.toNat_natCast]
          simp only [Disk.setFreeBlock, Disk.modInode, setFreeBlock_undo hb']
          simp
      · have hb0' : (b' : Int) ≠ -1 := by omega
        have hne : b ≠ b' := by
          rintro rfl
          have := hb'.2
          simp [Disk.setFreeBlock] at this
        have hfree' : FreeBlock d b' :=
          ⟨hb'.1, by have := hb'.2; simpa [Disk.setFreeBlock, Function.update_of_ne hne.symm] using this⟩
        refine Or.inr (Or.inr (Or.inl ⟨rfl, b, b', hb, hfree', hne, fun d' hs => ?_⟩))
        simp only [hfirst d' hs, hb0, h9, if_true, if_false,
          dataBlockAlloc_congr (hsecond d' hs) ha', hb0', appendIndirect, Disk.setFreeBlock_inode,
          Disk.modInode_self, dataBlockGet, validBlockNumber_nat hb.1]
        simp [withIndirect, Disk.modInode, Disk.setFreeBlock, Function.update_idem]
    · -- an entry of the indirect block
      have h9 : 9 < n := by simp only [DIRECT_BLOCK_COUNT] at hgt; omega
      have h10 : n ≠ 10 := by simp only [DIRECT_BLOCK_COUNT] at hgt; omega
      refine Or.inr (Or.inr (Or.inr ⟨hgt, b, hb, fun d' hs => ?_⟩))
      have hvalid : validBlockNumber (d'.inode_table f).indirect_data_block = true := by
        rw [hs.indirect hgt]
        exact hi hgt
      have hg : dataBlockGet (d'.inode_table f).indirect_data_block =
          some ((d'.inode_table f).indirect_data_block.toNat * BLOCK_SIZE) := if_pos hvalid
      simp only [hfirst d' hs, hb0, h9, h10, if_true, if_false, appendIndirect,
        Disk.setFreeBlock_inode, hg]
      rfl

/-- The ways in which `alloc_nth_data_block` can end, on one disk. -/
theorem allocNthDataBlock_cases {d : Disk} {f n : Nat} (hn : n < MAX_INODE_BLOCKS)
    (hi : DIRECT_BLOCK_COUNT < n → validBlockNumber (d.inode_table f).indirect_data_block = true) :
    (allocNthDataBlock d f (n + 1) = (1, d) ∧ ∀ b, ¬ FreeBlock d b) ∨
    (n = DIRECT_BLOCK_COUNT ∧ ∃ b, FreeBlock d b ∧ (∀ c, FreeBlock d c → c = b) ∧
      allocNthDataBlock d f (n + 1) = (1, d.modInode f fun i => { i with indirect_data_block := b })) ∨
    (n < DIRECT_BLOCK_COUNT ∧ ∃ b, FreeBlock d b ∧
      allocNthDataBlock d f (n + 1) = (0, withDirect d f n b)) ∨
    (n = DIRECT_BLOCK_COUNT ∧ ∃ b b' : Nat, FreeBlock d b ∧ FreeBlock d b' ∧ b ≠ b' ∧
      allocNthDataBlock d f (n + 1) = (0, withIndirect d f b b')) ∨
    (DIRECT_BLOCK_COUNT < n ∧ ∃ b, FreeBlock d b ∧
      allocNthDataBlock d f (n + 1) = (0, withEntry d f (n - DIRECT_BLOCK_COUNT) b)) := by
  have hself := SameSupply.refl f n d
  rcases allocNthDataBlock_supply hn hi with ⟨hno, hr⟩ | ⟨heq, b, hb, honly, hr⟩ | ⟨hlt, b, hb, hr⟩ |
    ⟨heq, b, b', hb, hb', hne, hr⟩ | ⟨hgt, b, hb, hr⟩
  · exact Or.inl ⟨hr d hself, hno⟩
  · exact Or.inr (Or.inl ⟨heq, b, hb, honly, hr d hself⟩)
  · exact Or.inr (Or.inr (Or.inl ⟨hlt, b, hb, hr d hself⟩))
  · exact Or.inr (Or.inr (Or.inr (Or.inl ⟨heq, b, b', hb, hb', hne, hr d hself⟩)))
  · exact Or.inr (Or.inr (Or.inr (Or.inr ⟨hgt, b, hb, hr d hself⟩)))

/-! ## What an allocation keeps -/

theorem Grown.fileInode {f : Nat} {d d' : Disk} (hg : Grown f d d') (g : Nat) :
    FileInode d' g ↔ FileInode d g := hg.files.fileInode g

theorem Grown.dirSame {f : Nat} {d d' : Disk} (hg : Grown f d d') (hf : f ≠ ROOT_DIR_INUM) :
    DirSame d d' where
  block := by
    unfold rootBlock
    rw [hg.inode_other _ hf.symm]
  bytes := by
    intro j hj
    apply hg.mem .root (rootBlock d) rfl (by simp)
    unfold rootAddr BLOCK_SIZE at *
    omega

/-- The owners that are not of `f` hold what they held. -/
theorem Grown.ownedBlock_other {f : Nat} {d d' : Disk} (hg : Grown f d d') (h : DiskInv d)
    (hf : f ≠ ROOT_DIR_INUM) {o : Owner} (hd : ∀ k, o ≠ .data f k) (hi : o ≠ .indirect f) :
    ownedBlock d' o = ownedBlock d o := by
  cases o with
  | root =>
    unfold ownedBlock
    rw [(hg.dirSame hf).block]
  | indirect g =>
    have hgf : g ≠ f := by rintro rfl; exact hi rfl
    simp only [ownedBlock, hg.fileInode, hg.inode_other g hgf]
  | data g k =>
    have hgf : g ≠ f := by rintro rfl; exact hd k rfl
    by_cases hk : FileInode d g ∧ k < (d.inode_table g).blocksAlloc
    · have hle := h.blocks_le g hk.1
      rw [ownedBlock_data hk.1 hk.2,
        ownedBlock_data ((hg.fileInode g).mpr hk.1) (by rw [hg.inode_other g hgf]; exact hk.2)]
      congr 1
      apply blockNo_congr (by omega) (fun _ => by rw [hg.inode_other g hgf])
      intro hge
      refine ⟨by rw [hg.inode_other g hgf], ?_⟩
      exact hg.mem _ _ (ownedBlock_indirect hk.1 (by omega)) (by simpa using hgf)
    · simp only [ownedBlock, hg.fileInode, hg.inode_other g hgf, if_neg hk]

/-- No owner loses what it held. -/
theorem Grown.ownedBlock_old {f : Nat} {d d' : Disk} (hg : Grown f d d') (h : DiskInv d)
    (hf : FileInode d f) {o : Owner} {b : Int} (ho : ownedBlock d o = some b) :
    ownedBlock d' o = some b := by
  have hroot : f ≠ ROOT_DIR_INUM := by rintro rfl; exact h.root_not_file hf
  by_cases hi : o = .indirect f
  · subst hi
    have hlt : DIRECT_BLOCK_COUNT < (d.inode_table f).blocksAlloc := by
      by_contra hn
      simp [ownedBlock, hn] at ho
    rw [ownedBlock_indirect hf hlt, ← hg.indirect_same hlt] at ho
    rw [← ho]
    exact ownedBlock_indirect ((hg.fileInode f).mpr hf) (by have := hg.blocks_le; omega)
  · by_cases hd : ∃ k, o = .data f k
    · obtain ⟨k, rfl⟩ := hd
      have hlt : k < (d.inode_table f).blocksAlloc := by
        by_contra hn
        simp [ownedBlock, hn] at ho
      rw [ownedBlock_data hf hlt, ← hg.block_same k hlt] at ho
      rw [← ho]
      exact ownedBlock_data ((hg.fileInode f).mpr hf) (by have := hg.blocks_le; omega)
    · rw [hg.ownedBlock_other h hroot (fun k hk => hd ⟨k, hk⟩) hi]
      exact ho

theorem Grown.trans {f : Nat} {d d' d'' : Disk} (h : DiskInv d) (hf : FileInode d f)
    (h1 : Grown f d d') (h2 : Grown f d' d'') : Grown f d d'' where
  files := ⟨h2.files.1.trans h1.files.1, fun g => (h2.files.2 g).trans (h1.files.2 g)⟩
  inode_other := fun g hg => (h2.inode_other g hg).trans (h1.inode_other g hg)
  size := h2.size.trans h1.size
  blocks_le := h1.blocks_le.trans h2.blocks_le
  block_same := fun k hk => by
    rw [h2.block_same k (by have := h1.blocks_le; omega), h1.block_same k hk]
  indirect_same := fun hk => by
    rw [h2.indirect_same (by have := h1.blocks_le; omega), h1.indirect_same hk]
  mem := fun o b ho hi a ha => by
    rw [h2.mem o b (h1.ownedBlock_old h hf ho) hi a ha, h1.mem o b ho hi a ha]

/-- A grown file keeps the invariant, if the new owners make the ownership exact. -/
theorem Grown.diskInv {f : Nat} {d d' : Disk} (hg : Grown f d d') (h : DiskInv d)
    (hf : FileInode d f) (hle : (d'.inode_table f).blocksAlloc ≤ MAX_INODE_BLOCKS)
    (hex : Exact (TakenBlock d') (ownedBlock d')) : DiskInv d' := by
  have hroot : f ≠ ROOT_DIR_INUM := by rintro rfl; exact h.root_not_file hf
  refine h.step hg.files (hg.dirSame hroot) ?_ hex
  intro g hgf
  by_cases he : g = f
  · rw [he]
    exact hle
  · rw [hg.inode_other g he]
    exact h.blocks_le g hgf

/-! ## The new block of each kind -/

theorem grown_direct {d : Disk} {f n b : Nat} (hn : (d.inode_table f).blocksAlloc = n) :
    Grown f d (withDirect d f n b) where
  files := by
    refine ⟨rfl, fun g => ?_⟩
    by_cases hg : g = f
    · subst hg
      simp [withDirect]
    · simp [withDirect, hg]
  inode_other := fun g hg => by simp [withDirect, hg]
  size := by simp [withDirect]
  blocks_le := by simp [withDirect]
  block_same := fun k hk => by
    have hne : k ≠ n := by omega
    unfold blockNo
    split
    · simp [withDirect, Function.update_of_ne hne]
    · simp [withDirect, indirectAddr]
  indirect_same := fun _ => by simp [withDirect]
  mem := fun _ _ _ _ _ _ => rfl

/-- The place of an entry of the indirect block is stored in four bytes of that block. -/
theorem storeInt_outside_block {m : Memory} {a x b : Nat} {v : Int} (hx : x / BLOCK_SIZE ≠ b)
    (ha : ∀ i < 4, (a + i) / BLOCK_SIZE = b) : storeInt m a v x = m x := by
  apply storeInt_outside
  by_contra hc
  have hi := ha (x - a) (by omega)
  rw [show a + (x - a) = x by omega] at hi
  exact hx hi

theorem grown_indirect {d : Disk} {f b : Nat} (b' : Nat) (h : DiskInv d) (hb : FreeBlock d b)
    (hn : (d.inode_table f).blocksAlloc = DIRECT_BLOCK_COUNT) :
    Grown f d (withIndirect d f b b') where
  files := by
    refine ⟨rfl, fun g => ?_⟩
    by_cases hg : g = f
    · subst hg
      simp [withIndirect]
    · simp [withIndirect, hg]
  inode_other := fun g hg => by simp [withIndirect, hg]
  size := by simp [withIndirect]
  blocks_le := by simp [withIndirect]
  block_same := fun k hk => by
    have hlt : k < DIRECT_BLOCK_COUNT := by omega
    simp [blockNo, hlt, withIndirect]
  indirect_same := fun hlt => by omega
  mem := fun o x ho _ a ha => by
    apply storeInt_outside_block (b := b)
    · rw [ha]
      exact h.owned_ne_free ho hb
    · intro i hi
      unfold BLOCK_SIZE
      omega

theorem grown_entry {d : Disk} {f n b : Nat} (h : DiskInv d) (hf : FileInode d f)
    (hn : (d.inode_table f).blocksAlloc = n + DIRECT_BLOCK_COUNT) (hpos : 0 < n) (hlt : n < 256) :
    Grown f d (withEntry d f n b) where
  files := by
    refine ⟨rfl, fun g => ?_⟩
    by_cases hg : g = f
    · subst hg
      simp [withEntry]
    · simp [withEntry, hg]
  inode_other := fun g hg => by simp [withEntry, hg]
  size := by simp [withEntry]
  blocks_le := by simp [withEntry]
  block_same := fun k hk => by
    unfold blockNo
    split
    · simp [withEntry]
    · have haddr : indirectAddr (withEntry d f n b) f (k - DIRECT_BLOCK_COUNT) =
          indirectAddr d f (k - DIRECT_BLOCK_COUNT) := by simp [indirectAddr, withEntry]
      rw [haddr]
      apply loadInt_storeInt_disjoint
      unfold indirectAddr
      omega
  indirect_same := fun _ => by simp [withEntry]
  mem := fun o x ho hi a ha => by
    have hind := ownedBlock_indirect hf (by omega : DIRECT_BLOCK_COUNT < (d.inode_table f).blocksAlloc)
    apply storeInt_outside_block (b := (d.inode_table f).indirect_data_block.toNat)
    · rw [ha]
      intro he
      exact hi (h.owner_inj ho hind he)
    · intro i hi'
      exact indirectAddr_div hlt hi'

/-! ## The ownership after one new block -/

theorem ownedBlock_data_none {d : Disk} {f k : Nat} (h : (d.inode_table f).blocksAlloc ≤ k) :
    ownedBlock d (.data f k) = none := by
  simp [ownedBlock, show ¬ k < (d.inode_table f).blocksAlloc by omega]

theorem ownedBlock_indirect_none {d : Disk} {f : Nat}
    (h : (d.inode_table f).blocksAlloc ≤ DIRECT_BLOCK_COUNT) :
    ownedBlock d (.indirect f) = none := by
  simp only [ownedBlock, show ¬ DIRECT_BLOCK_COUNT < (d.inode_table f).blocksAlloc by omega,
    and_false, if_false]

/-- The owners after block `n` of `f` was added, the indirect block apart. -/
theorem Grown.ownedBlock_new {f n b : Nat} {d d' : Disk} (hg : Grown f d d') (h : DiskInv d)
    (hf : FileInode d f) (hn : (d.inode_table f).blocksAlloc = n)
    (hn' : (d'.inode_table f).blocksAlloc = n + 1) (hno : blockNo d' f n = b) {o : Owner}
    (hi : o ≠ .indirect f) :
    ownedBlock d' o = Function.update (ownedBlock d) (.data f n) (some (b : Int)) o := by
  have hroot : f ≠ ROOT_DIR_INUM := by rintro rfl; exact h.root_not_file hf
  by_cases hd : ∃ k, o = .data f k
  · obtain ⟨k, rfl⟩ := hd
    rcases Nat.lt_trichotomy k n with hk | rfl | hk
    · rw [Function.update_of_ne (by simp; omega)]
      have hold := ownedBlock_data hf (hn ▸ hk)
      rw [hold]
      exact hg.ownedBlock_old h hf hold
    · rw [Function.update_self, ← hno]
      exact ownedBlock_data ((hg.fileInode f).mpr hf) (by omega)
    · rw [Function.update_of_ne (by simp; omega), ownedBlock_data_none (by omega),
        ownedBlock_data_none (by omega)]
  · rw [Function.update_of_ne (fun he => hd ⟨n, he⟩)]
    exact hg.ownedBlock_other h hroot (fun k hk => hd ⟨k, hk⟩) hi

/-- A new block that is not the first of the indirect ones. -/
theorem Grown.exact_one {f n b : Nat} {d d' : Disk} (hg : Grown f d d') (h : DiskInv d)
    (hf : FileInode d f) (hn : (d.inode_table f).blocksAlloc = n)
    (hn' : (d'.inode_table f).blocksAlloc = n + 1) (hno : blockNo d' f n = b)
    (hne : n ≠ DIRECT_BLOCK_COUNT) (hb : FreeBlock d b)
    (ht : d'.free_blocks = Function.update d.free_blocks b .TAKEN) :
    Exact (TakenBlock d') (ownedBlock d') := by
  have hnew : ownedBlock d (.data f n) = none := ownedBlock_data_none (by omega)
  refine (h.exact.give (not_taken_of_free hb) hnew).congr (fun x => ?_) (fun o => ?_)
  · rw [← takenBlock_set hb.1]
    unfold TakenBlock
    rw [ht]
    rfl
  · by_cases hi : o = .indirect f
    · subst hi
      rw [Function.update_of_ne (by simp)]
      rcases Nat.lt_or_ge DIRECT_BLOCK_COUNT n with hlt | hge
      · have hold := ownedBlock_indirect hf (by omega)
        rw [hold]
        exact hg.ownedBlock_old h hf hold
      · rw [ownedBlock_indirect_none (by omega), ownedBlock_indirect_none (by omega)]
    · exact hg.ownedBlock_new h hf hn hn' hno hi

theorem withIndirect_blockNo (d : Disk) (f b : Nat) {b' : Nat} (hb' : b' < DATA_BLOCKS) :
    blockNo (withIndirect d f b b') f DIRECT_BLOCK_COUNT = b' := by
  simp only [DATA_BLOCKS] at hb'
  simp only [blockNo, indirectAddr, withIndirect, Disk.modInode_self, Int.toNat_natCast,
    Nat.lt_irrefl, if_false, Nat.sub_self, Nat.mul_zero, Nat.add_zero]
  exact loadInt_storeInt_same _ _ _ (by omega) (by omega)

theorem withEntry_blockNo (d : Disk) (f : Nat) {n b : Nat} (hn : DIRECT_BLOCK_COUNT ≤ n)
    (hb : b < DATA_BLOCKS) : blockNo (withEntry d f (n - DIRECT_BLOCK_COUNT) b) f n = b := by
  simp only [DATA_BLOCKS] at hb
  have haddr : indirectAddr (withEntry d f (n - DIRECT_BLOCK_COUNT) b) f (n - DIRECT_BLOCK_COUNT) =
      indirectAddr d f (n - DIRECT_BLOCK_COUNT) := by simp [indirectAddr, withEntry]
  unfold blockNo
  rw [if_neg (by omega), haddr]
  exact loadInt_storeInt_same _ _ _ (by omega) (by omega)

theorem exact_indirect {d : Disk} {f b b' : Nat} (h : DiskInv d) (hf : FileInode d f)
    (hn : (d.inode_table f).blocksAlloc = DIRECT_BLOCK_COUNT) (hb : FreeBlock d b)
    (hb' : FreeBlock d b') (hne : b ≠ b') :
    Exact (TakenBlock (withIndirect d f b b')) (ownedBlock (withIndirect d f b b')) := by
  have hg := grown_indirect b' h hb hn
  have hn' : ((withIndirect d f b b').inode_table f).blocksAlloc = DIRECT_BLOCK_COUNT + 1 := by
    simp [withIndirect, hn]
  have hfirst := withIndirect_blockNo d f b hb'.1
  have hdata : ownedBlock d (.data f DIRECT_BLOCK_COUNT) = none := ownedBlock_data_none (by omega)
  have hind : ownedBlock d (.indirect f) = none := ownedBlock_indirect_none (by omega)
  have h1 := h.exact.give (not_taken_of_free hb') hdata
  have hb1 : ¬ (TakenBlock d (b : Int) ∨ (b : Int) = b') := by
    rintro (ht | he)
    · exact not_taken_of_free hb ht
    · exact hne (by omega)
  refine (h1.give hb1 ((Function.update_of_ne (by simp) _ _).trans hind)).congr
    (fun x => ?_) (fun o => ?_)
  · have hswap : TakenBlock (withIndirect d f b b') x ↔
        TakenBlock ((d.setFreeBlock b .TAKEN).setFreeBlock b' .TAKEN) x := Iff.rfl
    rw [hswap, takenBlock_set hb'.1, takenBlock_set hb.1]
    exact or_right_comm
  · by_cases hi : o = .indirect f
    · subst hi
      rw [Function.update_self, ownedBlock_indirect ((hg.fileInode f).mpr hf) (by omega)]
      simp [withIndirect]
    · rw [Function.update_of_ne hi]
      exact hg.ownedBlock_new h hf hn hn' hfirst hi

/-- One call for the next block of a file keeps the invariant and the other files. It gives one
block more, or none when the blocks ran out. -/
theorem allocNthDataBlock_spec {d : Disk} {f : Nat} (h : DiskInv d) (hf : FileInode d f)
    (hn : (d.inode_table f).blocksAlloc < MAX_INODE_BLOCKS) :
    let r := allocNthDataBlock d f ((d.inode_table f).blocksAlloc + 1)
    DiskInv r.2 ∧ Grown f d r.2 ∧
      ((r.1 = 1 ∧ (r.2.inode_table f).blocksAlloc = (d.inode_table f).blocksAlloc) ∨
        (r.1 = 0 ∧ (r.2.inode_table f).blocksAlloc = (d.inode_table f).blocksAlloc + 1)) := by
  have hvalid := h.indirect_valid hf
  generalize hblocks : (d.inode_table f).blocksAlloc = n at hn hvalid
  rcases allocNthDataBlock_cases hn hvalid with ⟨hr, _⟩ | ⟨h10, b, hb, _, hr⟩ | ⟨hlt, b, hb, hr⟩ |
    ⟨h10, b, b', hb, hb', hne, hr⟩ | ⟨hgt, b, hb, hr⟩ <;> simp only [hr]
  · exact ⟨h, Grown.refl f d, Or.inl ⟨trivial, hblocks⟩⟩
  · -- the indirect block was taken and given back
    subst h10
    have hg : Grown f d (d.modInode f fun i => { i with indirect_data_block := b }) :=
      { files := ⟨rfl, fun g => by by_cases hgf : g = f <;> simp [hgf]⟩
        inode_other := fun g hgf => by simp [hgf]
        size := by simp
        blocks_le := by simp
        block_same := fun k hk => by simp [blockNo, show k < DIRECT_BLOCK_COUNT by omega]
        indirect_same := fun hlt => by omega
        mem := fun _ _ _ _ _ _ => rfl }
    refine ⟨hg.diskInv h hf (by simpa [hblocks] using hn.le) ?_, hg, Or.inl ⟨trivial, by simpa using hblocks⟩⟩
    have hroot : f ≠ ROOT_DIR_INUM := by rintro rfl; exact h.root_not_file hf
    refine h.exact.congr (fun _ => Iff.rfl) (fun o => ?_)
    by_cases hi : o = .indirect f
    · subst hi
      rw [ownedBlock_indirect_none (by simp [hblocks]), ownedBlock_indirect_none (by omega)]
    · by_cases hd : ∃ k, o = .data f k
      · obtain ⟨k, rfl⟩ := hd
        rcases Nat.lt_or_ge k DIRECT_BLOCK_COUNT with hk | hk
        · have hold := ownedBlock_data hf (hblocks ▸ hk)
          rw [hold]
          exact hg.ownedBlock_old h hf hold
        · rw [ownedBlock_data_none (by simpa [hblocks] using hk), ownedBlock_data_none (by omega)]
      · exact hg.ownedBlock_other h hroot (fun k hk => hd ⟨k, hk⟩) hi
  · have hg : Grown f d (withDirect d f n b) := grown_direct hblocks
    have hn' : ((withDirect d f n b).inode_table f).blocksAlloc = n + 1 := by
      simp [withDirect, hblocks]
    refine ⟨hg.diskInv h hf (by omega) ?_, hg, Or.inr ⟨trivial, hn'⟩⟩
    exact hg.exact_one h hf hblocks hn' (by simp [blockNo, hlt, withDirect]) (by omega) hb rfl
  · subst h10
    have hg := grown_indirect b' h hb hblocks
    have hn' : ((withIndirect d f b b').inode_table f).blocksAlloc = DIRECT_BLOCK_COUNT + 1 := by
      simp [withIndirect, hblocks]
    exact ⟨hg.diskInv h hf (by omega) (exact_indirect h hf hblocks hb hb' hne), hg,
      Or.inr ⟨trivial, hn'⟩⟩
  · have hg := grown_entry (n := n - DIRECT_BLOCK_COUNT) (b := b) h hf (by omega) (by omega)
      (by simp only [MAX_INODE_BLOCKS, DIRECT_BLOCK_COUNT] at *; omega)
    have hn' : ((withEntry d f (n - DIRECT_BLOCK_COUNT) b).inode_table f).blocksAlloc = n + 1 := by
      simp [withEntry, hblocks]
    refine ⟨hg.diskInv h hf (by omega) ?_, hg, Or.inr ⟨trivial, hn'⟩⟩
    exact hg.exact_one h hf hblocks hn' (withEntry_blockNo d f hgt.le hb.1) (by omega) hb rfl

/-- The loop for the blocks that a size needs. -/
theorem allocBlocksLoop_spec {d : Disk} {f : Nat} (todo : Nat) (h : DiskInv d) (hf : FileInode d f)
    (hn : (d.inode_table f).blocksAlloc + todo ≤ MAX_INODE_BLOCKS) :
    let r := allocBlocksLoop d f (d.inode_table f).blocksAlloc todo
    r.1 = 0 ∧ DiskInv r.2 ∧ Grown f d r.2 ∧
      (r.2.inode_table f).blocksAlloc ≤ (d.inode_table f).blocksAlloc + todo := by
  induction todo generalizing d with
  | zero => exact ⟨rfl, h, Grown.refl f d, le_rfl⟩
  | succ todo ih =>
    obtain ⟨hinv, hg, hr⟩ := allocNthDataBlock_spec h hf (by omega)
    rcases hr with ⟨hr, hb⟩ | ⟨hr, hb⟩
    · have he : allocBlocksLoop d f (d.inode_table f).blocksAlloc (todo + 1) =
          (0, (allocNthDataBlock d f ((d.inode_table f).blocksAlloc + 1)).2) := by
        simp [allocBlocksLoop, hr]
      rw [he]
      exact ⟨rfl, hinv, hg, by simp only; omega⟩
    · have hf' := (hg.fileInode f).mpr hf
      obtain ⟨h1, h2, h3, h4⟩ := ih hinv hf' (by omega)
      rw [hb] at h1 h2 h3 h4
      have he : allocBlocksLoop d f (d.inode_table f).blocksAlloc (todo + 1) =
          allocBlocksLoop (allocNthDataBlock d f ((d.inode_table f).blocksAlloc + 1)).2 f
            ((d.inode_table f).blocksAlloc + 1) todo := by
        simp [allocBlocksLoop, hr]
      rw [he]
      exact ⟨h1, h2, hg.trans h hf h3, by omega⟩

/-- So many blocks hold `n` bytes. -/
theorem divCeil_le_iff {n m : Nat} : divCeil n BLOCK_SIZE ≤ m ↔ n ≤ BLOCK_SIZE * m := by
  unfold divCeil BLOCK_SIZE
  split <;> omega

theorem divCeil_mono {m n : Nat} (h : m ≤ n) : divCeil m BLOCK_SIZE ≤ divCeil n BLOCK_SIZE :=
  divCeil_le_iff.mpr (h.trans (divCeil_le_iff.mp le_rfl))

theorem allocNecessaryBlocks_spec {d : Disk} {f size : Nat} (h : DiskInv d) (hf : FileInode d f)
    (hs : size ≤ MAX_FILE_SIZE) :
    let r := allocNecessaryBlocks d f size
    r.1 = 0 ∧ DiskInv r.2 ∧ Grown f d r.2 ∧
      (r.2.inode_table f).blocksAlloc ≤
        max (d.inode_table f).blocksAlloc (divCeil size BLOCK_SIZE) := by
  have hle := h.blocks_le f hf
  have hceil : divCeil size BLOCK_SIZE ≤ MAX_INODE_BLOCKS := divCeil_le_iff.mpr hs
  obtain ⟨h1, h2, h3, h4⟩ := allocBlocksLoop_spec
    (divCeil size BLOCK_SIZE - (d.inode_table f).blocksAlloc) h hf (by omega)
  exact ⟨h1, h2, h3, h4.trans (by omega)⟩

end tecnicofs.parte1
