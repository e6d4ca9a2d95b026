-- Two disks that differ in the bytes of one file. The tables and the directory
-- are equal, and so is every byte of the other files, up to their sizes. Each
-- step on both disks keeps them so.
import TecnicoFS.Parte1.Positions

open byte_memory block_map ownership

namespace tecnicofs.parte1

/-! ## Disks that differ in the bytes of one file -/

/-- The tables of the two disks are equal. -/
structure TablesSame (d d' : Disk) : Prop where
  inodes : d'.inode_table = d.inode_table
  files : d'.freeinode_ts = d.freeinode_ts
  free : d'.free_blocks = d.free_blocks

/-- The disks look the same to everyone who does not read file `B`. -/
structure LowEq (B : Nat) (d d' : Disk) : Prop extends TablesSame d d' where
  dir : DirSame d d'
  block : ∀ f, FileInode d f → ∀ k < (d.inode_table f).blocksAlloc, blockNo d' f k = blockNo d f k
  bytes : ∀ f, FileInode d f → f ≠ B → ∀ p < (d.inode_table f).i_size, byteAt d' f p = byteAt d f p

/-- The files other than `B` have blocks for all their bytes. -/
def Backed (B : Nat) (d : Disk) : Prop :=
  ∀ f, FileInode d f → f ≠ B → (d.inode_table f).i_size ≤ room d f

theorem TablesSame.fileInode {d d' : Disk} (h : TablesSame d d') (f : Nat) :
    FileInode d' f ↔ FileInode d f := by
  simp only [FileInode, h.inodes, h.files]

theorem TablesSame.freeInode {d d' : Disk} (h : TablesSame d d') (i : Nat) :
    FreeInode d' i ↔ FreeInode d i := by
  simp only [FreeInode, h.files]

theorem TablesSame.room {d d' : Disk} (h : TablesSame d d') (f : Nat) : room d' f = room d f := by
  simp only [parte1.room, h.inodes]

theorem LowEq.refl (B : Nat) (d : Disk) : LowEq B d d where
  inodes := rfl
  files := rfl
  free := rfl
  dir := ⟨rfl, fun _ _ => rfl⟩
  block := fun _ _ _ _ => rfl
  bytes := fun _ _ _ _ _ => rfl

theorem LowEq.lookup {B : Nat} {d d' : Disk} (h : LowEq B d d') (hd : DiskInv d) (hd' : DiskInv d')
    (name : CString) : tfsLookup d' name = tfsLookup d name := tfsLookup_congr hd hd' h.dir name

/-- The bytes of a file other than `B`, below its size. -/
theorem LowEq.load {B : Nat} {d d' : Disk} (h : LowEq B d d') {f p n : Nat} (hf : FileInode d f)
    (hfB : f ≠ B) (hn : p + n ≤ (d.inode_table f).i_size) :
    fileLoad BLOCK_SIZE (blocksOf d' f) d'.fs_data p n =
      fileLoad BLOCK_SIZE (blocksOf d f) d.fs_data p n :=
  fileLoad_congr fun i hi => h.bytes f hf hfB (p + i) (by omega)

/-- A file that stays on both disks stays the same to everyone. -/
theorem LowEq.of_same {B f : Nat} {d d' e e' : Disk} (h : LowEq B d d') (hb : Backed B d)
    (hf : FileInode d f) (hs : FileSame f d e) (hs' : FileSame f d' e') :
    (∀ k < (e.inode_table f).blocksAlloc, blockNo e' f k = blockNo e f k) ∧
      (f ≠ B → ∀ p < (e.inode_table f).i_size, byteAt e' f p = byteAt e f p) := by
  rw [hs.inode]
  refine ⟨fun k hk => ?_, fun hfB p hp => ?_⟩
  · rw [hs.block k hk, hs'.block k (by rw [h.inodes]; exact hk), h.block f hf k hk]
  · have hroom := hb f hf hfB
    rw [hs.byteAt (by omega), hs'.byteAt (by rw [h.room]; omega)]
    exact h.bytes f hf hfB p hp

/-! ## Allocation -/

theorem TablesSame.modInode {d d' : Disk} (h : TablesSame d d') (i : Nat) (f : Inode → Inode) :
    TablesSame (d.modInode i f) (d'.modInode i f) :=
  ⟨by simp only [Disk.modInode, h.inodes], h.files, h.free⟩

theorem TablesSame.setFreeBlock {d d' : Disk} (h : TablesSame d d') (b : Nat) (a : AllocationState) :
    TablesSame (d.setFreeBlock b a) (d'.setFreeBlock b a) :=
  ⟨h.inodes, h.files, by simp only [Disk.setFreeBlock, h.free]⟩

theorem TablesSame.setData {d d' : Disk} (h : TablesSame d d') (m m' : Memory) :
    TablesSame { d with fs_data := m } { d' with fs_data := m' } := ⟨h.inodes, h.files, h.free⟩

/-- The new block of the file has the same number on both disks. -/
theorem allocNthDataBlock_pair {d d' : Disk} {f : Nat} (h : DiskInv d) (ht : TablesSame d d')
    (hf : FileInode d f) (hn : (d.inode_table f).blocksAlloc < MAX_INODE_BLOCKS) :
    let n := (d.inode_table f).blocksAlloc
    let r := allocNthDataBlock d f (n + 1)
    let r' := allocNthDataBlock d' f (n + 1)
    r'.1 = r.1 ∧ TablesSame r.2 r'.2 ∧ (r.1 = 0 → blockNo r'.2 f n = blockNo r.2 f n) := by
  have hvalid := h.indirect_valid hf
  generalize hblocks : (d.inode_table f).blocksAlloc = n at *
  have hself := SameSupply.refl f n d
  have hsame : SameSupply f n d d' := ⟨ht.free, fun _ => by rw [ht.inodes]⟩
  rcases allocNthDataBlock_supply hn hvalid with ⟨_, hr⟩ | ⟨_, b, _, _, hr⟩ | ⟨hlt, b, _, hr⟩ |
    ⟨rfl, b, b', _, hb', _, hr⟩ | ⟨hgt, b, hb, hr⟩ <;>
    simp only [hr d hself, hr d' hsame, true_and]
  · exact ⟨ht, fun h0 => absurd h0 (by decide)⟩
  · exact ⟨ht.modInode f _, fun h0 => absurd h0 (by decide)⟩
  · refine ⟨(ht.setFreeBlock b .TAKEN).modInode f _, fun _ => ?_⟩
    simp [blockNo, hlt, withDirect]
  · refine ⟨?_, fun _ => ?_⟩
    · exact ((ht.setFreeBlock b .TAKEN).setFreeBlock b' .TAKEN |>.modInode f _).setData _ _
    · rw [withIndirect_blockNo d f b hb'.1, withIndirect_blockNo d' f b hb'.1]
  · refine ⟨((ht.setFreeBlock b .TAKEN).modInode f _).setData _ _, fun _ => ?_⟩
    rw [withEntry_blockNo d f hgt.le hb.1, withEntry_blockNo d' f hgt.le hb.1]

/-- The loop gives the file the same blocks on both disks. -/
theorem allocBlocksLoop_pair {d d' : Disk} {f : Nat} (todo : Nat) (h : DiskInv d) (h' : DiskInv d')
    (ht : TablesSame d d') (hf : FileInode d f)
    (hn : (d.inode_table f).blocksAlloc + todo ≤ MAX_INODE_BLOCKS) :
    let r := allocBlocksLoop d f (d.inode_table f).blocksAlloc todo
    let r' := allocBlocksLoop d' f (d.inode_table f).blocksAlloc todo
    TablesSame r.2 r'.2 ∧ ∀ k, (d.inode_table f).blocksAlloc ≤ k →
      k < (r.2.inode_table f).blocksAlloc → blockNo r'.2 f k = blockNo r.2 f k := by
  induction todo generalizing d d' with
  | zero => exact ⟨ht, fun k hk hk' => absurd hk' (Nat.not_lt.mpr hk)⟩
  | succ todo ih =>
    obtain ⟨hret, t, hpair⟩ := allocNthDataBlock_pair h ht hf (by omega)
    obtain ⟨hinv, hg, hr⟩ := allocNthDataBlock_spec h hf (by omega)
    have hsame : (d'.inode_table f).blocksAlloc = (d.inode_table f).blocksAlloc := by rw [ht.inodes]
    obtain ⟨hinv', hg', _⟩ :=
      allocNthDataBlock_spec h' ((ht.fileInode f).mpr hf) (by rw [hsame]; omega)
    rw [hsame] at hinv' hg'
    unfold allocBlocksLoop
    simp only [hret]
    rcases hr with ⟨hr, hb⟩ | ⟨hr, hb⟩
    · simp only [hr, show ¬ (1 : Int) = -1 by decide, if_false, if_true]
      exact ⟨t, fun k hk hk' => by omega⟩
    · have hf' := (hg.fileInode f).mpr hf
      have hrest := ih hinv hinv' t hf' (by omega)
      obtain ⟨_, _, hgrow, _⟩ := allocBlocksLoop_spec todo hinv hf' (by omega)
      obtain ⟨_, _, hgrow', _⟩ := allocBlocksLoop_spec todo hinv' ((t.fileInode f).mpr hf')
        (by rw [t.inodes]; omega)
      rw [t.inodes] at hgrow'
      rw [hb] at hrest hgrow hgrow'
      simp only [hr, zero_ne_neg_one, show ¬ (0 : Int) = 1 by decide, if_false]
      refine ⟨hrest.1, fun k hk hk' => ?_⟩
      rcases Nat.eq_or_lt_of_le hk with rfl | hlt
      · rw [hgrow.block_same _ (by omega), hgrow'.block_same _ (by rw [t.inodes]; omega)]
        exact hpair hr
      · exact hrest.2 k hlt hk'

theorem grownFor_pair {d d' : Disk} {f : Nat} (h : DiskInv d) (h' : DiskInv d')
    (ht : TablesSame d d') (hf : FileInode d f) (len o : Nat) :
    TablesSame (grownFor d f len o) (grownFor d' f len o) ∧
      ∀ k, (d.inode_table f).blocksAlloc ≤ k →
        k < ((grownFor d f len o).inode_table f).blocksAlloc →
        blockNo (grownFor d' f len o) f k = blockNo (grownFor d f len o) f k := by
  have hle := h.blocks_le f hf
  have hceil : divCeil (sizeNeeded len o) BLOCK_SIZE ≤ MAX_INODE_BLOCKS :=
    divCeil_le_iff.mpr (sizeNeeded_le len o)
  have := allocBlocksLoop_pair
    (divCeil (sizeNeeded len o) BLOCK_SIZE - (d.inode_table f).blocksAlloc) h h' ht hf (by omega)
  unfold grownFor allocNecessaryBlocks
  rw [ht.inodes]
  exact this

theorem DirSame.symm {d d' : Disk} (h : DirSame d d') : DirSame d' d where
  block := h.block.symm
  bytes := fun j hj => by rw [h.addr]; exact (h.bytes j hj).symm

/-- The directories agree on both sides of two steps. -/
theorem LowEq.dir_of_steps {B : Nat} {d d' e e' : Disk} (h : LowEq B d d') (hs : DirSame d e)
    (hs' : DirSame d' e') : DirSame e e' := hs.symm.trans (h.dir.trans hs')

theorem LowEq.grownFor {B : Nat} {d d' : Disk} {f : Nat} (h : LowEq B d d') (hd : DiskInv d)
    (hd' : DiskInv d') (hb : Backed B d) (hf : FileInode d f) (len o : Nat) :
    LowEq B (grownFor d f len o) (grownFor d' f len o) := by
  have hf' := (h.fileInode f).mpr hf
  have hroot : f ≠ ROOT_DIR_INUM := by rintro rfl; exact hd.root_not_file hf
  obtain ⟨_, hg⟩ := grownFor_spec hd hf len o
  obtain ⟨_, hg'⟩ := grownFor_spec hd' hf' len o
  obtain ⟨ht, hnew⟩ := grownFor_pair hd hd' h.toTablesSame hf len o
  have hother : ∀ g, FileInode d g → g ≠ f → _ := fun g hgf hne => h.of_same hb hgf
    (hg.fileSame hd hf hgf hne) (hg'.fileSame hd' hf' ((h.fileInode g).mpr hgf) hne)
  refine ⟨ht, h.dir_of_steps (hg.dirSame hroot) (hg'.dirSame hroot), ?_, ?_⟩
  · intro g hgf k hk
    have hgf' := (hg.fileInode g).mp hgf
    by_cases hne : g = f
    · subst hne
      rcases Nat.lt_or_ge k (d.inode_table g).blocksAlloc with hlt | hge
      · rw [hg.block_same k hlt, hg'.block_same k (by rw [h.inodes]; exact hlt), h.block g hf k hlt]
      · exact hnew k hge hk
    · exact (hother g hgf' hne).1 k hk
  · intro g hgf hgB p hp
    have hgf' := (hg.fileInode g).mp hgf
    by_cases hne : g = f
    · subst hne
      rw [hg.size] at hp
      have hroom := hb g hf hgB
      rw [hg.byteAt hf (by omega), hg'.byteAt hf' (by rw [h.room]; omega)]
      exact h.bytes g hf hgB p hp
    · exact (hother g hgf' hne).2 hgB p hp

/-! ## Stores -/

/-- Stores of the same length on both disks, of the same bytes unless the file is `B`. The size
grows to the end of what was stored at most, and on files other than `B` leaves no hole. -/
theorem LowEq.stored {B : Nat} {d d' : Disk} {f o n : Nat} {bs bs' : List UInt8} (h : LowEq B d d')
    (hd : DiskInv d) (hd' : DiskInv d') (hb : Backed B d) (hf : FileInode d f)
    (hin : InRoom d f o bs.length) (hlen : bs'.length = bs.length) (hbs : f ≠ B → bs' = bs)
    (hn : f ≠ B → o ≤ (d.inode_table f).i_size ∧
      n ≤ max (d.inode_table f).i_size (o + bs.length)) :
    LowEq B (sizeSet (stored d f o bs) f n) (sizeSet (stored d' f o bs') f n) := by
  have hf' := (h.fileInode f).mpr hf
  have hroot : f ≠ ROOT_DIR_INUM := by rintro rfl; exact hd.root_not_file hf
  have hin' : InRoom d' f o bs'.length := by
    unfold InRoom
    rw [hlen, h.inodes]
    exact hin
  have hdir : ∀ e : Disk, DirSame e (sizeSet e f n) := by
    intro e
    refine ⟨?_, fun _ _ => rfl⟩
    unfold rootBlock
    rw [sizeSet_of_ne _ _ hroot.symm]
  have htables : TablesSame (parte1.stored d f o bs) (parte1.stored d' f o bs') :=
    ⟨h.inodes, h.files, h.free⟩
  refine ⟨htables.modInode f _, ?_, ?_, ?_⟩
  · exact h.dir_of_steps ((dirSame_of_meta (stored_meta hd hf hin)).trans (hdir _))
      ((dirSame_of_meta (stored_meta hd' hf' hin')).trans (hdir _))
  · intro g hg k hk
    have hg' : FileInode d g := (sizeSet_fileInode _ f n g).mp hg
    rw [sizeSet_blocksAlloc] at hk
    rw [sizeSet_blockNo, sizeSet_blockNo, stored_blockNo hd hf hin hg' hk,
      stored_blockNo hd' hf' hin' ((h.fileInode g).mpr hg') (by rw [h.inodes]; exact hk),
      h.block g hg' k hk]
  · intro g hg hgB p hp
    have hg' : FileInode d g := (sizeSet_fileInode _ f n g).mp hg
    have hroom := hb g hg' hgB
    rw [sizeSet_byteAt, sizeSet_byteAt]
    by_cases hne : g = f
    · subst hne
      obtain ⟨ho, hnle⟩ := hn hgB
      rw [sizeSet_self] at hp
      have hp' : p < max (d.inode_table g).i_size n := hp
      have hpr : p < room d g := by
        rcases Nat.lt_or_ge p (d.inode_table g).i_size with hlt | hge
        · omega
        · exact hin.lt_room (by omega) (by omega)
      obtain rfl := hbs hgB
      rw [stored_byteAt hd hf hin hpr, stored_byteAt hd' hf' hin' (by rw [h.room]; exact hpr)]
      split
      · rfl
      · exact h.bytes g hf hgB p (by omega)
    · rw [sizeSet_of_ne _ _ hne] at hp
      exact (h.of_same hb hg' (stored_fileSame hd hf hg' hne hin)
        (stored_fileSame hd' hf' ((h.fileInode g).mpr hg') hne hin')).2 hgB p hp

/-! ## Truncation and creation -/

theorem LowEq.afterTrunc {B : Nat} {d d' : Disk} {f : Nat} (h : LowEq B d d') (hd : DiskInv d)
    (hd' : DiskInv d') (hb : Backed B d) (hf : FileInode d f) (flags : BitVec 32) :
    LowEq B (afterTrunc d flags f) (afterTrunc d' flags f) := by
  have hf' := (h.fileInode f).mpr hf
  have hcond : (hasFlag flags TFS_O_TRUNC = true ∧ 0 < (d'.inode_table f).i_size) ↔
      (hasFlag flags TFS_O_TRUNC = true ∧ 0 < (d.inode_table f).i_size) := by rw [h.inodes]
  have hnos : fileBlockNos d' f = fileBlockNos d f := by
    unfold fileBlockNos
    rw [h.inodes]
    congr 1
    apply List.map_congr_left
    intro k hk
    exact congrArg Int.toNat (h.block f hf k (List.mem_range.mp hk))
  have hdir := h.dir_of_steps (afterTrunc_dirSame hd hf flags) (afterTrunc_dirSame hd' hf' flags)
  have hother : ∀ g, FileInode d g → g ≠ f → _ := fun g hg hne => h.of_same hb hg
    (afterTrunc_fileSame hg hne flags) (afterTrunc_fileSame ((h.fileInode g).mpr hg) hne flags)
  by_cases hc : hasFlag flags TFS_O_TRUNC = true ∧ 0 < (d.inode_table f).i_size
  · have he : parte1.afterTrunc d flags f = truncated d f := if_pos hc
    have he' : parte1.afterTrunc d' flags f = truncated d' f := if_pos (hcond.mpr hc)
    rw [he, he'] at hdir hother ⊢
    have hfreed : TablesSame (freed d (fileBlockNos d f)) (freed d' (fileBlockNos d' f)) :=
      ⟨h.inodes, h.files, by simp only [freed, h.free, hnos]⟩
    refine ⟨hfreed.modInode f _, hdir, ?_, ?_⟩
    · intro g hg k hk
      by_cases hne : g = f
      · subst hne
        simp [truncated] at hk
      · exact (hother g ((truncated_fileInode d f g).mp hg) hne).1 k hk
    · intro g hg hgB p hp
      by_cases hne : g = f
      · subst hne
        simp [truncated] at hp
      · exact (hother g ((truncated_fileInode d f g).mp hg) hne).2 hgB p hp
  · have he : parte1.afterTrunc d flags f = d := if_neg hc
    have he' : parte1.afterTrunc d' flags f = d' := if_neg (mt hcond.mp hc)
    rw [he, he']
    exact h

theorem LowEq.undone {B : Nat} {d d' : Disk} {i : Nat} (h : LowEq B d d') (hd : DiskInv d)
    (hd' : DiskInv d') (hb : Backed B d) (hi : FreeInode d i) :
    LowEq B (undone d i) (undone d' i) := by
  have hi' := (h.freeInode i).mpr hi
  have hother : ∀ g, FileInode d g → _ := fun g hg => h.of_same hb hg
    (undone_fileSame hi hg) (undone_fileSame hi' ((h.fileInode g).mpr hg))
  refine ⟨⟨?_, ?_, h.free⟩, h.dir_of_steps (undone_dirSame hd hi) (undone_dirSame hd' hi'),
    fun g hg => (hother g ((undone_fileInode hi g).mp hg)).1,
    fun g hg => (hother g ((undone_fileInode hi g).mp hg)).2⟩
  · simp only [parte1.undone, freshFile, Disk.modInode, Disk.setFreeinode, h.inodes]
  · simp only [parte1.undone, freshFile, Disk.modInode, Disk.setFreeinode, h.files]

theorem fillDirEntry_congr {m m' : Memory} {a : Nat} (base i : Nat) (sub_inumber : Int)
    (sub_name : CString) (h : m a = m' a) :
    fillDirEntry m base i sub_inumber sub_name a = fillDirEntry m' base i sub_inumber sub_name a :=
  store_congr _ _ (store_congr _ _ (store_congr _ _ h))

theorem LowEq.createdFile {B : Nat} {d d' : Disk} {i j : Nat} (h : LowEq B d d') (hd : DiskInv d)
    (hd' : DiskInv d') (hb : Backed B d) (hi : FreeInode d i) (hj : j < MAX_DIR_ENTRIES)
    (name : CString) : LowEq B (createdFile d i j name) (createdFile d' i j name) := by
  have hi' := (h.freeInode i).mpr hi
  have hother : ∀ g, FileInode d g → _ := fun g hg => h.of_same hb hg
    (createdFile_fileSame hd hi hj hg name)
    (createdFile_fileSame hd' hi' hj ((h.fileInode g).mpr hg) name)
  have hzero : ((parte1.createdFile d i j name).inode_table i).blocksAlloc = 0 ∧
      ((parte1.createdFile d i j name).inode_table i).i_size = 0 := by
    simp [parte1.createdFile, freshFile]
  refine ⟨⟨?_, ?_, h.free⟩, ?_, ?_, ?_⟩
  · simp only [parte1.createdFile, freshFile, Disk.modInode, Disk.setFreeinode, h.inodes]
  · simp only [parte1.createdFile, freshFile, Disk.modInode, Disk.setFreeinode, h.files]
  · have hroot := createdFile_rootAddr (j := j) hd hi name
    refine ⟨?_, fun a ha => ?_⟩
    · have h1 := freshFile_of_ne d (hd.free_ne_root hi)
      have h2 := freshFile_of_ne d' (hd'.free_ne_root hi')
      have := h.dir.block
      unfold rootBlock at *
      simp only [parte1.createdFile, h1, h2, this]
    · rw [hroot]
      simp only [parte1.createdFile, h.dir.addr]
      exact fillDirEntry_congr _ _ _ _ (h.dir.bytes a ha)
  · intro g hg k hk
    rcases (createdFile_fileInode hi name g).mp hg with hold | rfl
    · exact (hother g hold).1 k hk
    · omega
  · intro g hg hgB p hp
    rcases (createdFile_fileInode hi name g).mp hg with hold | rfl
    · exact (hother g hold).2 hgB p hp
    · omega

end tecnicofs.parte1
