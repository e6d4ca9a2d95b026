-- A write in two parts leaves the same state as the write in one, wherever the cut is:
-- inside a block, at the end of the direct blocks, where the free blocks run out, or where
-- the largest file ends.
import TecnicoFS.Parte1.Writes

open byte_memory block_map ownership

namespace tecnicofs.parte1

/-! ## What an allocation does not look at -/

/-- The disk with another memory and another size of `f`. Neither is read when `f` gets blocks. -/
def withContents (d : Disk) (f : Nat) (m : Memory) (size : Nat) : Disk :=
  { d with fs_data := m }.modInode f fun i => { i with i_size := size }

section
variable (d : Disk) (f : Nat) (m m' : Memory) (size size' : Nat)

@[simp] theorem withContents_twice :
    withContents (withContents d f m size) f m' size' = withContents d f m' size' := by
  simp [withContents, Disk.modInode, Function.update_idem]

theorem withContents_self : withContents d f d.fs_data (d.inode_table f).i_size = d := by
  simp [withContents, Disk.modInode]

@[simp] theorem withContents_data : (withContents d f m size).fs_data = m := rfl

@[simp] theorem withContents_blocksAlloc :
    ((withContents d f m size).inode_table f).blocksAlloc = (d.inode_table f).blocksAlloc := by
  simp [withContents]

@[simp] theorem withContents_size : ((withContents d f m size).inode_table f).i_size = size := by
  simp [withContents]

theorem withContents_blockNo (k : Nat) :
    blockNo (withContents d f m size) f k = blockNo { d with fs_data := m } f k := by
  simp [blockNo, indirectAddr, withContents]

theorem withContents_supply (n : Nat) : SameSupply f n d (withContents d f m size) :=
  ⟨rfl, fun _ => by simp [withContents]⟩

end

/-- The edit of the memory leaves the blocks of the file alone. -/
def SparesFile (d : Disk) (f : Nat) (e : Memory → Memory) : Prop :=
  ∀ k < (d.inode_table f).blocksAlloc, ∀ x, x / BLOCK_SIZE = blocksOf d f k → Spares e x

/-- The allocation of the next block edits the memory outside of the blocks of the file, in the
same way for any contents. -/
theorem allocNthDataBlock_edit {d : Disk} {f : Nat} (h : DiskInv d) (hf : FileInode d f)
    (hn : (d.inode_table f).blocksAlloc < MAX_INODE_BLOCKS) :
    let n := (d.inode_table f).blocksAlloc
    let r := allocNthDataBlock d f (n + 1)
    ∃ e, Local e ∧ SparesFile d f e ∧ ∀ m size,
      allocNthDataBlock (withContents d f m size) f (n + 1) =
        (r.1, withContents r.2 f (e m) size) := by
  have hvalid := h.indirect_valid hf
  generalize hblocks : (d.inode_table f).blocksAlloc = n at hn hvalid
  have hself := SameSupply.refl f n d
  have hother := fun m size => withContents_supply d f m size n
  have hid : SparesFile d f id := fun _ _ _ _ _ => rfl
  rcases allocNthDataBlock_supply hn hvalid with ⟨_, hr⟩ | ⟨_, b, _, _, hr⟩ | ⟨hlt, b, _, hr⟩ |
    ⟨rfl, b, b', hb, _, _, hr⟩ | ⟨hgt, b, _, hr⟩ <;> simp only [hr d hself]
  · exact ⟨id, local_id, hid, fun m size => hr _ (hother m size)⟩
  · refine ⟨id, local_id, hid, fun m size => (hr _ (hother m size)).trans ?_⟩
    simp [withContents, Disk.modInode, Function.update_idem]
  · refine ⟨id, local_id, hid, fun m size => (hr _ (hother m size)).trans ?_⟩
    simp [withContents, withDirect, Disk.modInode, Disk.setFreeBlock, Function.update_idem]
  · -- the indirect block was free
    refine ⟨fun m => storeInt m (b * BLOCK_SIZE) b', local_store _ _, ?_,
      fun m size => (hr _ (hother m size)).trans ?_⟩
    · intro k hk x hx m
      apply storeInt_outside_block (b := b)
      · rw [hx]
        exact h.owned_ne_free (ownedBlock_data hf hk) hb
      · intro i hi
        unfold BLOCK_SIZE
        omega
    · simp [withContents, withIndirect, Disk.modInode, Disk.setFreeBlock, Function.update_idem]
  · -- the indirect block is not one of the blocks of the file
    refine ⟨fun m => storeInt m (indirectAddr d f (n - DIRECT_BLOCK_COUNT)) b, local_store _ _, ?_,
      fun m size => (hr _ (hother m size)).trans ?_⟩
    · intro k hk x hx m
      apply storeInt_outside_block (b := (d.inode_table f).indirect_data_block.toNat)
      · rw [hx]
        intro he
        have := h.owner_inj (ownedBlock_data hf hk) (ownedBlock_indirect hf (by omega)) he
        cases this
      · intro i hi
        apply indirectAddr_div _ hi
        simp only [MAX_INODE_BLOCKS, DIRECT_BLOCK_COUNT] at *
        omega
    · simp [withContents, withEntry, indirectAddr, Disk.modInode, Disk.setFreeBlock,
        Function.update_idem]

/-- An allocation that failed fails again, and leaves the disk as it is. -/
theorem allocNthDataBlock_again {d : Disk} {f : Nat} (h : DiskInv d) (hf : FileInode d f)
    (hn : (d.inode_table f).blocksAlloc < MAX_INODE_BLOCKS)
    (hr : (allocNthDataBlock d f ((d.inode_table f).blocksAlloc + 1)).1 = 1) :
    let n := (d.inode_table f).blocksAlloc
    let d' := (allocNthDataBlock d f (n + 1)).2
    allocNthDataBlock d' f (n + 1) = (1, d') := by
  have hvalid := h.indirect_valid hf
  generalize hblocks : (d.inode_table f).blocksAlloc = n at *
  have hself := SameSupply.refl f n d
  rcases allocNthDataBlock_supply hn hvalid with ⟨_, hall⟩ | ⟨heq, b, _, _, hall⟩ |
    ⟨_, b, _, hall⟩ | ⟨_, b, b', _, _, _, hall⟩ | ⟨_, b, _, hall⟩ <;>
    simp only [hall d hself] at hr ⊢
  · -- only one block is free for the two that are needed
    have hsame : SameSupply f n d (d.modInode f fun i => { i with indirect_data_block := b }) :=
      ⟨rfl, fun hlt => by omega⟩
    rw [hall _ hsame]
    simp [Disk.modInode, Function.update_idem]
  · cases hr
  · cases hr
  · cases hr

/-- The next block of a file: there is none, and will be none, or the file gets it. -/
theorem allocNthDataBlock_round {d : Disk} {f : Nat} (h : DiskInv d) (hf : FileInode d f)
    (hn : (d.inode_table f).blocksAlloc < MAX_INODE_BLOCKS) :
    ∃ d', DiskInv d' ∧ Grown f d d' ∧
      ((allocNthDataBlock d f ((d.inode_table f).blocksAlloc + 1) = (1, d') ∧
          allocNthDataBlock d' f ((d'.inode_table f).blocksAlloc + 1) = (1, d')) ∨
        (allocNthDataBlock d f ((d.inode_table f).blocksAlloc + 1) = (0, d') ∧
          (d'.inode_table f).blocksAlloc = (d.inode_table f).blocksAlloc + 1)) := by
  obtain ⟨hinv, hg, hr⟩ := allocNthDataBlock_spec h hf hn
  refine ⟨_, hinv, hg, ?_⟩
  rcases hr with ⟨hr, hb⟩ | ⟨hr, hb⟩
  · refine Or.inl ⟨Prod.ext hr rfl, ?_⟩
    rw [hb]
    exact allocNthDataBlock_again h hf hn hr
  · exact Or.inr ⟨Prod.ext hr rfl, hb⟩

/-! ## As many blocks as a file can get -/

/-- The disk once `f` has `want` blocks, or as many as it can get. -/
def grownTo (d : Disk) (f want : Nat) : Disk :=
  (allocBlocksLoop d f (d.inode_table f).blocksAlloc (want - (d.inode_table f).blocksAlloc)).2

theorem grownFor_eq (d : Disk) (f len o : Nat) :
    grownFor d f len o = grownTo d f (divCeil (sizeNeeded len o) BLOCK_SIZE) := rfl

theorem grownTo_enough {d : Disk} {f want : Nat} (hw : want ≤ (d.inode_table f).blocksAlloc) :
    grownTo d f want = d := by
  unfold grownTo
  rw [Nat.sub_eq_zero_of_le hw]
  rfl

/-- A round that fails is the last one. -/
theorem grownTo_failed {d d' : Disk} {f want : Nat} (hlt : (d.inode_table f).blocksAlloc < want)
    (hr : allocNthDataBlock d f ((d.inode_table f).blocksAlloc + 1) = (1, d')) :
    grownTo d f want = d' := by
  obtain ⟨todo, htodo⟩ := Nat.exists_eq_add_of_lt hlt
  unfold grownTo
  rw [show want - (d.inode_table f).blocksAlloc = todo + 1 by omega]
  simp only [allocBlocksLoop, hr, show ¬ (1 : Int) = -1 by decide, if_false, if_true]

/-- Behind a round that gives a block, the loop goes on. -/
theorem grownTo_next {d d' : Disk} {f want : Nat} (hlt : (d.inode_table f).blocksAlloc < want)
    (hr : allocNthDataBlock d f ((d.inode_table f).blocksAlloc + 1) = (0, d'))
    (hb : (d'.inode_table f).blocksAlloc = (d.inode_table f).blocksAlloc + 1) :
    grownTo d f want = grownTo d' f want := by
  obtain ⟨todo, htodo⟩ := Nat.exists_eq_add_of_lt hlt
  unfold grownTo
  rw [hb, show want - (d.inode_table f).blocksAlloc = todo + 1 by omega,
    show want - ((d.inode_table f).blocksAlloc + 1) = todo by omega]
  simp only [allocBlocksLoop, hr, zero_ne_neg_one, zero_ne_one, if_false]

/-- Where the next block fails without a change, nothing grows. -/
theorem grownTo_stays {d : Disk} {f : Nat}
    (hr : allocNthDataBlock d f ((d.inode_table f).blocksAlloc + 1) = (1, d)) (want : Nat) :
    grownTo d f want = d := by
  rcases Nat.lt_or_ge (d.inode_table f).blocksAlloc want with hlt | hge
  · exact grownTo_failed hlt hr
  · exact grownTo_enough hge

section
variable {d : Disk} {f want : Nat} (h : DiskInv d) (hf : FileInode d f)
  (hw : want ≤ MAX_INODE_BLOCKS)
include h hf hw

theorem grownTo_spec : DiskInv (grownTo d f want) ∧ Grown f d (grownTo d f want) := by
  have hle := h.blocks_le f hf
  obtain ⟨_, hinv, hg, _⟩ :=
    allocBlocksLoop_spec (want - (d.inode_table f).blocksAlloc) h hf (by omega)
  exact ⟨hinv, hg⟩

/-- The growth edits the memory outside of the blocks of the file, in the same way for any
contents. -/
theorem grownTo_edit :
    ∃ e, Local e ∧ SparesFile d f e ∧ ∀ m size,
      grownTo (withContents d f m size) f want = withContents (grownTo d f want) f (e m) size := by
  induction hk : want - (d.inode_table f).blocksAlloc generalizing d with
  | zero =>
    have hle : want ≤ (d.inode_table f).blocksAlloc := by omega
    refine ⟨id, local_id, fun _ _ _ _ _ => rfl, fun m size => ?_⟩
    rw [grownTo_enough hle, grownTo_enough (by rwa [withContents_blocksAlloc])]
    rfl
  | succ k ih =>
    have hlt : (d.inode_table f).blocksAlloc < want := by omega
    have hlt' : ∀ m size, ((withContents d f m size).inode_table f).blocksAlloc < want :=
      fun m size => by rwa [withContents_blocksAlloc]
    obtain ⟨e, hloc, hsp, he⟩ := allocNthDataBlock_edit h hf (by omega)
    obtain ⟨d', hinv, hg, hr⟩ := allocNthDataBlock_round h hf (by omega)
    have hother : ∀ c, allocNthDataBlock d f ((d.inode_table f).blocksAlloc + 1) = (c, d') →
        ∀ m size, allocNthDataBlock (withContents d f m size) f
          (((withContents d f m size).inode_table f).blocksAlloc + 1) =
            (c, withContents d' f (e m) size) := by
      intro c hc m size
      simpa only [withContents_blocksAlloc, hc] using he m size
    rcases hr with ⟨hr, _⟩ | ⟨hr, hb⟩
    · refine ⟨e, hloc, hsp, fun m size => ?_⟩
      rw [grownTo_failed hlt hr]
      exact grownTo_failed (hlt' m size) (hother 1 hr m size)
    · obtain ⟨e', hloc', hsp', he'⟩ := ih hinv ((hg.fileInode f).mpr hf) (by omega)
      refine ⟨e' ∘ e, hloc'.comp hloc, fun j hj x hx => Spares.comp ?_ (hsp j hj x hx),
        fun m size => ?_⟩
      · refine hsp' j (Nat.lt_of_lt_of_le hj hg.blocks_le) x (hx.trans ?_)
        exact (congrArg Int.toNat (hg.block_same j hj)).symm
      · rw [grownTo_next hlt hr hb]
        refine (grownTo_next (hlt' m size) (hother 0 hr m size) ?_).trans (he' (e m) size)
        rw [withContents_blocksAlloc, withContents_blocksAlloc]
        exact hb

/-- Growing in two steps is growing in one. -/
theorem grownTo_grownTo {more : Nat} (hle : want ≤ more) :
    grownTo (grownTo d f want) f more = grownTo d f more := by
  induction hk : want - (d.inode_table f).blocksAlloc generalizing d with
  | zero => rw [grownTo_enough (show want ≤ (d.inode_table f).blocksAlloc by omega)]
  | succ k ih =>
    have hlt : (d.inode_table f).blocksAlloc < want := by omega
    have hlt' := hlt.trans_le hle
    obtain ⟨d', hinv, hg, ⟨hr, hagain⟩ | ⟨hr, hb⟩⟩ := allocNthDataBlock_round h hf (by omega)
    · rw [grownTo_failed hlt hr, grownTo_failed hlt' hr, grownTo_stays hagain]
    · rw [grownTo_next hlt hr hb, grownTo_next hlt' hr hb]
      exact ih hinv ((hg.fileInode f).mpr hf) (by omega)

/-- A file that did not get all that it wanted gets no more. -/
theorem grownTo_short (hshort : ((grownTo d f want).inode_table f).blocksAlloc < want) (more : Nat) :
    grownTo (grownTo d f want) f more = grownTo d f want := by
  induction hk : want - (d.inode_table f).blocksAlloc generalizing d with
  | zero =>
    rw [grownTo_enough (show want ≤ (d.inode_table f).blocksAlloc by omega)] at hshort
    omega
  | succ k ih =>
    have hlt : (d.inode_table f).blocksAlloc < want := by omega
    obtain ⟨d', hinv, hg, ⟨hr, hagain⟩ | ⟨hr, hb⟩⟩ := allocNthDataBlock_round h hf (by omega)
    · rw [grownTo_failed hlt hr, grownTo_stays hagain]
    · rw [grownTo_next hlt hr hb] at hshort ⊢
      exact ih hinv ((hg.fileInode f).mpr hf) hshort (by omega)

/-- A store into the blocks that the file has can wait until the file has grown. -/
theorem grownTo_stored {p size : Nat} {bs : List UInt8} (hin : InRoom d f p bs.length) :
    grownTo (withContents d f (stored d f p bs).fs_data size) f want =
      withContents (grownTo d f want) f (stored (grownTo d f want) f p bs).fs_data size := by
  obtain ⟨_, hg⟩ := grownTo_spec h hf hw
  obtain ⟨e, hloc, hsp, he⟩ := grownTo_edit h hf hw
  have hdata : (grownTo d f want).fs_data = e d.fs_data := by
    have hself := he d.fs_data (d.inode_table f).i_size
    rw [withContents_self] at hself
    exact congrArg Disk.fs_data hself
  have hcomm : e (fileStore BLOCK_SIZE (blocksOf d f) d.fs_data p bs) =
      fileStore BLOCK_SIZE (blocksOf d f) (e d.fs_data) p bs := by
    refine hloc.comm (local_fileStore p bs) (fun x => ?_) d.fs_data
    by_cases hx : ∃ i < bs.length, addr BLOCK_SIZE (blocksOf d f) (p + i) = x
    · obtain ⟨i, hi, rfl⟩ := hx
      exact Or.inl (hsp _ (hin i hi) _ (addr_div (by decide) _))
    · refine Or.inr fun m => fileStore_outside m p x bs fun i hi ha => hx ⟨i, hi, ha⟩
  have hmap : fileStore BLOCK_SIZE (blocksOf d f) (e d.fs_data) p bs =
      fileStore BLOCK_SIZE (blocksOf (grownTo d f want) f) (e d.fs_data) p bs :=
    fileStore_map_congr _ _ _ fun i hi => congrArg Int.toNat (hg.block_same _ (hin i hi)).symm
  rw [he]
  unfold stored
  simp only
  rw [hcomm, hdata, hmap]

end

/-! ## Two writes, one behind the other -/

theorem sizeSet_stored (d : Disk) (f p n : Nat) (bs : List UInt8) :
    sizeSet (stored d f p bs) f n =
      withContents d f (stored d f p bs).fs_data (max (d.inode_table f).i_size n) := by
  have hself : (if (d.inode_table f).i_size < n then { d.inode_table f with i_size := n }
      else d.inode_table f) =
      { d.inode_table f with i_size := max (d.inode_table f).i_size n } :=
    (Disk.modInode_self d f _).symm.trans (sizeSet_self d f n)
  unfold sizeSet withContents Disk.modInode stored
  simp only
  rw [hself]

/-- The contents of the file are stored into the blocks that it has, whatever its size. -/
theorem stored_withContents (d : Disk) (f p size : Nat) (m : Memory) (bs : List UInt8) :
    (stored (withContents d f m size) f p bs).fs_data =
      (stored { d with fs_data := m } f p bs).fs_data := by
  have hmap : blocksOf (withContents d f m size) f = blocksOf { d with fs_data := m } f :=
    funext fun k => congrArg Int.toNat (withContents_blockNo d f m size k)
  unfold stored
  rw [hmap]
  rfl

theorem writtenDisk_contents {d : Disk} {f o : Nat} {buffer : List UInt8} (h : DiskInv d)
    (hf : FileInode d f) (hsave : saveToWrite buffer.length o ≠ 0) :
    writtenDisk d f o buffer =
      let k := copied d f buffer.length o
      let g := grownFor d f buffer.length o
      withContents g f (stored g f o (buffer.take k)).fs_data
        (max (d.inode_table f).i_size (o + k)) := by
  have hsize := (grownFor_spec h hf buffer.length o).2.size
  unfold writtenDisk
  simp only [hsave, if_false]
  rw [sizeSet_stored, hsize]

/-- What the first write stored can wait until the second one has its blocks. -/
theorem writtenDisk_grown {d : Disk} {f o want : Nat} {xs : List UInt8} (h : DiskInv d)
    (hf : FileInode d f) (hfirst : saveToWrite xs.length o ≠ 0) (hwant : want ≤ MAX_INODE_BLOCKS) :
    let k := copied d f xs.length o
    let g := grownTo (grownFor d f xs.length o) f want
    grownTo (writtenDisk d f o xs) f want =
      withContents g f (stored g f o (xs.take k)).fs_data (max (d.inode_table f).i_size (o + k)) := by
  obtain ⟨hinv, hg⟩ := grownFor_spec h hf xs.length o
  rw [writtenDisk_contents h hf hfirst]
  exact grownTo_stored hinv ((hg.fileInode f).mpr hf) hwant (copied_inRoom d f o xs)

/-- What is taken of two buffers, if none is taken of the second one before the first is used
up. -/
theorem take_append {xs ys : List UInt8} {k k' : Nat}
    (h : k = xs.length ∨ (k ≤ xs.length ∧ k' = 0)) :
    (xs ++ ys).take (k + k') = xs.take k ++ ys.take k' := by
  rcases h with rfl | ⟨hle, rfl⟩
  · rw [List.take_length_add_append, List.take_length]
  · rw [Nat.add_zero, List.take_append_of_le_length hle, List.take_zero, List.append_nil]

/-- The second write wants the same blocks as the single one, and the rest of the bytes. -/
theorem second_rest {o : Nat} {xs ys : List UInt8} (ho : o ≤ MAX_FILE_SIZE)
    (hlen : xs.length + ys.length < 2 ^ 63) (hle : o + xs.length ≤ MAX_FILE_SIZE) :
    sizeNeeded ys.length (o + xs.length) = sizeNeeded (xs.length + ys.length) o ∧
      saveToWrite (xs.length + ys.length) o = xs.length + saveToWrite ys.length (o + xs.length) := by
  have hmax := ho
  simp only [MAX_FILE_SIZE] at hmax
  rw [sizeNeeded_eq (by omega) hle, sizeNeeded_eq (by omega) ho, saveToWrite_eq (by omega) ho,
    saveToWrite_eq (by omega) hle]
  omega

section
variable {d : Disk} {f o : Nat} {xs ys : List UInt8} (h : DiskInv d) (hf : FileInode d f)
  (ho : o ≤ MAX_FILE_SIZE) (hlen : xs.length + ys.length < 2 ^ 63)
include h hf ho hlen

/-- A first write that got its blocks leaves work for the second one only if it copied all. -/
theorem copied_all (hfull : sizeNeeded xs.length o ≤ room (grownFor d f xs.length o) f)
    (hsecond : saveToWrite ys.length (o + copied d f xs.length o) ≠ 0) :
    copied d f xs.length o = xs.length ∧ o + xs.length ≤ room (grownFor d f xs.length o) f := by
  have hmax := ho
  simp only [MAX_FILE_SIZE] at hmax
  have hle := copied_le_length h hf xs.length ho
  rw [sizeNeeded_eq (by omega) ho] at hfull
  have hk : copied d f xs.length o = min xs.length (MAX_FILE_SIZE - o) := by
    unfold copied
    rw [saveToWrite_eq (by omega) ho]
    exact Nat.min_eq_left (by omega)
  rw [saveToWrite_eq (by omega) (by omega)] at hsecond
  omega

/-- The joint write goes on from the blocks that the first one got. -/
theorem grownFor_more :
    grownTo (grownFor d f xs.length o) f
        (divCeil (sizeNeeded (xs.length + ys.length) o) BLOCK_SIZE) =
      grownFor d f (xs.length + ys.length) o := by
  have hmax := ho
  simp only [MAX_FILE_SIZE] at hmax
  apply grownTo_grownTo h hf
  · exact divCeil_le_iff.mpr (sizeNeeded_le xs.length o)
  · apply divCeil_mono
    rw [sizeNeeded_eq (by omega) ho, sizeNeeded_eq (by omega) ho]
    omega

theorem grownFor_room_le :
    room (grownFor d f xs.length o) f ≤ room (grownFor d f (xs.length + ys.length) o) f := by
  obtain ⟨hinv, hg⟩ := grownFor_spec h hf xs.length o
  have hwant : divCeil (sizeNeeded (xs.length + ys.length) o) BLOCK_SIZE ≤ MAX_INODE_BLOCKS :=
    divCeil_le_iff.mpr (sizeNeeded_le (xs.length + ys.length) o)
  have hle := (grownTo_spec hinv ((hg.fileInode f).mpr hf) hwant).2.blocks_le
  rw [grownFor_more h hf ho hlen] at hle
  exact Nat.mul_le_mul_right _ hle

/-- When the first write ran out of blocks, so do all that come later, and the joint one copies
no more than the first. -/
theorem copied_short (hshort : room (grownFor d f xs.length o) f < sizeNeeded xs.length o) :
    let g := grownFor d f xs.length o
    (∀ more, grownTo g f more = g) ∧ grownFor d f (xs.length + ys.length) o = g ∧
      copied d f xs.length o = room g f - o ∧
      copied d f (xs.length + ys.length) o = room g f - o := by
  have hmax := ho
  simp only [MAX_FILE_SIZE] at hmax
  have hwant : divCeil (sizeNeeded xs.length o) BLOCK_SIZE ≤ MAX_INODE_BLOCKS :=
    divCeil_le_iff.mpr (sizeNeeded_le xs.length o)
  have hblocks : ((grownFor d f xs.length o).inode_table f).blocksAlloc <
      divCeil (sizeNeeded xs.length o) BLOCK_SIZE := by
    rw [← not_le, divCeil_le_iff, Nat.mul_comm, not_le]
    exact hshort
  have hsame := grownTo_short h hf hwant hblocks
  have hdisk : grownFor d f (xs.length + ys.length) o = grownFor d f xs.length o :=
    (grownFor_more h hf ho hlen).symm.trans (hsame _)
  have hle : saveToWrite xs.length o ≤ saveToWrite (xs.length + ys.length) o := by
    rw [saveToWrite_eq (by omega) ho, saveToWrite_eq (by omega) ho]
    omega
  have hcut : room (grownFor d f xs.length o) f - o ≤ saveToWrite xs.length o := by
    rw [sizeNeeded_eq (by omega) ho] at hshort
    rw [saveToWrite_eq (by omega) ho]
    omega
  refine ⟨hsame, hdisk, Nat.min_eq_right hcut, ?_⟩
  unfold copied
  rw [hdisk]
  exact Nat.min_eq_right (hcut.trans hle)

/-- The blocks of the second write are the ones that the single write has over the first, and so
are the bytes. -/
theorem second_part (hsecond : saveToWrite ys.length (o + copied d f xs.length o) ≠ 0) :
    let k := copied d f xs.length o
    let g := grownFor d f (xs.length + ys.length) o
    let k' := min (saveToWrite ys.length (o + k)) (room g f - (o + k))
    grownTo (grownFor d f xs.length o) f (divCeil (sizeNeeded ys.length (o + k)) BLOCK_SIZE) = g ∧
      copied d f (xs.length + ys.length) o = k + k' ∧
      (k = xs.length ∨ (k ≤ xs.length ∧ k' = 0)) := by
  rcases Nat.lt_or_ge (room (grownFor d f xs.length o) f) (sizeNeeded xs.length o) with
    hshort | hfull
  · obtain ⟨hsame, hdisk, hk, hall⟩ := copied_short h hf ho hlen hshort
    rw [hdisk]
    refine ⟨hsame _, ?_, Or.inr ⟨copied_le_length h hf xs.length ho, ?_⟩⟩ <;> omega
  · -- the first write got all its blocks
    obtain ⟨hinv, hg⟩ := grownFor_spec h hf xs.length o
    have hmore := grownFor_room_le h hf ho hlen
    obtain ⟨hall, hend⟩ := copied_all h hf ho hlen hfull hsecond
    obtain ⟨hsum, hsave⟩ := second_rest ho hlen
      (hend.trans (hinv.room_le ((hg.fileInode f).mpr hf)))
    simp only [hall]
    refine ⟨?_, ?_, Or.inl trivial⟩
    · rw [hsum]
      exact grownFor_more h hf ho hlen
    · unfold copied
      rw [hsave]
      omega

/-- The second write goes on where the first one ended, if it has something to write. -/
theorem writtenDisk_second (hfirst : saveToWrite xs.length o ≠ 0)
    (hsecond : saveToWrite ys.length (o + copied d f xs.length o) ≠ 0) :
    let k := copied d f xs.length o
    let d' := writtenDisk d f o xs
    copied d f (xs.length + ys.length) o = k + copied d' f ys.length (o + k) ∧
      writtenDisk d' f (o + k) ys = writtenDisk d f o (xs ++ ys) := by
  obtain ⟨hgrow, hcount, htake⟩ := second_part h hf ho hlen hsecond
  have hwant : divCeil (sizeNeeded ys.length (o + copied d f xs.length o)) BLOCK_SIZE ≤
      MAX_INODE_BLOCKS := divCeil_le_iff.mpr (sizeNeeded_le ..)
  have hgrown := writtenDisk_grown h hf hfirst hwant
  rw [hgrow, ← grownFor_eq] at hgrown
  obtain ⟨hinv', hf'⟩ := writtenDisk_inv h hf o xs
  obtain ⟨hinv, hg⟩ := grownFor_spec h hf (xs.length + ys.length) o
  have hall : saveToWrite (xs ++ ys).length o ≠ 0 := by
    simp only [MAX_FILE_SIZE] at ho
    rw [saveToWrite_eq (by omega) ho] at hfirst
    rw [List.length_append, saveToWrite_eq (by omega) ho]
    omega
  have hsize : ((writtenDisk d f o xs).inode_table f).i_size =
      max (d.inode_table f).i_size (o + copied d f xs.length o) := by
    rw [writtenDisk_contents h hf hfirst, withContents_size]
  have hroom : room (grownFor (writtenDisk d f o xs) f ys.length (o + copied d f xs.length o)) f =
      room (grownFor d f (xs.length + ys.length) o) f := by
    unfold room
    rw [hgrown, withContents_blocksAlloc]
  have hk' : copied (writtenDisk d f o xs) f ys.length (o + copied d f xs.length o) =
      min (saveToWrite ys.length (o + copied d f xs.length o))
        (room (grownFor d f (xs.length + ys.length) o) f - (o + copied d f xs.length o)) :=
    congrArg (fun r => min _ (r - _)) hroom
  rw [← hk'] at hcount htake
  have hlenk : (xs.take (copied d f xs.length o)).length = copied d f xs.length o :=
    List.length_take_of_le (copied_le_length h hf xs.length ho)
  have hin : InRoom (grownFor d f (xs.length + ys.length) o) f o
      ((xs.take (copied d f xs.length o)).length + (ys.take (copied (writtenDisk d f o xs) f
        ys.length (o + copied d f xs.length o))).length) := by
    apply inRoom_of_le
    rw [hlenk]
    apply le_trans (Nat.add_le_add_left (List.length_take_le ..) _)
    rw [← hcount]
    exact Nat.min_le_right ..
  have hbytes := stored_append hinv ((hg.fileInode f).mpr hf) hin
  rw [hlenk] at hbytes
  refine ⟨hcount, ?_⟩
  rw [writtenDisk_contents hinv' hf' hsecond, writtenDisk_contents h hf hall, List.length_append,
    hcount]
  simp only at hgrown ⊢
  rw [take_append htake, ← hbytes, hsize, hgrown, withContents_twice, stored_withContents,
    Nat.max_assoc, Nat.add_assoc, Nat.max_eq_right (Nat.add_le_add_left (Nat.le_add_right ..) o)]
  rfl

/-- What comes behind the end of what is written makes no difference. -/
theorem writtenDisk_rest
    (hsave : saveToWrite (xs.length + ys.length) o = saveToWrite xs.length o) :
    copied d f (xs.length + ys.length) o = copied d f xs.length o ∧
      writtenDisk d f o (xs ++ ys) = writtenDisk d f o xs := by
  have hmax := ho
  simp only [MAX_FILE_SIZE] at hmax
  have hneed : sizeNeeded (xs.length + ys.length) o = sizeNeeded xs.length o := by
    rw [saveToWrite_eq (by omega) ho, saveToWrite_eq (by omega) ho] at hsave
    rw [sizeNeeded_eq (by omega) ho, sizeNeeded_eq (by omega) ho, hsave]
  have hgrown : grownFor d f (xs.length + ys.length) o = grownFor d f xs.length o := by
    rw [grownFor_eq, grownFor_eq, hneed]
  have hcopied : copied d f (xs.length + ys.length) o = copied d f xs.length o := by
    unfold copied
    rw [hsave, hgrown]
  refine ⟨hcopied, ?_⟩
  unfold writtenDisk
  rw [List.length_append, hsave, hgrown, hcopied]
  simp only
  rw [List.take_append_of_le_length (copied_le_length h hf xs.length ho)]

/-- Wherever the cut is, the two writes copy what the single one copies. -/
theorem writtenDisk_append :
    let k := copied d f xs.length o
    let d' := writtenDisk d f o xs
    copied d f (xs.length + ys.length) o = k + copied d' f ys.length (o + k) ∧
      writtenDisk d' f (o + k) ys = writtenDisk d f o (xs ++ ys) := by
  have hmax := ho
  simp only [MAX_FILE_SIZE] at hmax
  have hk := copied_le_length h hf xs.length ho
  have hsave := saveToWrite_eq (show xs.length + o < 2 ^ 64 by omega) ho
  have hsaveall := saveToWrite_eq (show xs.length + ys.length + o < 2 ^ 64 by omega) ho
  have hend : copied d f xs.length o ≤ saveToWrite xs.length o := Nat.min_le_left ..
  have hsave' := saveToWrite_eq
    (show ys.length + (o + copied d f xs.length o) < 2 ^ 64 by omega) (by omega)
  by_cases hsecond : saveToWrite ys.length (o + copied d f xs.length o) = 0
  · -- the second buffer is empty, or the largest file is full
    obtain ⟨hcopied, hdisk⟩ := writtenDisk_rest h hf ho hlen (by omega)
    simp only [hcopied, hdisk, copied_of_nothing hsecond, Nat.add_zero, true_and]
    unfold writtenDisk
    simp only [hsecond, if_true]
  by_cases hfirst : saveToWrite xs.length o = 0
  · -- the first buffer is empty
    have hnil : xs.length = 0 := by omega
    obtain rfl := List.length_eq_zero_iff.mp hnil
    have hdisk : writtenDisk d f o [] = d := by
      unfold writtenDisk
      simp only [hfirst, if_true]
    have hk0 : copied d f 0 o = 0 := copied_of_nothing hfirst
    simp [hk0, hdisk]
  · exact writtenDisk_second h hf ho hlen hfirst hsecond

end

/-- Two writes through one handle leave the state of the single write of both buffers, and
return together what it returns. -/
theorem two_writes_are_one (s : State) (h : Reachable s) (fhandle : Int) (i : Nat)
    (xs ys : List UInt8) (hget : getOpenFileEntry s fhandle = some i)
    (hlen : xs.length + ys.length < 2 ^ 63) :
    let first := tfsWrite s fhandle xs
    let second := tfsWrite first.2 fhandle ys
    let whole := tfsWrite s fhandle (xs ++ ys)
    second.2 = whole.2 ∧ first.1 + second.1 = whole.1 := by
  obtain ⟨f, hin, hf, _⟩ := h.inv.on_file hget
  obtain ⟨_, ho⟩ := handle_on_file h.inv hget hin
  have hdisk := h.inv.disk
  have hinv := h.inv.tfsWrite fhandle xs
  have hwhole := tfsWrite_written h.inv hget hin
    (show (xs ++ ys).length < 2 ^ 63 by rwa [List.length_append])
  obtain ⟨hcount, happ⟩ := writtenDisk_append hdisk hf ho hlen
  have hnext := offsetAt_written hdisk hf (s.open_file_table i) xs
  simp only at hnext ⊢
  rw [tfsWrite_written h.inv hget hin (show xs.length < 2 ^ 63 by omega)] at hinv ⊢
  rw [tfsWrite_written hinv (i := i) (f := f) hget (by simpa [fillEntry] using hin) (by omega), hwhole]
  simp only [fillEntry, Function.update_self, Function.update_idem, hnext]
  rw [happ, List.length_append, hcount, Nat.add_assoc]
  exact ⟨rfl, by omega⟩

theorem two_bytes_in_two_writes :
    (tfsWrite (tfsWrite oneByteWritten 0 [8]).2 0 [9]).2 = (tfsWrite oneByteWritten 0 [8, 9]).2 ∧
      (tfsWrite oneByteWritten 0 [8]).1 + (tfsWrite (tfsWrite oneByteWritten 0 [8]).2 0 [9]).1 =
        (tfsWrite oneByteWritten 0 [8, 9]).1 :=
  two_writes_are_one oneByteWritten oneByteWritten_reachable 0 0 [8] [9] oneByteWritten_handle.1
    (by decide)

end tecnicofs.parte1
