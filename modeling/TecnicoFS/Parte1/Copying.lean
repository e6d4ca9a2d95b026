-- The copy loops of `tfs_write` and `tfs_read`. Both walk the blocks of a file
-- chunk by chunk. What they do is one store, or one load, at positions of the
-- file, as far as its blocks reach.
import TecnicoFS.Parte1.Allocation

open byte_memory block_map ownership

namespace tecnicofs.parte1

/-! ## Blocks, counted from 1 -/

theorem getNthDataBlock_mapped {d : Disk} {f k : Nat} (h : DiskInv d) (hf : FileInode d f)
    (hk : k < (d.inode_table f).blocksAlloc) :
    getNthDataBlock d f (k + 1) = (false, some (blocksOf d f k * BLOCK_SIZE)) := by
  have hget := dataBlockGet_of_taken (h.exact.taken_of_own (ownedBlock_data hf hk))
  unfold getNthDataBlock
  rw [if_neg (by omega), Nat.add_sub_cancel]
  unfold blocksOf
  by_cases h9 : 9 < k
  · have hge : ¬ k < DIRECT_BLOCK_COUNT := by simp only [DIRECT_BLOCK_COUNT]; omega
    have hind := dataBlockGet_of_taken (h.exact.taken_of_own
      (ownedBlock_indirect hf (by simp only [DIRECT_BLOCK_COUNT] at hge ⊢; omega)))
    unfold blockNo at hget ⊢
    rw [if_neg hge] at hget ⊢
    simp only [h9, if_true, hind]
    exact congrArg (Prod.mk false) hget
  · have hlt : k < DIRECT_BLOCK_COUNT := by simp only [DIRECT_BLOCK_COUNT]; omega
    unfold blockNo at hget ⊢
    rw [if_pos hlt] at hget ⊢
    simp only [h9, if_false, hget]

/-- Behind the blocks of a file there is an error, as long as a file can have such a block. -/
theorem getNthDataBlock_beyond {d : Disk} {f k : Nat} (hk : (d.inode_table f).blocksAlloc ≤ k) :
    getNthDataBlock d f (k + 1) = (decide (k < MAX_INODE_BLOCKS), none) := by
  unfold getNthDataBlock validInodeBlockNumber
  rw [if_pos (by omega)]
  congr 1
  exact decide_eq_decide.mpr (by omega)

/-- The bytes that the blocks of `f` hold. -/
def room (d : Disk) (f : Nat) : Nat := (d.inode_table f).blocksAlloc * BLOCK_SIZE

theorem DiskInv.room_le {d : Disk} {f : Nat} (h : DiskInv d) (hf : FileInode d f) :
    room d f ≤ MAX_FILE_SIZE := by
  have := h.blocks_le f hf
  unfold room
  simp only [MAX_INODE_BLOCKS, BLOCK_SIZE, MAX_FILE_SIZE] at *
  omega

/-! ## A store into a file -/

/-- The disk with the bytes `bs` in file `f` from position `p` on. -/
def stored (d : Disk) (f p : Nat) (bs : List UInt8) : Disk :=
  { d with fs_data := fileStore BLOCK_SIZE (blocksOf d f) d.fs_data p bs }

@[simp] theorem stored_nil (d : Disk) (f p : Nat) : stored d f p [] = d := rfl

/-- The store stays inside the blocks that the file has. -/
def InRoom (d : Disk) (f p n : Nat) : Prop := ∀ i < n, (p + i) / BLOCK_SIZE < (d.inode_table f).blocksAlloc

theorem inRoom_of_le {d : Disk} {f p n : Nat} (h : n ≤ room d f - p) : InRoom d f p n := by
  intro i hi
  unfold room BLOCK_SIZE at *
  omega

/-- A store into the blocks of a file leaves all other blocks alone. -/
theorem stored_other {d : Disk} {f p : Nat} {bs : List UInt8} (h : DiskInv d) (hf : FileInode d f)
    (hin : InRoom d f p bs.length) {o : Owner} {b : Int} (ho : ownedBlock d o = some b)
    (hne : ∀ k, o ≠ .data f k) {a : Nat} (ha : a / BLOCK_SIZE = b.toNat) :
    (stored d f p bs).fs_data a = d.fs_data a := by
  apply fileStore_other_block (by decide)
  intro i hi he
  exact hne _ (h.owner_inj ho (ownedBlock_data hf (hin i hi)) (ha.symm.trans he.symm))

theorem stored_meta {d : Disk} {f p : Nat} {bs : List UInt8} (h : DiskInv d) (hf : FileInode d f)
    (hin : InRoom d f p bs.length) : MetaSame d (stored d f p bs).fs_data :=
  fun _ _ ho hne _ ha => stored_other h hf hin ho (hne f) ha

theorem DiskInv.stored {d : Disk} {f p : Nat} {bs : List UInt8} (h : DiskInv d)
    (hf : FileInode d f) (hin : InRoom d f p bs.length) : DiskInv (stored d f p bs) :=
  h.setData (stored_meta h hf hin)

theorem stored_blockNo {d : Disk} {f p : Nat} {bs : List UInt8} (h : DiskInv d)
    (hf : FileInode d f) (hin : InRoom d f p bs.length) {g k : Nat} (hg : FileInode d g)
    (hk : k < (d.inode_table g).blocksAlloc) : blockNo (stored d f p bs) g k = blockNo d g k :=
  h.blockNo_of_indirect (stored_meta h hf hin).indirect hg hk

/-- Two stores, one behind the other. -/
theorem stored_append {d : Disk} {f p : Nat} {xs ys : List UInt8} (h : DiskInv d)
    (hf : FileInode d f) (hin : InRoom d f p (xs.length + ys.length)) :
    stored (stored d f p xs) f (p + xs.length) ys = stored d f p (xs ++ ys) := by
  have hx : InRoom d f p xs.length := fun i hi => hin i (by omega)
  have hmap : ∀ i < ys.length, blocksOf (stored d f p xs) f ((p + xs.length + i) / BLOCK_SIZE) =
      blocksOf d f ((p + xs.length + i) / BLOCK_SIZE) := by
    intro i hi
    have := hin (xs.length + i) (by omega)
    rw [← Nat.add_assoc] at this
    exact congrArg Int.toNat (stored_blockNo h hf hx hf this)
  unfold stored at *
  rw [fileStore_append, fileStore_map_congr _ _ _ hmap]

/-- Two chunks of the buffer, one behind the other. -/
theorem stored_chunks {d : Disk} {f p o c n : Nat} {buffer : List UInt8} (h : DiskInv d)
    (hf : FileInode d f) (hroom : c + n ≤ room d f - p) :
    stored (stored d f p ((buffer.drop o).take c)) f (p + c) ((buffer.drop (o + c)).take n) =
      stored d f p ((buffer.drop o).take (c + n)) := by
  rw [List.take_add, List.drop_drop]
  rcases Nat.lt_or_ge (buffer.drop o).length c with hshort | hlong
  · -- the buffer ends inside the first chunk
    have hnil : buffer.drop (o + c) = [] := by
      rw [List.drop_eq_nil_iff]
      rw [List.length_drop] at hshort
      omega
    simp only [hnil, List.take_nil, stored_nil, List.append_nil]
  · have hlen : ((buffer.drop o).take c).length = c := by
      rw [List.length_take]
      omega
    have hin : InRoom d f p (((buffer.drop o).take c).length +
        ((buffer.drop (o + c)).take n).length) := by
      apply inRoom_of_le
      have := List.length_take_le n (buffer.drop (o + c))
      omega
    have happ := stored_append h hf hin
    rw [hlen] at happ
    exact happ

/-! ## The loops -/

/-- The bytes that one round copies. -/
def chunkLen (p n : Nat) : Nat :=
  if BLOCK_SIZE - p % BLOCK_SIZE < n then BLOCK_SIZE - p % BLOCK_SIZE else n

theorem chunkLen_le (p n : Nat) : chunkLen p n ≤ n ∧ p % BLOCK_SIZE + chunkLen p n ≤ BLOCK_SIZE := by
  unfold chunkLen BLOCK_SIZE
  split <;> omega

/-- After a round that is not the last one the position is the start of the next block. -/
theorem chunkLen_next {p n : Nat} (h : n - chunkLen p n ≠ 0) :
    (p + chunkLen p n) / BLOCK_SIZE = p / BLOCK_SIZE + 1 ∧ (p + chunkLen p n) % BLOCK_SIZE = 0 ∧
      0 < chunkLen p n := by
  unfold chunkLen BLOCK_SIZE at *
  split at h <;> [skip; omega]
  rw [if_pos ‹_›]
  omega

theorem chunkLen_block_start {p n : Nat} (h : p % BLOCK_SIZE = 0) :
    chunkLen p n = if BLOCK_SIZE < n then BLOCK_SIZE else n := by
  unfold chunkLen
  rw [h, Nat.sub_zero]

theorem writeLoop_done (f : Nat) (buffer : List UInt8) (rounds : Nat) (d : Disk) (b off t o : Nat) :
    writeLoop f buffer rounds d b off t o 0 = ⟨d, 0, false⟩ := by
  cases rounds <;> rfl

/-- One round of the loop of `tfs_write` stores its chunk at position `p`. -/
theorem writeLoop_round {d : Disk} {f p n rounds o : Nat} {buffer : List UInt8} (h : DiskInv d)
    (hf : FileInode d f) (hn : n ≠ 0) (hb : p / BLOCK_SIZE < (d.inode_table f).blocksAlloc) :
    writeLoop f buffer (rounds + 1) d (p / BLOCK_SIZE + 1) (p % BLOCK_SIZE) (chunkLen p n) o n =
      writeLoop f buffer rounds (stored d f p ((buffer.drop o).take (chunkLen p n)))
        (p / BLOCK_SIZE + 1 + 1) 0
        (if BLOCK_SIZE < n - chunkLen p n then BLOCK_SIZE else n - chunkLen p n)
        (o + chunkLen p n) (n - chunkLen p n) := by
  have hchunk : p % BLOCK_SIZE + ((buffer.drop o).take (chunkLen p n)).length ≤ BLOCK_SIZE := by
    have := (chunkLen_le p n).2
    have := List.length_take_le (chunkLen p n) (buffer.drop o)
    omega
  have hstore := @fileStore_chunk BLOCK_SIZE (blocksOf d f) d.fs_data p _ hchunk
  unfold stored
  rw [hstore]
  simp only [writeLoop, hn, if_false, getNthDataBlock_mapped h hf hb]
  rfl

/-- The loop of `tfs_write` from position `p` of the file and place `o` of the buffer on. -/
theorem writeLoop_eq {d : Disk} {f : Nat} (buffer : List UInt8) (rounds p n o : Nat)
    (h : DiskInv d) (hf : FileInode d f) (hr : n ≤ rounds) :
    writeLoop f buffer rounds d (p / BLOCK_SIZE + 1) (p % BLOCK_SIZE) (chunkLen p n) o n =
      ⟨stored d f p ((buffer.drop o).take (min n (room d f - p))), n - min n (room d f - p),
        decide (room d f - p < n ∧ MAX_FILE_SIZE ≤ p + (room d f - p))⟩ := by
  induction rounds generalizing d p n o with
  | zero =>
    obtain rfl : n = 0 := by omega
    simp [writeLoop]
  | succ rounds ih =>
    by_cases hn : n = 0
    · subst hn
      simp [writeLoop_done]
    by_cases hb : p / BLOCK_SIZE < (d.inode_table f).blocksAlloc
    · rw [writeLoop_round h hf hn hb]
      obtain ⟨hc1, hc2⟩ := chunkLen_le p n
      have hroom : p + chunkLen p n ≤ room d f := by
        unfold room BLOCK_SIZE at *
        omega
      have hchunk := List.length_take_le (chunkLen p n) (buffer.drop o)
      have hinv := h.stored hf (inRoom_of_le (d := d) (f := f) (p := p)
        (n := ((buffer.drop o).take (chunkLen p n)).length) (by omega))
      by_cases hlast : n - chunkLen p n = 0
      · -- the last chunk
        have hfull : chunkLen p n = n := by omega
        rw [hlast, writeLoop_done, hfull, Nat.min_eq_left (by omega), Nat.sub_self]
        congr 1
        exact (decide_eq_false (by omega)).symm
      · obtain ⟨hdiv, hmod, hpos⟩ := chunkLen_next hlast
        have hrest := ih (p + chunkLen p n) (n - chunkLen p n) (o + chunkLen p n) hinv hf (by omega)
        rw [chunkLen_block_start hmod, hdiv, hmod] at hrest
        rw [hrest]
        have hsame : room (stored d f p ((buffer.drop o).take (chunkLen p n))) f = room d f := rfl
        have hk : min n (room d f - p) =
            chunkLen p n + min (n - chunkLen p n) (room d f - (p + chunkLen p n)) := by omega
        have hbytes := @stored_chunks d f p o (chunkLen p n)
          (min (n - chunkLen p n) (room d f - (p + chunkLen p n))) buffer h hf (by omega)
        rw [← hk] at hbytes
        rw [hsame, hbytes]
        congr 1
        · omega
        · exact decide_eq_decide.mpr (by omega)
    · -- behind the last block
      have hroom : room d f - p = 0 := by
        unfold room BLOCK_SIZE at *
        omega
      simp only [writeLoop, hn, if_false, getNthDataBlock_beyond (Nat.le_of_not_lt hb), hroom,
        Nat.min_zero, List.take_zero, stored_nil, Nat.sub_zero, Nat.add_zero]
      by_cases hmax : p / BLOCK_SIZE < MAX_INODE_BLOCKS
      · simp only [hmax, decide_true]
        congr 1
        refine (decide_eq_false ?_).symm
        simp only [MAX_INODE_BLOCKS, BLOCK_SIZE, MAX_FILE_SIZE] at *
        omega
      · simp only [hmax, decide_false]
        congr 1
        refine (decide_eq_true ?_).symm
        simp only [MAX_INODE_BLOCKS, BLOCK_SIZE, MAX_FILE_SIZE] at *
        omega

/-- The loop of `tfs_read` from position `p` of the file on. -/
theorem readLoop_eq {d : Disk} {f : Nat} (rounds p n : Nat) (h : DiskInv d) (hf : FileInode d f)
    (hr : n ≤ rounds) :
    readLoop d f rounds (p / BLOCK_SIZE + 1) (p % BLOCK_SIZE) (chunkLen p n) n =
      ⟨fileLoad BLOCK_SIZE (blocksOf d f) d.fs_data p (min n (room d f - p)),
        n - min n (room d f - p), decide (room d f - p < n)⟩ := by
  induction rounds generalizing p n with
  | zero =>
    obtain rfl : n = 0 := by omega
    simp [readLoop]
  | succ rounds ih =>
    by_cases hn : n = 0
    · subst hn
      simp [readLoop]
    by_cases hb : p / BLOCK_SIZE < (d.inode_table f).blocksAlloc
    · obtain ⟨hc1, hc2⟩ := chunkLen_le p n
      have hroom : p + chunkLen p n ≤ room d f := by
        unfold room BLOCK_SIZE at *
        omega
      have hload := @fileLoad_chunk BLOCK_SIZE (blocksOf d f) d.fs_data p _ hc2
      simp only [readLoop, hn, if_false, getNthDataBlock_mapped h hf hb]
      rw [show load d.fs_data (blocksOf d f (p / BLOCK_SIZE) * BLOCK_SIZE + p % BLOCK_SIZE)
        (chunkLen p n) = _ from hload.symm]
      by_cases hlast : n - chunkLen p n = 0
      · have hfull : chunkLen p n = n := by omega
        have hdone : ∀ b off t, readLoop d f rounds b off t 0 = ⟨[], 0, false⟩ := by
          intro b off t
          cases rounds <;> rfl
        rw [hlast, hdone, hfull, Nat.min_eq_left (by omega), Nat.sub_self, List.append_nil]
        congr 1
        exact (decide_eq_false (by omega)).symm
      · obtain ⟨hdiv, hmod, hpos⟩ := chunkLen_next hlast
        have hrest := ih (p + chunkLen p n) (n - chunkLen p n) (by omega)
        rw [chunkLen_block_start hmod, hdiv, hmod] at hrest
        have hk : min n (room d f - p) =
            chunkLen p n + min (n - chunkLen p n) (room d f - (p + chunkLen p n)) := by omega
        rw [hrest, hk, fileLoad_append]
        congr 1
        · simp only
          omega
        · exact decide_eq_decide.mpr (by omega)
    · have hroom : room d f - p = 0 := by
        unfold room BLOCK_SIZE at *
        omega
      have hpos : 0 < n := Nat.pos_of_ne_zero hn
      simp only [readLoop, hn, if_false, getNthDataBlock_beyond (Nat.le_of_not_lt hb), hroom,
        Nat.min_zero, fileLoad_zero, Nat.sub_zero, hpos, decide_true]
      cases decide (p / BLOCK_SIZE < MAX_INODE_BLOCKS) <;> rfl

/-! ## The critical sections -/

/-- The offset that a write starts at. -/
def offsetAt (d : Disk) (file : OpenFileEntry) (f : Nat) : Nat :=
  if file.isAppending then (d.inode_table f).i_size else file.of_offset

/-- `sizeNeeded` of `tfs_write`. The sum wraps. -/
def sizeNeeded (len o : Nat) : Nat :=
  if sizeT ((len : Int) + o) > MAX_FILE_SIZE then MAX_FILE_SIZE else sizeT ((len : Int) + o)

/-- What `tfs_write` sets out to write. The difference wraps. -/
def saveToWrite (len o : Nat) : Nat := sizeT ((sizeNeeded len o : Int) - o)

/-- The disk once the blocks for a write are there. -/
def grownFor (d : Disk) (f len o : Nat) : Disk := (allocNecessaryBlocks d f (sizeNeeded len o)).2

/-- What a write copies: as much as the blocks of the file hold. -/
def copied (d : Disk) (f len o : Nat) : Nat := min (saveToWrite len o) (room (grownFor d f len o) f - o)

/-- `if (inode->i_size < n) inode->i_size = n`. -/
def sizeSet (d : Disk) (f n : Nat) : Disk :=
  d.modInode f fun i => if i.i_size < n then { i with i_size := n } else i

/-- A write that ran behind the last block that a file can have. -/
def RanOut (d : Disk) (f len o : Nat) : Prop :=
  room (grownFor d f len o) f - o < saveToWrite len o ∧
    MAX_FILE_SIZE ≤ o + (room (grownFor d f len o) f - o)

instance (d : Disk) (f len o : Nat) : Decidable (RanOut d f len o) :=
  inferInstanceAs (Decidable (_ ∧ _))

theorem sizeNeeded_le (len o : Nat) : sizeNeeded len o ≤ MAX_FILE_SIZE := by
  unfold sizeNeeded
  split <;> omega

/-- Without a wrap a write wants what it was asked for, cut at the size of the largest file. -/
theorem saveToWrite_eq {len o : Nat} (hlen : len + o < 2 ^ 64) (ho : o ≤ MAX_FILE_SIZE) :
    saveToWrite len o = min len (MAX_FILE_SIZE - o) := by
  have hsum : sizeT ((len : Int) + o) = len + o := by exact_mod_cast sizeT_nat hlen
  unfold saveToWrite sizeNeeded
  rw [hsum]
  unfold MAX_FILE_SIZE at *
  split
  · rw [sizeT_sub (by omega) (by omega)]
    omega
  · rw [sizeT_sub (by omega) (by omega)]
    omega

theorem grownFor_spec {d : Disk} {f : Nat} (h : DiskInv d) (hf : FileInode d f) (len o : Nat) :
    DiskInv (grownFor d f len o) ∧ Grown f d (grownFor d f len o) :=
  ⟨(allocNecessaryBlocks_spec h hf (sizeNeeded_le len o)).2.1,
    (allocNecessaryBlocks_spec h hf (sizeNeeded_le len o)).2.2.1⟩

theorem copied_le {d : Disk} {f : Nat} (h : DiskInv d) (hf : FileInode d f) (len o : Nat) :
    copied d f len o ≤ MAX_FILE_SIZE := by
  obtain ⟨h1, hg⟩ := grownFor_spec h hf len o
  have := h1.room_le ((hg.fileInode f).mpr hf)
  unfold copied
  omega

/-- No more is copied than the buffer holds. -/
theorem copied_le_length {d : Disk} {f o : Nat} (h : DiskInv d) (hf : FileInode d f) (len : Nat)
    (ho : o ≤ MAX_FILE_SIZE) : copied d f len o ≤ len := by
  have hk := copied_le h hf len o
  by_cases hlen : len < MAX_FILE_SIZE
  · have hsave := saveToWrite_eq (show len + o < 2 ^ 64 by simp only [MAX_FILE_SIZE] at *; omega) ho
    unfold copied at *
    omega
  · omega

theorem block_start (o : Nat) :
    divCeilRW o BLOCK_SIZE = o / BLOCK_SIZE + 1 ∧
      o - (o / BLOCK_SIZE + 1 - 1) * BLOCK_SIZE = o % BLOCK_SIZE := by
  unfold divCeilRW BLOCK_SIZE
  exact ⟨rfl, by omega⟩

/-- `writeCritical` in the names of this file. -/
theorem writeCritical_offsetAt (d : Disk) (file : OpenFileEntry) (f : Nat) (buffer : List UInt8) :
    writeCritical d file f buffer =
      let o := offsetAt d file f
      let file := { file with of_offset := o }
      let n := saveToWrite buffer.length o
      if 0 < n then
        let a := allocNecessaryBlocks d f (sizeNeeded buffer.length o)
        if a.1 = -1 then (-1, a.2, file)
        else
          let blockWriting := divCeilRW o BLOCK_SIZE
          let blockOffset := o - (blockWriting - 1) * BLOCK_SIZE
          let toWriteInBlock := if BLOCK_SIZE - blockOffset < n then BLOCK_SIZE - blockOffset else n
          let w := writeLoop f buffer n a.2 blockWriting blockOffset toWriteInBlock 0 n
          if w.null then (-1, w.disk, file)
          else (ssizeT (n - w.to_write), sizeSet w.disk f (o + (n - w.to_write)),
            { file with of_offset := o + (n - w.to_write) })
      else (ssizeT 0, d, file) := by
  have hfile : (if file.isAppending = true then
      { file with of_offset := (d.inode_table f).i_size } else file) =
      { file with of_offset := offsetAt d file f } := by
    unfold offsetAt
    split <;> rfl
  unfold writeCritical
  simp only [hfile]
  rfl

theorem writeCritical_eq {d : Disk} {f : Nat} (h : DiskInv d) (hf : FileInode d f)
    (file : OpenFileEntry) (buffer : List UInt8) :
    writeCritical d file f buffer =
      let o := offsetAt d file f
      let k := copied d f buffer.length o
      let d' := stored (grownFor d f buffer.length o) f o (buffer.take k)
      if saveToWrite buffer.length o = 0 then (0, d, { file with of_offset := o })
      else if RanOut d f buffer.length o then (-1, d', { file with of_offset := o })
      else ((k : Int), sizeSet d' f (o + k), { file with of_offset := o + k }) := by
  rw [writeCritical_offsetAt]
  generalize hlen : buffer.length = len
  generalize ho : offsetAt d file f = o
  obtain ⟨hinv, hg⟩ := grownFor_spec h hf len o
  have hf' := (hg.fileInode f).mpr hf
  have halloc : allocNecessaryBlocks d f (sizeNeeded len o) = (0, grownFor d f len o) :=
    Prod.ext (allocNecessaryBlocks_spec h hf (sizeNeeded_le len o)).1 rfl
  have hloop := writeLoop_eq buffer (saveToWrite len o) o (saveToWrite len o) 0 hinv hf' le_rfl
  have hk := copied_le h hf len o
  unfold chunkLen at hloop
  simp only [halloc, (block_start o).1, (block_start o).2, hloop,
    List.drop_zero]
  by_cases hn : saveToWrite len o = 0
  · simp [hn, ssizeT]
  · have hsub : saveToWrite len o -
        (saveToWrite len o - min (saveToWrite len o) (room (grownFor d f len o) f - o)) =
        copied d f len o := by
      unfold copied
      omega
    have hss : ssizeT (copied d f len o) = copied d f len o :=
      ssizeT_of_lt (by simp only [MAX_FILE_SIZE] at hk; omega)
    simp only [Nat.pos_of_ne_zero hn, if_true, hn, if_false, zero_ne_neg_one,
      decide_eq_true_eq, hsub, hss]
    rfl

/-- What `tfs_read` sets out to read. The difference wraps. -/
def toReadSave (d : Disk) (f o len : Nat) : Nat :=
  if sizeT (((d.inode_table f).i_size : Int) - o) > len then len
  else sizeT (((d.inode_table f).i_size : Int) - o)

theorem readCritical_eq {d : Disk} {f : Nat} (h : DiskInv d) (hf : FileInode d f)
    (file : OpenFileEntry) (len : Nat) :
    readCritical d file f len =
      let o := file.of_offset
      let n := toReadSave d f o len
      let bytes := fileLoad BLOCK_SIZE (blocksOf d f) d.fs_data o (min n (room d f - o))
      if room d f - o < n then ((-1, bytes), file)
      else (((n : Int), bytes), { file with of_offset := o + n }) := by
  have hroom := h.room_le hf
  have hloop := readLoop_eq (toReadSave d f file.of_offset len) file.of_offset
    (toReadSave d f file.of_offset len) h hf le_rfl
  unfold toReadSave chunkLen at hloop
  unfold readCritical toReadSave
  simp only [(block_start _).1, (block_start _).2, hloop]
  generalize (if sizeT (((d.inode_table f).i_size : Int) - file.of_offset) > len then len
    else sizeT (((d.inode_table f).i_size : Int) - file.of_offset)) = n
  by_cases hn : n = 0
  · subst hn
    simp [ssizeT]
  · simp only [Nat.pos_of_ne_zero hn, if_true, decide_eq_true_eq]
    split
    · rfl
    · have hall : n - (n - min n (room d f - file.of_offset)) = n := by omega
      have hss : ssizeT n = n := ssizeT_of_lt (by simp only [MAX_FILE_SIZE] at hroom; omega)
      rw [hall, hss]

end tecnicofs.parte1
