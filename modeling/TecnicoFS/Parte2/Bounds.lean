-- The bounds of reads and writes on the server: which bytes they touch, and
-- the relation between offsets and sizes that keeps them in one block.
import TecnicoFS.Parte2.Creation

open byte_memory ownership

namespace tecnicofs.parte2

/-! ## How many bytes -/

theorem bytesToRead_eq {i_size of_offset : Nat} (len : Nat) (ho : of_offset ≤ i_size)
    (hs : i_size ≤ BLOCK_SIZE) : bytesToRead i_size of_offset len = min len (i_size - of_offset) := by
  unfold BLOCK_SIZE at hs
  unfold bytesToRead
  rw [sizeT_sub ho (by omega)]
  split <;> omega

theorem bytesToWrite_eq {of_offset len : Nat} (ho : of_offset ≤ BLOCK_SIZE) (hl : len < 2 ^ 63) :
    bytesToWrite of_offset len = min len (BLOCK_SIZE - of_offset) := by
  have hsum : sizeT ((len : Int) + of_offset) = len + of_offset := by
    unfold BLOCK_SIZE at ho
    unfold sizeT
    omega
  unfold bytesToWrite
  rw [sizeT_sub ho (by decide), hsum]
  split <;> omega

/-! ## The block for a write -/

theorem dataBlockAlloc_cases (d : Disk) :
    dataBlockAlloc d = (-1, d) ∨ ∃ b < DATA_BLOCKS, d.free_blocks b = .FREE ∧
      dataBlockAlloc d = ((b : Int), d.setFreeBlock b .TAKEN) := by
  unfold dataBlockAlloc
  rcases hf : (List.range DATA_BLOCKS).find? fun i => decide (d.free_blocks i = .FREE) with _ | b
  · exact Or.inl rfl
  · obtain ⟨h1, h2, _⟩ := List.find?_range_eq_some.mp hf
    exact Or.inr ⟨b, List.mem_range.mp h2, by simpa using h1, rfl⟩

/-- The disk in which the block number of the inode is `b`. -/
def withBlock (d : Disk) (f : Nat) (b : Int) : Disk := d.modInode f fun i => { i with i_data_block := b }

theorem withDataBlock_cases (d : Disk) (f : Nat) :
    (0 < (d.inode_table f).i_size ∧ withDataBlock d f = d) ∨
    ((d.inode_table f).i_size = 0 ∧ withDataBlock d f = withBlock d f (-1)) ∨
    ((d.inode_table f).i_size = 0 ∧ ∃ b < DATA_BLOCKS, d.free_blocks b = .FREE ∧
      withDataBlock d f = withBlock (d.setFreeBlock b .TAKEN) f b) := by
  unfold withDataBlock
  by_cases hs : (d.inode_table f).i_size = 0
  · rw [if_pos hs]
    rcases dataBlockAlloc_cases d with ha | ⟨b, hb, hfree, ha⟩
    · exact Or.inr (Or.inl ⟨hs, by simp only [ha]; rfl⟩)
    · exact Or.inr (Or.inr ⟨hs, b, hb, hfree, by simp only [ha]; rfl⟩)
  · rw [if_neg hs]
    exact Or.inl ⟨by omega, rfl⟩

theorem withDataBlock_freeinode (d : Disk) (f : Nat) :
    (withDataBlock d f).freeinode_ts = d.freeinode_ts := by
  rcases withDataBlock_cases d f with ⟨_, he⟩ | ⟨_, he⟩ | ⟨_, b, _, _, he⟩ <;> rw [he] <;> rfl

theorem withDataBlock_data (d : Disk) (f : Nat) : (withDataBlock d f).fs_data = d.fs_data := by
  rcases withDataBlock_cases d f with ⟨_, he⟩ | ⟨_, he⟩ | ⟨_, b, _, _, he⟩ <;> rw [he] <;> rfl

theorem withDataBlock_of_ne (d : Disk) {f g : Nat} (hg : g ≠ f) :
    (withDataBlock d f).inode_table g = d.inode_table g := by
  rcases withDataBlock_cases d f with ⟨_, he⟩ | ⟨_, he⟩ | ⟨_, b, _, _, he⟩ <;> rw [he] <;>
    simp [withBlock, hg]

theorem withDataBlock_size (d : Disk) (f : Nat) :
    ((withDataBlock d f).inode_table f).i_size = (d.inode_table f).i_size := by
  rcases withDataBlock_cases d f with ⟨_, he⟩ | ⟨_, he⟩ | ⟨_, b, _, _, he⟩ <;> rw [he] <;>
    simp [withBlock]

theorem withDataBlock_ownedBlock (d : Disk) {f g : Nat} (hg : g ≠ f) :
    ownedBlock (withDataBlock d f) g = ownedBlock d g :=
  ownedBlock_congr (by rw [withDataBlock_freeinode]) (withDataBlock_of_ne d hg)

/-- When the write has its block, the owners are exact with this block given to the file. -/
theorem DiskInv.withDataBlock_exact {d : Disk} (h : DiskInv d) {f : Nat}
    (ht : d.freeinode_ts f = .TAKEN) {a : Nat}
    (hget : dataBlockGet ((withDataBlock d f).inode_table f).i_data_block = some a) :
    Exact (TakenBlock (withDataBlock d f)) (Function.update (ownedBlock (withDataBlock d f)) f
      (some ((withDataBlock d f).inode_table f).i_data_block)) := by
  rcases withDataBlock_cases d f with ⟨hs, he⟩ | ⟨_, he⟩ | ⟨hs, b, hb, hfree, he⟩
  · rw [he, ← ownedBlock_some ht hs, Function.update_eq_self]
    exact h.exact
  · rw [he] at hget
    simp [withBlock, dataBlockGet, validBlockNumber] at hget
  · have hno : ¬ TakenBlock d (b : Int) := fun hc => by
      have := hc.2
      rw [Int.toNat_natCast, hfree] at this
      cases this
    refine (h.exact.give hno (ownedBlock_none hs)).congr (fun x => ?_) fun g => ?_
    · rw [he]
      simp only [TakenBlock, withBlock, Disk.modInode_free, Disk.setFreeBlock_free]
      by_cases hx : x = b
      · subst hx
        simp only [Int.toNat_natCast, Function.update_self, and_true, or_true, iff_true]
        simp only [validBlockNumber, decide_eq_true_eq]
        omega
      · simp only [hx, or_false]
        apply and_congr_right
        intro hv
        simp only [validBlockNumber, decide_eq_true_eq] at hv
        rw [Function.update_of_ne (by omega)]
    · by_cases hg : g = f
      · subst hg
        rw [Function.update_self, Function.update_self, he]
        simp [withBlock]
      · rw [Function.update_of_ne hg, Function.update_of_ne hg, withDataBlock_ownedBlock d hg]

/-! ## The disk after a write -/

/-- The disk with new bytes, and a size of at least `o` for the file `f`. -/
def grown (d : Disk) (f o : Nat) (fs_data : Memory) : Disk :=
  { d with fs_data }.modInode f fun i => if i.i_size < o then { i with i_size := o } else i

theorem grown_of_ne (d : Disk) {f g : Nat} (hg : g ≠ f) (o : Nat) (m : Memory) :
    (grown d f o m).inode_table g = d.inode_table g := by simp [grown, hg]

theorem grown_size (d : Disk) (f o : Nat) (m : Memory) :
    ((grown d f o m).inode_table f).i_size = max (d.inode_table f).i_size o := by
  simp only [grown, Disk.modInode_self]
  split
  · rename_i hlt
    exact (max_eq_right hlt.le).symm
  · rename_i hge
    exact (max_eq_left (not_lt.mp hge)).symm

theorem grown_block (d : Disk) (f o : Nat) (m : Memory) :
    ((grown d f o m).inode_table f).i_data_block = (d.inode_table f).i_data_block := by
  simp only [grown, Disk.modInode_self]
  split <;> rfl

/-- The bytes of a write are in the block of the file, so the directory stays. -/
theorem DiskInv.grown {d : Disk} (h : DiskInv d) {f : Nat} (hf : FileInode d f) {a o n : Nat}
    (hget : dataBlockGet ((withDataBlock d f).inode_table f).i_data_block = some a)
    {bytes : List UInt8} (hn : bytes.length = n) (h0 : 0 < n) (ho : o + n ≤ BLOCK_SIZE) :
    DiskInv (grown (withDataBlock d f) f (o + n) (store d.fs_data (a + o) bytes)) := by
  have hex := h.withDataBlock_exact hf.2 hget
  have htaken := hex.taken_of_own (Function.update_self f _ _)
  have ha : a = ((withDataBlock d f).inode_table f).i_data_block.toNat * BLOCK_SIZE := by
    rw [dataBlockGet_of_taken htaken] at hget
    exact (Option.some.inj hget).symm
  have hroot_own : ownedBlock (withDataBlock d f) ROOT_DIR_INUM = some (rootBlock d) := by
    rw [withDataBlock_ownedBlock d hf.1.symm]
    exact h.root_owns
  -- the block of the file is not the block of the directory
  have hne : ((withDataBlock d f).inode_table f).i_data_block.toNat ≠ (rootBlock d).toNat := by
    intro he
    have h1 := htaken.bounds
    have h2 := h.root_block_taken.bounds
    have heq : ((withDataBlock d f).inode_table f).i_data_block = rootBlock d := by omega
    exact hf.1 (hex.inj (Function.update_self f _ _)
      (by rw [Function.update_of_ne hf.1.symm, hroot_own, heq]))
  have hfree : ∀ m, (parte2.grown (withDataBlock d f) f (o + n) m).freeinode_ts = d.freeinode_ts :=
    fun m => withDataBlock_freeinode d f
  have hother : ∀ {g} (m : Memory), g ≠ f →
      (parte2.grown (withDataBlock d f) f (o + n) m).inode_table g = d.inode_table g :=
    fun m hg => (grown_of_ne _ hg _ _).trans (withDataBlock_of_ne d hg)
  exact
    { root_taken := by rw [hfree]; exact h.root_taken
      root_dir := by rw [hother _ hf.1.symm]; exact h.root_dir
      root_size := by rw [hother _ hf.1.symm]; exact h.root_size
      taken_lt := by rw [hfree]; exact h.taken_lt
      size_le := by
        intro g hg
        rw [hfree] at hg
        have := h.size_le g hg
        by_cases hgf : g = f
        · subst hgf
          rw [grown_size, withDataBlock_size]
          omega
        · rw [hother _ hgf]
          exact this
      exact := hex.congr (fun _ => Iff.rfl) fun g => by
        by_cases hgf : g = f
        · subst hgf
          rw [Function.update_self, ownedBlock_some (by rw [hfree]; exact hf.2)
            (by rw [grown_size]; omega), grown_block]
        · rw [Function.update_of_ne hgf]
          exact ownedBlock_congr rfl (grown_of_ne _ hgf _ _)
      entry_file := fun _ hi hne' => by
        refine h.entries_of_same _ ?_ ?_ ?_ hi hne'
        · exact congrArg Inode.i_data_block (hother _ hf.1.symm)
        · intro j hj
          apply store_outside _ _ _ _
          unfold rootAddr
          unfold BLOCK_SIZE at *
          omega
        · intro g hg
          exact ⟨hg.1, by rw [hfree]; exact hg.2⟩ }

/-- When the blocks have run out, an empty file gets a block number that is not valid. -/
theorem DiskInv.no_block {d : Disk} (h : DiskInv d) {f : Nat} (hf : FileInode d f)
    (hget : dataBlockGet ((withDataBlock d f).inode_table f).i_data_block = none) :
    DiskInv (withDataBlock d f) := by
  rcases withDataBlock_cases d f with ⟨_, he⟩ | ⟨hs, he⟩ | ⟨_, b, hb, _, he⟩
  · rw [he]
    exact h
  · rw [he]
    have hother : ∀ {g}, g ≠ f → (withBlock d f (-1)).inode_table g = d.inode_table g :=
      fun hg => by simp [withBlock, hg]
    exact
      { root_taken := h.root_taken
        root_dir := by rw [hother hf.1.symm]; exact h.root_dir
        root_size := by rw [hother hf.1.symm]; exact h.root_size
        taken_lt := h.taken_lt
        size_le := by
          intro g hg
          by_cases hgf : g = f
          · subst hgf
            simp [withBlock, hs]
          · rw [hother hgf]
            exact h.size_le g hg
        exact := h.exact.congr (fun _ => Iff.rfl) fun g => by
          by_cases hgf : g = f
          · subst hgf
            rw [ownedBlock_none hs, ownedBlock_none (by simp [withBlock, hs])]
          · exact ownedBlock_congr rfl (hother hgf)
        entry_file := fun _ hi hne =>
          h.entries_of_same (withBlock d f (-1)) (congrArg Inode.i_data_block (hother hf.1.symm))
            (fun _ _ => rfl) (fun _ hg => hg) hi hne }
  · rw [he] at hget
    simp only [withBlock, Disk.modInode_self, dataBlockGet] at hget
    rw [if_pos (by simp only [validBlockNumber, decide_eq_true_eq]; omega)] at hget
    cases hget

/-! ## Offsets and sizes -/

/-- Each open handle is on a file, and its offset is not behind the end of the file. -/
structure Inv (s : State) : Prop where
  disk : DiskInv s.disk
  handle : ∀ i < MAX_OPEN_FILES, s.free_open_file_entries i = .TAKEN →
    ∃ f : Nat, (s.open_file_table i).of_inumber = f ∧ FileInode s.disk f ∧
      (s.open_file_table i).of_offset ≤ (s.disk.inode_table f).i_size
  no_shutdown : 0 ≤ s.openFiles

/-- `n` bytes at `offset` are in the block of the inode, which is taken and nobody else's. -/
structure CopyInBlock (d : Disk) (f offset n : Nat) : Prop where
  taken : TakenBlock d (d.inode_table f).i_data_block
  inside : offset + n ≤ BLOCK_SIZE
  alone : ∀ g ≠ f, ownedBlock d g ≠ some (d.inode_table f).i_data_block

/-- What the next read and the next write through the entry `file` rely on, for any length of a
real buffer. -/
structure InBounds (d : Disk) (file : OpenFileEntry) (f : Nat) : Prop where
  inode : inodeGet file.of_inumber = some f
  read_no_wrap : file.of_offset ≤ (d.inode_table f).i_size
  write_no_wrap : file.of_offset ≤ BLOCK_SIZE
  read_copy : ∀ len < 2 ^ 63, 0 < bytesToRead (d.inode_table f).i_size file.of_offset len →
    CopyInBlock d f file.of_offset (bytesToRead (d.inode_table f).i_size file.of_offset len)
  write_copy : ∀ len < 2 ^ 63, 0 < bytesToWrite file.of_offset len →
    dataBlockGet ((withDataBlock d f).inode_table f).i_data_block ≠ none →
    bytesToWrite file.of_offset len ≤ len ∧
      CopyInBlock (withDataBlock d f) f file.of_offset (bytesToWrite file.of_offset len)

/-- Every open handle is in bounds. -/
def AllInBounds (s : State) : Prop :=
  ∀ i < MAX_OPEN_FILES, s.free_open_file_entries i = .TAKEN →
    ∃ f, InBounds s.disk (s.open_file_table i) f

theorem Inv.allInBounds {s : State} (h : Inv s) : AllInBounds s := by
  intro i hi ht
  obtain ⟨f, hnum, hf, ho⟩ := h.handle i hi ht
  have hsize := h.disk.size_le f hf.2
  refine ⟨f, by rw [hnum]; exact h.disk.inodeGet hf.2, ho, ho.trans hsize, ?_, ?_⟩
  · intro len _ hpos
    rw [bytesToRead_eq len ho hsize] at hpos ⊢
    have hs : 0 < (s.disk.inode_table f).i_size := by omega
    exact ⟨h.disk.block_taken hf.2 hs, by omega, fun g hg => h.disk.block_alone hf.2 hs hg⟩
  · intro len hlen hpos hget
    rw [bytesToWrite_eq (ho.trans hsize) hlen] at hpos ⊢
    obtain ⟨a, ha⟩ := Option.ne_none_iff_exists'.mp hget
    have hex := h.disk.withDataBlock_exact hf.2 ha
    have hself := Function.update_self f (some ((withDataBlock s.disk f).inode_table f).i_data_block)
      (ownedBlock (withDataBlock s.disk f))
    refine ⟨by omega, hex.taken_of_own hself, by omega, fun g hg ho' => hg ?_⟩
    exact hex.inj (by rw [Function.update_of_ne hg]; exact ho') hself

/-! ## The steps -/

/-- The calls of the runs: `tfs_open` with any flags, `tfs_close`, and reads and writes through
handles that are open, with buffers that fit in memory. -/
def OnOpenHandles (s : State) : Op → Prop
  | .tfsRead fhandle len => OpenHandle s fhandle ∧ len < 2 ^ 63
  | .tfsWrite fhandle buffer => OpenHandle s fhandle ∧ buffer.length < 2 ^ 63
  | .tfsDestroyAfterAllClosed => False
  | _ => True

/-- The call truncates a file that is not empty while an open handle on it has an offset above
zero. -/
def TruncatesUnderOffset (s : State) : Op → Prop
  | .tfsOpen name flags => hasFlag flags TFS_O_TRUNC = true ∧
      ∃ f : Nat, tfsLookupUnsynchronized s.disk name = f ∧ 0 < (s.disk.inode_table f).i_size ∧
        ∃ i < MAX_OPEN_FILES, s.free_open_file_entries i = .TAKEN ∧
          (s.open_file_table i).of_inumber = f ∧ 0 < (s.open_file_table i).of_offset
  | _ => False

instance (s : State) : (op : Op) → Decidable (OnOpenHandles s op)
  | .tfsRead fhandle _ => inferInstanceAs (Decidable (OpenHandle s fhandle ∧ _ < _))
  | .tfsWrite fhandle _ => inferInstanceAs (Decidable (OpenHandle s fhandle ∧ _ < _))
  | .tfsDestroyAfterAllClosed => inferInstanceAs (Decidable False)
  | .tfsLookup _ | .tfsOpen _ _ | .tfsClose _ => inferInstanceAs (Decidable True)

instance (s : State) : (op : Op) → Decidable (TruncatesUnderOffset s op)
  | .tfsOpen name flags =>
    decidable_of_iff (hasFlag flags TFS_O_TRUNC = true ∧
      ∃ f ∈ (tfsLookupUnsynchronized s.disk name).toNat?, 0 < (s.disk.inode_table f).i_size ∧
        ∃ i < MAX_OPEN_FILES, s.free_open_file_entries i = .TAKEN ∧
          (s.open_file_table i).of_inumber = f ∧ 0 < (s.open_file_table i).of_offset)
      (and_congr_right fun _ => exists_congr fun _ => and_congr_left fun _ => Int.mem_toNat?)
  | .tfsLookup _ | .tfsClose _ | .tfsRead _ _ | .tfsWrite _ _ | .tfsDestroyAfterAllClosed =>
    inferInstanceAs (Decidable False)

/-- The invariant for another disk, in which files stay files and no file with an open handle
shrinks below its offset. -/
theorem Inv.setDisk {s : State} (h : Inv s) {d : Disk} (hd : DiskInv d)
    (hf : ∀ f, FileInode s.disk f → FileInode d f)
    (hsize : ∀ i < MAX_OPEN_FILES, s.free_open_file_entries i = .TAKEN → ∀ f : Nat,
      (s.open_file_table i).of_inumber = f → FileInode s.disk f →
      (s.open_file_table i).of_offset ≤ (d.inode_table f).i_size) : Inv { s with disk := d } where
  disk := hd
  handle := fun i hi ht => by
    obtain ⟨f, hnum, hfile, _⟩ := h.handle i hi ht
    exact ⟨f, hnum, hf f hfile, hsize i hi ht f hnum hfile⟩
  no_shutdown := h.no_shutdown

theorem Inv.withHandle {s : State} (h : Inv s) {f offset : Nat} (hf : FileInode s.disk f)
    (ho : offset ≤ (s.disk.inode_table f).i_size) (i : Nat) :
    Inv (withHandle s i ⟨f, offset⟩) where
  disk := h.disk
  handle := fun j hj ht => by
    by_cases hji : j = i
    · subst hji
      exact ⟨f, by simp [parte2.withHandle], hf, by simpa [parte2.withHandle] using ho⟩
    · simp only [parte2.withHandle, Function.update_of_ne hji] at ht ⊢
      exact h.handle j hj ht
  no_shutdown := h.no_shutdown

/-- The offset of slot `i` moves on, on a disk where its file has at least that size. -/
theorem Inv.moveOffset {s : State} (h : Inv s) {d : Disk} (hd : DiskInv d) {i f o : Nat}
    (hnum : (s.open_file_table i).of_inumber = f) (hf : ∀ g, FileInode s.disk g → FileInode d g)
    (hsize : ∀ g, (s.disk.inode_table g).i_size ≤ (d.inode_table g).i_size)
    (ho : o ≤ (d.inode_table f).i_size) :
    Inv { s with
      disk := d
      open_file_table := Function.update s.open_file_table i ⟨f, o⟩ } where
  disk := hd
  handle := fun j hj ht => by
    obtain ⟨g, hg, hfile, hog⟩ := h.handle j hj ht
    by_cases hji : j = i
    · subst hji
      have hfg : f = g := by
        rw [hnum] at hg
        exact_mod_cast hg
      subst hfg
      exact ⟨f, by simp, hf f hfile, by simpa using ho⟩
    · simp only [Function.update_of_ne hji]
      exact ⟨g, hg, hf g hfile, hog.trans (hsize g)⟩
  no_shutdown := h.no_shutdown

theorem afterTrunc_fileInode (d : Disk) (flags : BitVec 32) (f g : Nat) :
    FileInode (afterTrunc d flags f) g ↔ FileInode d g := by
  unfold afterTrunc
  split
  · exact truncated_fileInode d f g
  · rfl

theorem Inv.afterTrunc {s : State} (h : Inv s) {flags : BitVec 32} {f : Nat}
    (hf : FileInode s.disk f)
    (hok : hasFlag flags TFS_O_TRUNC = true → ∀ i < MAX_OPEN_FILES,
      s.free_open_file_entries i = .TAKEN → (s.open_file_table i).of_inumber = f →
      (s.open_file_table i).of_offset = 0) :
    Inv { s with disk := afterTrunc s.disk flags f } := by
  have hkeep := afterTrunc_fileInode s.disk flags f
  unfold parte2.afterTrunc at *
  split
  · rename_i ht
    refine h.setDisk (h.disk.truncated hf) (fun g => (truncated_fileInode s.disk f g).mpr) ?_
    intro i hi htaken g hnum hg
    by_cases hgf : g = f
    · subst hgf
      rw [hok ht i hi htaken hnum]
      exact Nat.zero_le _
    · rw [truncated_of_ne s.disk hgf]
      obtain ⟨g', hnum', _, ho⟩ := h.handle i hi htaken
      rw [hnum] at hnum'
      have hgg : g = g' := by exact_mod_cast hnum'
      exact hgg ▸ ho
  · exact h

theorem Inv.addToOpenFileTable {s : State} (h : Inv s) {f offset : Nat} (hf : FileInode s.disk f)
    (ho : offset ≤ (s.disk.inode_table f).i_size) : Inv (addToOpenFileTable s f offset).2 := by
  rcases addToOpenFileTable_cases s f offset with he | ⟨i, _, _, he⟩ <;> rw [he]
  · exact h
  · exact h.withHandle hf ho i

theorem initialOffset_le (d : Disk) (flags : BitVec 32) (f : Nat) :
    initialOffset d flags f ≤ (d.inode_table f).i_size := by
  unfold initialOffset
  split
  · exact le_refl _
  · exact Nat.zero_le _

/-- A file that nobody has open yet. -/
theorem Inv.setDisk_other {s : State} (h : Inv s) {d : Disk} {i : Nat} (hd : DiskInv d)
    (hi : FreeInode s.disk i) (hf : ∀ f, FileInode s.disk f → FileInode d f)
    (hsame : ∀ f ≠ i, d.inode_table f = s.disk.inode_table f) : Inv { s with disk := d } := by
  apply h.setDisk hd hf
  intro j hj ht g hnum hg
  rw [hsame g (hi.ne hg.2)]
  obtain ⟨g', hnum', _, ho⟩ := h.handle j hj ht
  rw [hnum] at hnum'
  have hgg : g = g' := by exact_mod_cast hnum'
  exact hgg ▸ ho

theorem Inv.openFiles {s : State} (h : Inv s) {n : Int} (hn : 0 ≤ n) :
    Inv { s with openFiles := n } := ⟨h.disk, h.handle, hn⟩

theorem Inv.tfsOpenUnsynchronized {s : State} (h : Inv s) {name : Option CString}
    {flags : BitVec 32} (hok : ¬ TruncatesUnderOffset s (.tfsOpen name flags)) {r : Int × State}
    (hr : tfsOpenUnsynchronized s name flags = some r) : Inv r.2 := by
  rcases tfsOpenUnsynchronized_ends h.disk hr with ⟨_, rfl⟩ | ⟨i, hi, _, rfl⟩ |
    ⟨f, hl, hf, rfl⟩ | ⟨i, hi, _, j, hj, sub_name, rfl⟩
  · exact h
  · exact h.setDisk_other (h.disk.undone hi) hi (fun _ => undone_fileInode hi)
      fun f hne => freshFile_of_ne s.disk hne
  · have hinv : Inv { s with disk := parte2.afterTrunc s.disk flags f } := by
      apply h.afterTrunc hf
      intro ht i hi htaken hnum
      by_contra hne
      obtain ⟨g, hnum', _, ho⟩ := h.handle i hi htaken
      rw [hnum] at hnum'
      have hgf : f = g := by exact_mod_cast hnum'
      subst hgf
      exact hok ⟨ht, f, hl, by omega, i, hi, htaken, hnum, by omega⟩
    exact hinv.addToOpenFileTable ((afterTrunc_fileInode s.disk flags f f).mpr hf)
      (initialOffset_le _ flags f)
  · have hfresh := h.disk.freshFile hi
    have hfile : FileInode (freshFile s.disk i) i :=
      ⟨(hi.ne h.disk.root_taken).symm, by simp [freshFile_freeinode]⟩
    have hinv : Inv { s with disk := createdFile s.disk i j sub_name } :=
      h.setDisk_other (hfresh.filled hfile hj sub_name) hi (fun _ => freshFile_fileInode hi)
        fun f hne => freshFile_of_ne s.disk hne
    exact hinv.addToOpenFileTable hfile (Nat.zero_le _)

theorem Inv.tfsClose {s : State} (h : Inv s) (fhandle : Int) : Inv (tfsClose s fhandle).2 := by
  have h0 := h.no_shutdown
  rcases tfsClose_cases s fhandle with ⟨_, he⟩ | ⟨i, _, _, _, he⟩ <;> rw [he]
  · exact h
  · have hinv : Inv (withoutHandle s i) :=
      ⟨h.disk, fun j hj ht => by
        by_cases hji : j = i
        · subst hji
          simp [withoutHandle] at ht
        · exact h.handle j hj (by simpa [withoutHandle, Function.update_of_ne hji] using ht), h0⟩
    exact hinv.openFiles (by split <;> omega)

/-- An open handle of the invariant, as the reads and writes see it. -/
theorem Inv.openHandle {s : State} (h : Inv s) {fhandle : Int} (ho : OpenHandle s fhandle) :
    ∃ i f : Nat, getOpenFileEntry fhandle = some i ∧
      (s.open_file_table i).of_inumber = f ∧ inodeGet f = some f ∧ FileInode s.disk f ∧
      (s.open_file_table i).of_offset ≤ (s.disk.inode_table f).i_size := by
  obtain ⟨hv, ht⟩ := ho
  have hr := validFileHandle_eq_true.mp hv
  obtain ⟨f, hnum, hf, hoff⟩ := h.handle fhandle.toNat (by omega) ht
  exact ⟨fhandle.toNat, f, by simp [getOpenFileEntry, hv], hnum, h.disk.inodeGet hf.2, hf, hoff⟩

theorem Inv.tfsRead {s : State} (h : Inv s) {fhandle : Int} (ho : OpenHandle s fhandle) {len : Nat}
    {r : Answer × State} (hr : tfsRead s fhandle len = some r) : Inv r.2 := by
  obtain ⟨i, f, hi, hnum, hget, hf, hoff⟩ := h.openHandle ho
  have hsize := h.disk.size_le f hf.2
  obtain ⟨q, hq, rfl⟩ := Option.map_eq_some_iff.mp hr
  unfold tfsReadUnsynchronized at hq
  simp only [hi, hnum, hget, bytesToRead_eq len hoff hsize] at hq
  split at hq
  · split at hq
    · cases hq
      exact h
    · obtain ⟨bytes, _, rfl⟩ := Option.map_eq_some_iff.mp hq
      exact h.moveOffset h.disk hnum (fun _ hg => hg) (fun _ => le_refl _) (by omega)
  · cases hq
    exact h

theorem Inv.tfsWrite {s : State} (h : Inv s) {fhandle : Int} (ho : OpenHandle s fhandle)
    {buffer : List UInt8} (hl : buffer.length < 2 ^ 63) {r : Answer × State}
    (hr : tfsWrite s fhandle buffer = some r) : Inv r.2 := by
  obtain ⟨i, f, hi, hnum, hget, hf, hoff⟩ := h.openHandle ho
  have hsize := h.disk.size_le f hf.2
  obtain ⟨q, hq, rfl⟩ := Option.map_eq_some_iff.mp hr
  unfold tfsWriteUnsynchronized at hq
  simp only [hi, hnum, hget, bytesToWrite_eq (hoff.trans hsize) hl] at hq
  have hkeep : ∀ g, FileInode s.disk g → FileInode (withDataBlock s.disk f) g := fun g hg =>
    ⟨hg.1, by rw [withDataBlock_freeinode]; exact hg.2⟩
  split at hq
  · rename_i hpos
    rcases hblock : dataBlockGet ((withDataBlock s.disk f).inode_table f).i_data_block with _ | a
    · rw [hblock] at hq
      cases hq
      apply h.setDisk (h.disk.no_block hf hblock) hkeep
      intro j hj ht g hg _
      obtain ⟨g', hg', _, ho'⟩ := h.handle j hj ht
      rw [hg] at hg'
      have hgg : g = g' := by exact_mod_cast hg'
      subst hgg
      by_cases hgf : g = f
      · subst hgf
        rwa [withDataBlock_size]
      · rwa [withDataBlock_of_ne s.disk hgf]
    · rw [hblock] at hq
      obtain ⟨m, hm, rfl⟩ := Option.map_eq_some_iff.mp hq
      unfold memcpyIn at hm
      split at hm
      · rename_i hcopy
        cases hm
        rw [withDataBlock_data]
        have hlen := List.length_take_of_le hcopy.2
        have hd := h.disk.grown (o := (s.open_file_table i).of_offset) hf hblock hlen hpos (by omega)
        refine h.moveOffset hd hnum hkeep (fun g => ?_) ?_
        · by_cases hgf : g = f
          · subst hgf
            rw [grown_size, withDataBlock_size]
            exact le_max_left _ _
          · rw [grown_of_ne _ hgf, withDataBlock_of_ne s.disk hgf]
        · rw [grown_size]
          exact le_max_right _ _
      · cases hm
  · cases hq
    exact h

/-- Every call on open handles keeps the invariant, if it does not truncate a file under an
offset. -/
theorem Inv.next {s s' : State} {op : Op} (h : Inv s) (hop : OnOpenHandles s op)
    (hok : ¬ TruncatesUnderOffset s op) (he : next s op = some s') : Inv s' := by
  obtain ⟨r, hr, rfl⟩ := Option.map_eq_some_iff.mp he
  cases op with
  | tfsLookup name =>
    cases hr
    exact h
  | tfsOpen name flags =>
    have h0 := h.no_shutdown
    simp only [exec, tfsOpen, not_lt.mpr h0, if_false] at hr
    obtain ⟨q, hq, rfl⟩ := Option.map_eq_some_iff.mp hr
    have hinv := h.tfsOpenUnsynchronized hok hq
    simp only
    split
    · exact hinv.openFiles (by have := hinv.no_shutdown; omega)
    · exact hinv
  | tfsClose fhandle =>
    cases hr
    exact h.tfsClose fhandle
  | tfsRead fhandle len => exact h.tfsRead hop.1 hr
  | tfsWrite fhandle buffer => exact h.tfsWrite hop.1 hop.2 hr
  | tfsDestroyAfterAllClosed => exact hop.elim

/-- An open handle behind the end of its file is not in bounds. -/
theorem not_allInBounds {s : State} {i f : Nat} (hi : i < MAX_OPEN_FILES)
    (ht : s.free_open_file_entries i = .TAKEN) (hnum : (s.open_file_table i).of_inumber = f)
    (hlt : (s.disk.inode_table f).i_size < (s.open_file_table i).of_offset) : ¬ AllInBounds s := by
  intro hall
  obtain ⟨g, hb⟩ := hall i hi ht
  have hget := hb.inode
  have hle := hb.read_no_wrap
  rw [hnum, inodeGet] at hget
  split at hget
  · simp only [Int.toNat_natCast, Option.some.injEq] at hget
    rw [← hget] at hle
    omega
  · cases hget

/-- The truncation leaves an offset behind the end of the file. -/
theorem Inv.truncates_under_offset {s s' : State} {op : Op} (h : Inv s)
    (hbad : TruncatesUnderOffset s op) (he : parte2.next s op = some s') : ¬ AllInBounds s' := by
  obtain ⟨r, hr, rfl⟩ := Option.map_eq_some_iff.mp he
  cases op with
  | tfsOpen name flags =>
    obtain ⟨ht, f, hl, _, i, hi, htaken, hnum, hpos⟩ := hbad
    simp only [exec, tfsOpen, not_lt.mpr h.no_shutdown, if_false] at hr
    obtain ⟨q, hq, rfl⟩ := Option.map_eq_some_iff.mp hr
    rcases tfsOpenUnsynchronized_ends h.disk hq with ⟨hno, _⟩ | ⟨_, _, hno, _⟩ |
      ⟨g, hl', _, rfl⟩ | ⟨_, _, hno, _⟩
    · omega
    · omega
    · have hgf : g = f := by omega
      subst hgf
      have hsize : ((parte2.afterTrunc s.disk flags g).inode_table g).i_size = 0 := by
        unfold parte2.afterTrunc
        rw [if_pos ht, truncated_size]
      simp only
      rcases addToOpenFileTable_cases { s with disk := parte2.afterTrunc s.disk flags g } g
        (initialOffset (parte2.afterTrunc s.disk flags g) flags g) with hr | ⟨k, _, hfree, hr⟩ <;>
        rw [hr]
      · exact not_allInBounds hi htaken hnum (hsize.trans_lt hpos)
      · -- the new handle is in another slot
        have hik : i ≠ k := by
          rintro rfl
          rw [htaken] at hfree
          cases hfree
        have hne : (k : Int) ≠ -1 := by omega
        rw [if_pos hne]
        exact not_allInBounds hi (by simpa [parte2.withHandle, Function.update_of_ne hik] using htaken)
          (by simpa [parte2.withHandle, Function.update_of_ne hik] using hnum)
          (by simpa [parte2.withHandle, Function.update_of_ne hik, hsize] using hpos)
    · omega
  | _ => exact hbad.elim

theorem Initial.bounds_inv {s : State} (h : Initial s) : Inv s := by
  obtain ⟨raw, _, rfl⟩ := h
  rw [tfsInit_eq]
  exact ⟨firstDisk_inv raw.disk, (fun _ _ ht => nomatch ht), le_refl _⟩

/-- In the runs of calls on open handles, every handle stays in bounds exactly when no `tfs_open`
truncates a file that is not empty under an open handle with an offset above zero. -/
theorem accesses_stay_in_the_block {s : State} (hs : Initial s) {ops : List Op}
    (hops : steps.Meets next OnOpenHandles s ops) :
    steps.Always next AllInBounds s ops ↔
      steps.Meets next (fun s op => ¬ TruncatesUnderOffset s op) s ops :=
  steps.always_iff_meets (I := Inv) (fun _ h => h.allInBounds)
    (fun _ _ _ h hop hok he => h.next hop hok he)
    (fun _ _ _ h _ hbad he => h.truncates_under_offset (not_not.mp hbad) he) hs.bounds_inv hops

/-- A write and a read, and a truncation while the open handle of the file is at its start. Then
another write and a read. -/
def truncatesAtStart : List Op :=
  [.tfsOpen (some pathA) TFS_O_CREAT, .tfsWrite 0 [5, 6], .tfsOpen (some pathA) 0, .tfsRead 0 4,
    .tfsClose 0, .tfsOpen (some pathA) TFS_O_TRUNC, .tfsWrite 0 [7], .tfsRead 1 4]

theorem a_truncation_at_the_start_is_in_bounds :
    Initial firstState ∧ steps.Meets next OnOpenHandles firstState truncatesAtStart ∧
      steps.Always next AllInBounds firstState truncatesAtStart ∧
      (steps.after next firstState truncatesAtStart).map (fun s =>
        ((s.open_file_table 0).of_offset, (s.open_file_table 1).of_offset,
          (s.disk.inode_table 1).i_size)) = some (1, 1, 1) :=
  have hops : steps.Meets next OnOpenHandles firstState truncatesAtStart := by decide +kernel
  ⟨firstState_initial, hops, (accesses_stay_in_the_block firstState_initial hops).mpr
    (by decide +kernel), by decide +kernel⟩

/-- Two bytes are written through handle 0, and the file is truncated by another `tfs_open`. The
next read through handle 0 takes a byte of a free block, and the difference of size and offset
is below zero. -/
theorem a_truncation_moves_the_end :
    (steps.after next firstState [.tfsOpen (some pathA) TFS_O_CREAT, .tfsWrite 0 [5, 6],
        .tfsOpen (some pathA) TFS_O_TRUNC]).map (fun s =>
          ((s.open_file_table 0).of_offset, (s.disk.inode_table 1).i_size,
            sizeT ((s.disk.inode_table 1).i_size - (s.open_file_table 0).of_offset),
            s.disk.free_blocks (s.disk.inode_table 1).i_data_block.toNat,
            (tfsRead s 0 1).map fun r => r.1.ret)) =
      some (2, 0, 2 ^ 64 - 2, .FREE, some 1) := by
  decide +kernel

end tecnicofs.parte2
