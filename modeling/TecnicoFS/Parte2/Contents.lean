-- The bytes of a file on the server, and what each change of the disk does to
-- them: reads and writes at an offset in the block, truncations, new files.
import TecnicoFS.Lib.FileStore
import TecnicoFS.Parte2.BlockCounts

open byte_memory ownership

namespace tecnicofs.parte2

/-- The address of the block of a file. -/
def blockAddr (d : Disk) (f : Nat) : Nat := (d.inode_table f).i_data_block.toNat * BLOCK_SIZE

def contents (d : Disk) (f : Nat) : List UInt8 :=
  load d.fs_data (blockAddr d f) (d.inode_table f).i_size

@[simp] theorem contents_length (d : Disk) (f : Nat) :
    (contents d f).length = (d.inode_table f).i_size := load_length ..

theorem contents_empty {d : Disk} {f : Nat} (h : (d.inode_table f).i_size = 0) :
    contents d f = [] := by
  apply List.eq_nil_of_length_eq_zero
  rw [contents_length, h]

/-- The bytes depend on the inode and on its block only. -/
theorem contents_congr {d d' : Disk} {f : Nat} (hi : d'.inode_table f = d.inode_table f)
    (hm : ∀ j < (d.inode_table f).i_size, d'.fs_data (blockAddr d f + j) = d.fs_data (blockAddr d f + j)) :
    contents d' f = contents d f := by
  have haddr : blockAddr d' f = blockAddr d f := by
    unfold blockAddr
    rw [hi]
  unfold contents
  rw [haddr, hi]
  exact load_congr hm

/-- Blocks with different numbers are apart. -/
theorem block_apart {a b : Int} (ha : 0 ≤ a) (hb : 0 ≤ b) (hne : a ≠ b) :
    a.toNat * BLOCK_SIZE + BLOCK_SIZE ≤ b.toNat * BLOCK_SIZE ∨
      b.toNat * BLOCK_SIZE + BLOCK_SIZE ≤ a.toNat * BLOCK_SIZE := by
  unfold BLOCK_SIZE
  omega

section
variable {d : Disk} (h : DiskInv d) {f : Nat} (hf : FileInode d f)
include h hf

/-- The bytes of a file are apart from the directory. -/
theorem DiskInv.root_apart {j k : Nat} (hj : j < (d.inode_table f).i_size) (hk : k < BLOCK_SIZE) :
    blockAddr d f + j ≠ rootAddr d + k := by
  have hsize := h.size_le f hf.2
  have htaken := h.block_taken hf.2 (show 0 < (d.inode_table f).i_size by omega)
  have hne : (d.inode_table f).i_data_block ≠ rootBlock d := by
    intro he
    have := h.block_alone hf.2 (show 0 < (d.inode_table f).i_size by omega) hf.1.symm
    exact this (by rw [he]; exact h.root_owns)
  have := block_apart htaken.bounds.1 h.root_block_taken.bounds.1 hne
  unfold blockAddr rootAddr
  omega

/-! ## Opens -/

omit h hf in
theorem truncated_contents_self (d : Disk) (f : Nat) : contents (truncated d f) f = [] :=
  contents_empty (truncated_size d f)

omit h hf in
theorem truncated_contents_of_ne {g : Nat} (hg : g ≠ f) :
    contents (truncated d f) g = contents d g :=
  contents_congr (truncated_of_ne d hg) fun _ _ => by rw [truncated_data]

omit h in
theorem undone_contents {i : Nat} (hi : FreeInode d i) : contents (undone d i) f = contents d f :=
  contents_congr (freshFile_of_ne d (hi.ne hf.2)) fun _ _ => rfl

theorem createdFile_contents {i j : Nat} (hi : FreeInode d i) (hj : j < MAX_DIR_ENTRIES)
    (name : CString) : contents (createdFile d i j name) f = contents d f := by
  have hroot : (freshFile d i).inode_table ROOT_DIR_INUM = d.inode_table ROOT_DIR_INUM :=
    freshFile_of_ne d (hi.ne h.root_taken)
  have haddr : rootAddr (freshFile d i) = rootAddr d := by
    unfold rootAddr rootBlock
    rw [hroot]
  have hinode : (createdFile d i j name).inode_table f = d.inode_table f :=
    freshFile_of_ne d (hi.ne hf.2)
  apply contents_congr hinode
  intro k hk
  change fillDirEntry d.fs_data (rootAddr (freshFile d i)) j i name (blockAddr d f + k) = _
  rw [haddr, fillDirEntry_eq]
  apply fillDirEntry_other_block _ _ _ _ _ hj
  by_contra hin
  refine h.root_apart hf hk (k := blockAddr d f + k - rootAddr d) ?_ ?_ <;> omega

omit h hf in
theorem createdFile_contents_self (d : Disk) (i j : Nat) (name : CString) :
    contents (createdFile d i j name) i = [] := by
  apply contents_empty
  change ((freshFile d i).inode_table i).i_size = 0
  simp [freshFile]

end

/-! ## Writes -/

/-- The disk after the bytes were written at `o`, in the block that the file has or gets. -/
def writtenDisk (d : Disk) (f o : Nat) (bytes : List UInt8) : Disk :=
  grown (withDataBlock d f) f (o + bytes.length)
    (store d.fs_data (blockAddr (withDataBlock d f) f + o) bytes)

section
variable {d : Disk} {n f o : Nat} (h : DiskInv d) (hn : Filled d n) (hf : FileInode d f)
  {bytes : List UInt8} (hpos : 0 < bytes.length) (ho : o + bytes.length ≤ BLOCK_SIZE)
include h hn hf

theorem write_dataBlockGet :
    dataBlockGet ((withDataBlock d f).inode_table f).i_data_block =
      some (blockAddr (withDataBlock d f) f) :=
  dataBlockGet_of_taken (hn.write_block h hf)

/-- The block of a write is nobody else's. -/
theorem write_block_alone {g : Nat} (hg : g ≠ f) (htaken : d.freeinode_ts g = .TAKEN)
    (hs : 0 < (d.inode_table g).i_size) :
    (d.inode_table g).i_data_block ≠ ((withDataBlock d f).inode_table f).i_data_block := by
  intro he
  have hex := h.withDataBlock_exact hf.2 (write_dataBlockGet h hn hf)
  apply hg
  refine hex.inj (b := ((withDataBlock d f).inode_table f).i_data_block) ?_ (Function.update_self ..)
  rw [Function.update_of_ne hg, withDataBlock_ownedBlock d hg, ownedBlock_some htaken hs, he]

/-- A write does not reach the bytes of another file or of the directory. -/
theorem write_apart {g j k : Nat} (hg : g ≠ f) (htaken : d.freeinode_ts g = .TAKEN)
    (hj : j < (d.inode_table g).i_size) (hk : k < BLOCK_SIZE) :
    blockAddr d g + j ≠ blockAddr (withDataBlock d f) f + k := by
  have hsize := h.size_le g htaken
  have h1 := h.block_taken htaken (show 0 < (d.inode_table g).i_size by omega)
  have := block_apart h1.bounds.1 (hn.write_block h hf).bounds.1
    (write_block_alone h hn hf hg htaken (by omega))
  unfold blockAddr
  omega

include ho

theorem writtenDisk_root :
    ∀ j < BLOCK_SIZE, (writtenDisk d f o bytes).fs_data (rootAddr d + j) =
      d.fs_data (rootAddr d + j) := by
  intro j hj
  change store d.fs_data (blockAddr (withDataBlock d f) f + o) bytes (rootAddr d + j) = _
  apply store_outside
  by_contra hin
  refine write_apart h hn hf hf.1.symm h.root_taken (j := j) (by rw [h.root_size]; exact hj)
    (k := rootAddr d + j - blockAddr (withDataBlock d f) f) (by omega) ?_
  change rootAddr d + j = _
  omega

theorem writtenDisk_filled : Filled (writtenDisk d f o bytes) n := by
  have hroot : rootAddr (withDataBlock d f) = rootAddr d := by
    unfold rootAddr rootBlock
    rw [withDataBlock_of_ne d hf.1.symm]
  have hf' : FileInode (withDataBlock d f) f := ⟨hf.1, by rw [withDataBlock_freeinode]; exact hf.2⟩
  refine (hn.withDataBlock hf).grown hf' _ _ ?_
  rw [hroot, withDataBlock_data]
  exact writtenDisk_root h hn hf ho

theorem writtenDisk_contents_of_ne {g : Nat} (hg : FileInode d g) (hne : g ≠ f) :
    contents (writtenDisk d f o bytes) g = contents d g := by
  have hinode : (writtenDisk d f o bytes).inode_table g = d.inode_table g :=
    (grown_of_ne _ hne _ _).trans (withDataBlock_of_ne d hne)
  apply contents_congr hinode
  intro j hj
  change store d.fs_data (blockAddr (withDataBlock d f) f + o) bytes (blockAddr d g + j) = _
  apply store_outside
  by_contra hin
  refine write_apart h hn hf hne hg.2 hj
    (k := blockAddr d g + j - blockAddr (withDataBlock d f) f) (by omega) ?_
  omega

omit h hn hf ho in
theorem writtenDisk_size :
    ((writtenDisk d f o bytes).inode_table f).i_size =
      max (d.inode_table f).i_size (o + bytes.length) := by
  unfold writtenDisk
  rw [grown_size, withDataBlock_size]

include hpos in
theorem writtenDisk_inv : DiskInv (writtenDisk d f o bytes) :=
  h.grown hf (write_dataBlockGet h hn hf) rfl hpos ho

omit h hn hf ho in
/-- The bytes stand in the file where they were written. -/
theorem writtenDisk_contents (hle : o ≤ (d.inode_table f).i_size) :
    contents (writtenDisk d f o bytes) f = file_store.overwrite (contents d f) o bytes := by
  have haddr : blockAddr (writtenDisk d f o bytes) f = blockAddr (withDataBlock d f) f := by
    unfold blockAddr writtenDisk
    rw [grown_block]
  -- a file that is not empty keeps its block
  have hold : 0 < (d.inode_table f).i_size → withDataBlock d f = d := by
    intro hs
    unfold withDataBlock
    rw [if_neg (by omega)]
  apply List.ext_getElem?
  intro p
  rw [file_store.overwrite_getElem? _ _ _ (by rwa [contents_length])]
  unfold contents
  rw [haddr, writtenDisk_size, load_getElem?, load_getElem?]
  change (if _ then some (store d.fs_data _ bytes _) else none) = _
  by_cases hin : o ≤ p ∧ p < o + bytes.length
  · have hp := store_at d.fs_data (blockAddr (withDataBlock d f) f + o) (p - o) bytes (by omega)
    rw [show blockAddr (withDataBlock d f) f + o + (p - o) =
      blockAddr (withDataBlock d f) f + p by omega] at hp
    rw [if_pos (by omega), if_pos hin, hp, List.getElem?_eq_getElem]
  · rw [if_neg hin, store_outside _ _ _ _ (by omega)]
    by_cases hp : p < (d.inode_table f).i_size
    · rw [if_pos (by omega), if_pos hp, hold (by omega)]
    · rw [if_neg (by omega), if_neg hp]

end

/-! ## The calls -/

section
variable {s : State} {n i f : Nat} {fhandle : Int} (h : DiskInv s.disk) (hn : Filled s.disk n)
  (hi : getOpenFileEntry fhandle = some i) (hnum : (s.open_file_table i).of_inumber = f)
  (hf : FileInode s.disk f)
include h hi hnum hf

include hn in
/-- A write that starts in the block takes what fits in it. -/
theorem tfsWrite_eq {buffer : List UInt8} (ho : (s.open_file_table i).of_offset ≤ BLOCK_SIZE)
    (hl : buffer.length < 2 ^ 63) :
    tfsWrite s fhandle buffer =
      let o := (s.open_file_table i).of_offset
      let bytes := buffer.take (BLOCK_SIZE - o)
      some (.of bytes.length,
        if bytes.length = 0 then s
        else { s with
          disk := writtenDisk s.disk f o bytes
          open_file_table := Function.update s.open_file_table i ⟨f, o + bytes.length⟩ }) := by
  have hcount := bytesToWrite_eq ho hl
  have hlen : (buffer.take (BLOCK_SIZE - (s.open_file_table i).of_offset)).length =
      min buffer.length (BLOCK_SIZE - (s.open_file_table i).of_offset) := by
    rw [List.length_take, Nat.min_comm]
  have hblock := write_dataBlockGet h hn hf
  have htaken := (hn.write_block h hf).bounds
  unfold tfsWrite tfsWriteUnsynchronized
  simp only [hi, hnum, h.inodeGet hf.2, hcount, hlen]
  by_cases hz : min buffer.length (BLOCK_SIZE - (s.open_file_table i).of_offset) = 0
  · simp only [hz, Nat.lt_irrefl, if_false, if_true]
    rfl
  · have hcopy : memcpyIn (withDataBlock s.disk f).fs_data
        (blockAddr (withDataBlock s.disk f) f + (s.open_file_table i).of_offset) buffer
        (min buffer.length (BLOCK_SIZE - (s.open_file_table i).of_offset)) =
        some (store s.disk.fs_data
          (blockAddr (withDataBlock s.disk f) f + (s.open_file_table i).of_offset)
          (buffer.take (BLOCK_SIZE - (s.open_file_table i).of_offset))) := by
      have hin : blockAddr (withDataBlock s.disk f) f + BLOCK_SIZE ≤ FS_DATA_SIZE := by
        unfold blockAddr FS_DATA_SIZE
        unfold BLOCK_SIZE DATA_BLOCKS at *
        omega
      have htake : buffer.take (min buffer.length (BLOCK_SIZE - (s.open_file_table i).of_offset)) =
          buffer.take (BLOCK_SIZE - (s.open_file_table i).of_offset) := by
        rw [List.take_eq_take_iff]
        omega
      unfold memcpyIn
      rw [if_pos (by omega), withDataBlock_data, htake]
    simp only [show 0 < min buffer.length (BLOCK_SIZE - (s.open_file_table i).of_offset) by omega,
      hz, if_true, if_false, hblock, hcopy, Option.map_some]
    rw [ssizeT_of_lt (by omega)]
    simp only [writtenDisk, grown, hlen]

/-- A read that starts in the file gives what is left of it. -/
theorem tfsRead_eq {len : Nat} (ho : (s.open_file_table i).of_offset ≤ (s.disk.inode_table f).i_size) :
    tfsRead s fhandle len =
      let o := (s.open_file_table i).of_offset
      let bytes := ((contents s.disk f).drop o).take len
      some (⟨bytes.length, bytes, .unlocks, false⟩,
        { s with
          open_file_table := Function.update s.open_file_table i ⟨f, o + bytes.length⟩ }) := by
  have hsize := h.size_le f hf.2
  have hcount := bytesToRead_eq len ho hsize
  have hslice := load_slice s.disk.fs_data (blockAddr s.disk f) len ho
  have hlen : (((contents s.disk f).drop (s.open_file_table i).of_offset).take len).length =
      min len ((s.disk.inode_table f).i_size - (s.open_file_table i).of_offset) := by
    rw [List.length_take, List.length_drop, contents_length]
  change ((contents s.disk f).drop _).take len = _ at hslice
  simp only [hlen]
  rw [hslice]
  unfold tfsRead tfsReadUnsynchronized
  simp only [hi, hnum, h.inodeGet hf.2, hcount]
  generalize hr : min len ((s.disk.inode_table f).i_size - (s.open_file_table i).of_offset) = r at *
  rcases Nat.eq_zero_or_pos r with hz | hpos
  · have hsame : (⟨f, (s.open_file_table i).of_offset + 0⟩ : OpenFileEntry) = s.open_file_table i := by
      rw [Nat.add_zero, ← hnum]
    subst hz
    rw [hsame, Function.update_eq_self]
    rfl
  · have htaken := h.block_taken hf.2 (show 0 < (s.disk.inode_table f).i_size by omega)
    have hcopy : memcpyOut s.disk.fs_data (blockAddr s.disk f + (s.open_file_table i).of_offset) r =
        some (load s.disk.fs_data (blockAddr s.disk f + (s.open_file_table i).of_offset) r) := by
      have hin : blockAddr s.disk f + BLOCK_SIZE ≤ FS_DATA_SIZE := by
        have := htaken.bounds
        unfold blockAddr FS_DATA_SIZE
        unfold BLOCK_SIZE DATA_BLOCKS at *
        omega
      unfold memcpyOut
      rw [if_pos (by omega)]
    have hget : dataBlockGet (s.disk.inode_table f).i_data_block = some (blockAddr s.disk f) :=
      dataBlockGet_of_taken htaken
    simp only [hpos, if_true, hget, hcopy, Option.map_some]
    rw [ssizeT_of_lt (by unfold BLOCK_SIZE at hsize; omega)]

end

end tecnicofs.parte2
