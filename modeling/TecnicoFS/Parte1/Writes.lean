-- What a write does, byte by byte, and how far it gets: the request, the largest
-- file and the free blocks set the limits, and everything else stays.
import TecnicoFS.Parte1.FreeBlocks
import TecnicoFS.Parte1.Positions
import Mathlib.Order.Bounds.Defs

open byte_memory block_map

namespace tecnicofs.parte1

/-! ## A write without a wrap -/

/-- What is asked of the blocks, cut at the size of the largest file. -/
theorem sizeNeeded_eq {len o : Nat} (hlen : len + o < 2 ^ 64) (ho : o ≤ MAX_FILE_SIZE) :
    sizeNeeded len o = o + min len (MAX_FILE_SIZE - o) := by
  have hsum : sizeT ((len : Int) + o) = len + o := by exact_mod_cast sizeT_nat hlen
  unfold sizeNeeded
  rw [hsum]
  split <;> omega

/-- Only a sum that wraps leads behind the last block that a file can have. -/
theorem not_ranOut {d : Disk} {f len o : Nat} (hlen : len + o < 2 ^ 64) (ho : o ≤ MAX_FILE_SIZE) :
    ¬ RanOut d f len o := by
  rintro ⟨hshort, hend⟩
  rw [saveToWrite_eq hlen ho] at hshort
  omega

/-- The disk that a write at `o` leaves. -/
def writtenDisk (d : Disk) (f o : Nat) (buffer : List UInt8) : Disk :=
  let k := copied d f buffer.length o
  if saveToWrite buffer.length o = 0 then d
  else sizeSet (stored (grownFor d f buffer.length o) f o (buffer.take k)) f (o + k)

theorem copied_of_nothing {d : Disk} {f len o : Nat} (hsave : saveToWrite len o = 0) :
    copied d f len o = 0 := by
  unfold copied
  rw [hsave, Nat.zero_min]

theorem writeCritical_written {d : Disk} {f : Nat} (h : DiskInv d) (hf : FileInode d f)
    (file : OpenFileEntry) {buffer : List UInt8} (ho : offsetAt d file f ≤ MAX_FILE_SIZE)
    (hlen : buffer.length < 2 ^ 63) :
    writeCritical d file f buffer =
      let o := offsetAt d file f
      let k := copied d f buffer.length o
      ((k : Int), writtenDisk d f o buffer, { file with of_offset := o + k }) := by
  have hsum : buffer.length + offsetAt d file f < 2 ^ 64 := by
    unfold MAX_FILE_SIZE at ho
    omega
  rw [writeCritical_eq h hf]
  unfold writtenDisk
  by_cases hsave : saveToWrite buffer.length (offsetAt d file f) = 0
  · simp only [hsave, if_true, copied_of_nothing hsave]
    rfl
  · simp only [hsave, if_false, not_ranOut hsum ho]

section
variable {s : State} (h : Inv s) {fhandle : Int} {i f : Nat}
  (hget : getOpenFileEntry s fhandle = some i) (hin : (s.open_file_table i).of_inumber = f)
include h hget hin

/-- A write through an open handle starts at a position that a file can have. -/
theorem handle_on_file :
    FileInode s.disk f ∧ offsetAt s.disk (s.open_file_table i) f ≤ MAX_FILE_SIZE := by
  obtain ⟨hf, ho⟩ := h.open_on_file hget hin
  exact ⟨hf, offsetAt_le ho (h.size_le f hf)⟩

theorem tfsWrite_written {buffer : List UInt8} (hlen : buffer.length < 2 ^ 63) :
    tfsWrite s fhandle buffer =
      let o := offsetAt s.disk (s.open_file_table i) f
      let k := copied s.disk f buffer.length o
      ((k : Int), fillEntry { s with disk := writtenDisk s.disk f o buffer } i
        { s.open_file_table i with of_offset := o + k }) := by
  obtain ⟨hf, ho⟩ := handle_on_file h hget hin
  unfold tfsWrite
  simp only [hget, hin, inodeGet_file hf, writeCritical_written h.disk hf _ ho hlen]

end

/-! ## The effect and the frame -/

section
variable {d : Disk} {f : Nat} (h : DiskInv d) (hf : FileInode d f) (o : Nat) (buffer : List UInt8)
include h hf

theorem writtenDisk_inv :
    DiskInv (writtenDisk d f o buffer) ∧ FileInode (writtenDisk d f o buffer) f := by
  obtain ⟨hinv, hg⟩ := grownFor_spec h hf buffer.length o
  have hf' := (hg.fileInode f).mpr hf
  unfold writtenDisk
  simp only
  split
  · exact ⟨h, hf⟩
  · refine ⟨(hinv.stored hf' (copied_inRoom d f o buffer)).sizeSet f _, ?_⟩
    exact (sizeSet_fileInode _ f _ f).mpr hf'

theorem writtenDisk_freeinode : (writtenDisk d f o buffer).freeinode_ts = d.freeinode_ts := by
  unfold writtenDisk
  simp only
  split
  · rfl
  · exact (grownFor_spec h hf buffer.length o).2.files.1

/-- What the write does not cover stays, as far as the file had blocks. -/
theorem writtenDisk_position {p : Nat} (hp : p < room d f)
    (hout : p < o ∨ o + copied d f buffer.length o ≤ p) :
    PositionSame f p d (writtenDisk d f o buffer) := by
  obtain ⟨hinv, hg⟩ := grownFor_spec h hf buffer.length o
  have hf' := (hg.fileInode f).mpr hf
  have hgrown := hg.position hf hp
  have hshort := List.length_take_le (copied d f buffer.length o) buffer
  unfold writtenDisk
  simp only
  split
  · exact .refl hp
  · have hst := stored_position hinv hf' (copied_inRoom d f o buffer) hgrown.lt_room (by omega)
    exact (hgrown.trans hst).trans (sizeSet_position hst.lt_room)

/-- What the write covers lies in blocks of the file and holds the bytes of the buffer. -/
theorem writtenDisk_byteAt {p : Nat} (ho : o ≤ MAX_FILE_SIZE)
    (hp : o ≤ p ∧ p < o + copied d f buffer.length o) :
    p < room (writtenDisk d f o buffer) f ∧
      buffer[p - o]? = some (byteAt (writtenDisk d f o buffer) f p) := by
  obtain ⟨hinv, hg⟩ := grownFor_spec h hf buffer.length o
  have hf' := (hg.fileInode f).mpr hf
  have hle := copied_le_length h hf buffer.length ho
  have hin := copied_inRoom d f o buffer
  have htake : (buffer.take (copied d f buffer.length o)).length = copied d f buffer.length o :=
    List.length_take_of_le hle
  have hsave : ¬ saveToWrite buffer.length o = 0 := by
    intro hz
    rw [copied_of_nothing hz] at hp
    omega
  have hroom : p < room (grownFor d f buffer.length o) f := hin.lt_room hp.1 (by omega)
  unfold writtenDisk
  simp only [hsave, if_false]
  rw [sizeSet_room]
  refine ⟨hroom, ?_⟩
  rw [sizeSet_byteAt, stored_byteAt hinv hf' hin hroom, dif_pos (by omega), List.getElem_take]
  exact List.getElem?_eq_getElem _

/-- The size grows up to the end of what was written. -/
theorem writtenDisk_size (hk : 0 < copied d f buffer.length o) :
    ((writtenDisk d f o buffer).inode_table f).i_size =
      max (d.inode_table f).i_size (o + copied d f buffer.length o) := by
  have hsave : ¬ saveToWrite buffer.length o = 0 := by
    intro hz
    rw [copied_of_nothing hz] at hk
    omega
  unfold writtenDisk
  simp only [hsave, if_false]
  rw [sizeSet_self]
  exact congrArg (max · _) (grownFor_spec h hf buffer.length o).2.size

/-- A write at the end of the file makes the file as much larger as it copied. -/
theorem writtenDisk_size_end :
    ((writtenDisk d f (d.inode_table f).i_size buffer).inode_table f).i_size =
      (d.inode_table f).i_size + copied d f buffer.length (d.inode_table f).i_size := by
  rcases Nat.eq_zero_or_pos (copied d f buffer.length (d.inode_table f).i_size) with hz | hpos
  · unfold writtenDisk
    simp only [hz, Nat.add_zero]
    split
    · rfl
    · rw [sizeSet_self]
      exact (congrArg (max · _) (grownFor_spec h hf _ _).2.size).trans (Nat.max_self _)
  · rw [writtenDisk_size h hf _ _ hpos, Nat.max_eq_right (Nat.le_add_right ..)]

end

/-- The next write through the handle starts where this one ended. -/
theorem offsetAt_written {d : Disk} {f : Nat} (h : DiskInv d) (hf : FileInode d f)
    (file : OpenFileEntry) (buffer : List UInt8) :
    let o := offsetAt d file f
    let k := copied d f buffer.length o
    offsetAt (writtenDisk d f o buffer) { file with of_offset := o + k } f = o + k := by
  simp only [offsetAt]
  by_cases happ : file.isAppending = true
  · simp only [happ, if_true]
    exact writtenDisk_size_end h hf buffer
  · simp only [happ, Bool.false_eq_true, if_false]

/-- What a write of `k` bytes of the buffer at position `o` of `f`, through slot `i`, changes and
what it leaves. -/
structure WriteEffect (s s' : State) (i f o k : Nat) (buffer : List UInt8) : Prop where
  written : ∀ p, o ≤ p → p < o + k →
    p < room s'.disk f ∧ buffer[p - o]? = some (byteAt s'.disk f p)
  rest : ∀ p < room s.disk f, (p < o ∨ o + k ≤ p) → PositionSame f p s.disk s'.disk
  others : ∀ g, FileInode s.disk g → g ≠ f → ∀ p < room s.disk g, PositionSame g p s.disk s'.disk
  root : DirSame s.disk s'.disk
  entry : s'.open_file_table i = { s.open_file_table i with of_offset := o + k }
  size : 0 < k → (s'.disk.inode_table f).i_size = max (s.disk.inode_table f).i_size (o + k)
  handles : s'.free_open_file_entries = s.free_open_file_entries ∧
    ∀ j, j ≠ i → s'.open_file_table j = s.open_file_table j
  inodes : s'.disk.freeinode_ts = s.disk.freeinode_ts ∧
    ∀ g, g ≠ f → s'.disk.inode_table g = s.disk.inode_table g

/-- A write through an open handle returns the number of bytes it copied. They are the bytes of
the file from the offset on, the offset moves behind them, and all else stays. -/
theorem a_write_changes_what_it_covers (s : State) (h : Reachable s) (fhandle : Int) (i f : Nat)
    (buffer : List UInt8) (hget : getOpenFileEntry s fhandle = some i)
    (hin : (s.open_file_table i).of_inumber = f) (hlen : buffer.length < 2 ^ 63) :
    ∃ k : Nat, (tfsWrite s fhandle buffer).1 = k ∧
      WriteEffect s (tfsWrite s fhandle buffer).2 i f (offsetAt s.disk (s.open_file_table i) f) k
        buffer := by
  obtain ⟨hf, ho⟩ := handle_on_file h.inv hget hin
  have hdisk := h.inv.disk
  have hcrit : (writeCritical s.disk (s.open_file_table i) f buffer).2.1 =
      writtenDisk s.disk f (offsetAt s.disk (s.open_file_table i) f) buffer := by
    rw [writeCritical_written hdisk hf _ ho hlen]
  have hothers := fun g hg hne => @writeCritical_fileSame _ f g hdisk hf hg hne
    (s.open_file_table i) buffer
  have hroot := writeCritical_dirSame hdisk hf (s.open_file_table i) buffer
  have hinodes := fun g => @writeCritical_inode_other _ f g hdisk hf (s.open_file_table i) buffer
  rw [hcrit] at hothers hroot hinodes
  refine ⟨copied s.disk f buffer.length (offsetAt s.disk (s.open_file_table i) f), ?_⟩
  rw [tfsWrite_written h.inv hget hin hlen]
  exact ⟨rfl,
    { written := fun p hlo hhi => writtenDisk_byteAt hdisk hf _ buffer ho ⟨hlo, hhi⟩
      rest := fun p hp hout => writtenDisk_position hdisk hf _ buffer hp hout
      others := fun g hg hne p hp => (hothers g hg hne).position hp
      root := hroot
      entry := by simp only [fillEntry, Function.update_self]
      size := writtenDisk_size hdisk hf _ buffer
      handles := ⟨rfl, fun j hj => by simp only [fillEntry, Function.update_of_ne hj]⟩
      inodes := ⟨writtenDisk_freeinode hdisk hf _ buffer, hinodes⟩ }⟩

theorem two_bytes_follow_the_first :
    ∃ k : Nat, (tfsWrite oneByteWritten 0 [8, 9]).1 = k ∧
      WriteEffect oneByteWritten (tfsWrite oneByteWritten 0 [8, 9]).2 0 1
        (offsetAt oneByteWritten.disk (oneByteWritten.open_file_table 0) 1) k [8, 9] :=
  a_write_changes_what_it_covers oneByteWritten oneByteWritten_reachable 0 0 1 [8, 9]
    oneByteWritten_handle.1 oneByteWritten_inumber (by decide)

/-! ## How far a write gets -/

/-- The blocks that a file can get are the most that are wanted and paid for. -/
theorem blocksWithin_isGreatest (b needed free : Nat) :
    IsGreatest {n | b ≤ n ∧ n ≤ max b needed ∧ blocksCost b n ≤ free}
      (blocksWithin b needed free) := by
  have hself : blocksCost b b ≤ free := by
    rw [blocksCost_self]
    exact Nat.zero_le _
  constructor
  · refine ⟨le_blocksWithin b needed free, blocksWithin_le b needed free, ?_⟩
    exact Nat.findGreatest_spec (P := fun n => blocksCost b n ≤ free) (Nat.le_max_left ..) hself
  · rintro n ⟨_, hle, hcost⟩
    exact Nat.le_findGreatest hle hcost

/-- A write of `n` bytes never fails. It returns what fits in the largest file and in the blocks
that the free ones pay for, and takes exactly these. -/
theorem a_short_write_is_exact (s : State) (h : Reachable s) (fhandle : Int) (i f : Nat)
    (buffer : List UInt8) (hget : getOpenFileEntry s fhandle = some i)
    (hin : (s.open_file_table i).of_inumber = f) (hlen : buffer.length < 2 ^ 63) :
    let o := offsetAt s.disk (s.open_file_table i) f
    let b := (s.disk.inode_table f).blocksAlloc
    let n' := min buffer.length (MAX_FILE_SIZE - o)
    let N := divCeil (o + n') BLOCK_SIZE
    let r := tfsWrite s fhandle buffer
    ∃ B, IsGreatest {B | b ≤ B ∧ B ≤ max b N ∧ blocksCost b B ≤ freeCount s.disk} B ∧
      r.1 ≠ -1 ∧ r.1 = (if n' = 0 then 0 else max 0 (min (n' : Int) (BLOCK_SIZE * B - o))) ∧
      (r.2.disk.inode_table f).blocksAlloc = (if n' = 0 then b else B) ∧
      freeCount r.2.disk + (if n' = 0 then 0 else blocksCost b B) = freeCount s.disk := by
  obtain ⟨hf, ho⟩ := handle_on_file h.inv hget hin
  have hsum : buffer.length + offsetAt s.disk (s.open_file_table i) f < 2 ^ 64 := by
    unfold MAX_FILE_SIZE at ho
    omega
  have hneed := sizeNeeded_eq hsum ho
  have hsave := saveToWrite_eq hsum ho
  obtain ⟨hblocks, hfree⟩ := grownFor_count h.inv.disk hf buffer.length
    (offsetAt s.disk (s.open_file_table i) f)
  rw [hneed] at hblocks hfree
  rw [tfsWrite_written h.inv hget hin hlen]
  simp only
  generalize offsetAt s.disk (s.open_file_table i) f = o at *
  refine ⟨_, blocksWithin_isGreatest _ _ _, by omega, ?_⟩
  by_cases hn : min buffer.length (MAX_FILE_SIZE - o) = 0
  · have hnone : saveToWrite buffer.length o = 0 := hsave.trans hn
    unfold writtenDisk
    rw [copied_of_nothing hnone]
    simp only [hn, hnone, if_true, fillEntry]
    exact ⟨Int.natCast_zero, trivial, Nat.add_zero _⟩
  · have hsome : ¬ saveToWrite buffer.length o = 0 := by rwa [hsave]
    unfold writtenDisk
    simp only [hn, hsome, if_false, fillEntry]
    refine ⟨?_, ?_, hfree⟩
    · unfold copied room
      rw [hblocks, hsave]
      unfold BLOCK_SIZE
      omega
    · rw [sizeSet_blocksAlloc]
      exact hblocks

theorem two_bytes_are_counted : (tfsWrite oneByteWritten 0 [8, 9]).1 = 2 := by
  have ho : offsetAt oneByteWritten.disk (oneByteWritten.open_file_table 0) 1 = 1 := by
    rw [oneByteWritten_handle.2]
    rfl
  obtain ⟨_, _, _, hb⟩ := oneByteWritten_file
  obtain ⟨B, ⟨⟨hB, _⟩, _⟩, _, hret, _⟩ := a_short_write_is_exact oneByteWritten
    oneByteWritten_reachable 0 0 1 [8, 9] oneByteWritten_handle.1 oneByteWritten_inumber
    (by decide)
  have hn : min [(8 : UInt8), 9].length (MAX_FILE_SIZE - 1) = 2 := by decide
  rw [ho, hn, if_neg (by decide)] at hret
  rw [hret]
  unfold BLOCK_SIZE
  omega

end tecnicofs.parte1
