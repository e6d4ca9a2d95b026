-- What a read gives: the bytes from the offset on, as far as the file goes. Behind
-- the end of the file the difference of size and offset wraps, and the read goes
-- wrong in one way or another.
import TecnicoFS.Parte1.Invariant

open byte_memory block_map

namespace tecnicofs.parte1

/-- How many bytes a read at offset `o` of a file of this size is to give. -/
def readCount (size o len : Nat) : Nat := if o ≤ size then min len (size - o) else 0

/-- The read of `len` bytes through slot `i`, on file `f`, gives the bytes of the file from the
offset on and moves the offset behind them. -/
def ReadsFile (s : State) (i f len : Nat) : Prop :=
  let file := s.open_file_table i
  let r := readCount (s.disk.inode_table f).i_size file.of_offset len
  tfsRead s i len =
    (((r : Int), fileLoad BLOCK_SIZE (blocksOf s.disk f) s.disk.fs_data file.of_offset r),
      fillEntry s i { file with of_offset := file.of_offset + r })

/-- There is nothing to read, or the offset is inside the file and the blocks of the file hold
what is to be read. -/
def InsideBlocks (s : State) (i f len : Nat) : Prop :=
  let size := (s.disk.inode_table f).i_size
  let o := (s.open_file_table i).of_offset
  len = 0 ∨ o = size ∨ (o < size ∧ o + min len (size - o) ≤ room s.disk f)

theorem ReadsFile.nonneg {s : State} {i f len : Nat} (h : ReadsFile s i f len) :
    0 ≤ (tfsRead s i len).1.1 := by
  unfold ReadsFile at h
  rw [h]
  exact Int.natCast_nonneg _

/-- Inside the file the difference does not wrap. -/
theorem toReadSave_inside {d : Disk} {f o : Nat} (len : Nat) (ho : o ≤ (d.inode_table f).i_size)
    (hsize : (d.inode_table f).i_size ≤ MAX_FILE_SIZE) :
    toReadSave d f o len = min len ((d.inode_table f).i_size - o) := by
  unfold MAX_FILE_SIZE at hsize
  unfold toReadSave
  rw [sizeT_sub ho (by omega)]
  split <;> omega

/-- Behind the end of the file there is something to read. -/
theorem toReadSave_behind {d : Disk} {f o len : Nat} (ho : (d.inode_table f).i_size < o)
    (hmax : o ≤ MAX_FILE_SIZE) (hlen : 0 < len) : 0 < toReadSave d f o len := by
  unfold MAX_FILE_SIZE at hmax
  unfold toReadSave
  rw [sizeT_sub_wrap ho (by omega)]
  split <;> omega

theorem toReadSave_zero (d : Disk) (f o : Nat) : toReadSave d f o 0 = 0 := by
  unfold toReadSave
  split <;> omega

section
variable {s : State} (h : Inv s) {i f : Nat} (hget : getOpenFileEntry s i = some i)
  (hin : (s.open_file_table i).of_inumber = f)
include h hget hin

variable (hmode : (s.open_file_table i).isAppending = false)
include hmode

theorem tfsRead_handle (len : Nat) :
    tfsRead s i len =
      let o := (s.open_file_table i).of_offset
      let n := toReadSave s.disk f o len
      let bytes := fileLoad BLOCK_SIZE (blocksOf s.disk f) s.disk.fs_data o (min n (room s.disk f - o))
      if room s.disk f - o < n then ((-1, bytes), s)
      else (((n : Int), bytes), fillEntry s i { s.open_file_table i with of_offset := o + n }) := by
  have hsame : fillEntry s i (s.open_file_table i) = s := by
    unfold fillEntry
    rw [Function.update_eq_self]
  have hf := (h.open_on_file hget hin).1
  unfold tfsRead
  simp only [hget, hin, inodeGet_file hf, hmode, Bool.false_eq_true, if_false,
    readCritical_eq h.disk hf]
  split
  · rw [hsame]
  · rfl

theorem readsFile_of_insideBlocks {len : Nat} (hok : InsideBlocks s i f len) :
    ReadsFile s i f len := by
  obtain ⟨hf, hmax⟩ := h.open_on_file hget hin
  have hsize := h.size_le f hf
  have hcount : toReadSave s.disk f (s.open_file_table i).of_offset len =
      readCount (s.disk.inode_table f).i_size (s.open_file_table i).of_offset len := by
    unfold readCount
    split
    · rename_i hle
      exact toReadSave_inside len hle hsize
    · have hlen : len = 0 := by
        rcases hok with h0 | heq | ⟨hlt, _⟩ <;> omega
      rw [hlen]
      exact toReadSave_zero ..
  have hfits : ¬ room s.disk f - (s.open_file_table i).of_offset <
      readCount (s.disk.inode_table f).i_size (s.open_file_table i).of_offset len := by
    unfold readCount
    rcases hok with h0 | heq | ⟨hlt, hin⟩ <;> split <;> omega
  unfold ReadsFile
  rw [tfsRead_handle h hget hin hmode]
  simp only [hcount, hfits, if_false]
  rw [Nat.min_eq_left (by omega)]

theorem insideBlocks_of_readsFile {len : Nat} (hr : ReadsFile s i f len) :
    InsideBlocks s i f len := by
  obtain ⟨hf, hmax⟩ := h.open_on_file hget hin
  have hsize := h.size_le f hf
  have hret := congrArg (fun r => r.1.1) hr
  rw [tfsRead_handle h hget hin hmode] at hret
  simp only at hret
  unfold InsideBlocks
  split at hret
  · -- the read has failed, but no count is -1
    simp only at hret
    omega
  · rename_i hfits
    have hcount : toReadSave s.disk f (s.open_file_table i).of_offset len =
        readCount (s.disk.inode_table f).i_size (s.open_file_table i).of_offset len := by
      simp only at hret
      omega
    by_cases hle : (s.open_file_table i).of_offset ≤ (s.disk.inode_table f).i_size
    · rw [toReadSave_inside len hle hsize] at hfits
      simp only
      omega
    · rcases Nat.eq_zero_or_pos len with hlen | hlen
      · exact Or.inl hlen
      · have hpos := toReadSave_behind (Nat.lt_of_not_le hle) hmax hlen
        unfold readCount at hcount
        rw [if_neg hle] at hcount
        omega

end

/-- A read through an open handle that does not append gives the bytes of the file exactly if
there is nothing to read, or the offset is inside the file and the blocks of the file hold what is
to be read. -/
theorem a_read_gives_the_file_inside_its_blocks (s : State) (h : Reachable s) (i f len : Nat)
    (hget : getOpenFileEntry s i = some i) (hmode : (s.open_file_table i).isAppending = false)
    (hin : (s.open_file_table i).of_inumber = f) :
    ReadsFile s i f len ↔ InsideBlocks s i f len :=
  ⟨insideBlocks_of_readsFile h.inv hget hin hmode, readsFile_of_insideBlocks h.inv hget hin hmode⟩

theorem a_text_is_read_from_its_start :
    (tfsRead helloWritten 1 8).1 = (5, hello) ∧ ReadsFile helloWritten 1 1 8 :=
  have hmode : (helloWritten.open_file_table 1).isAppending = false :=
    congrArg OpenFileEntry.isAppending helloWritten_handle.2
  have hin : (helloWritten.open_file_table 1).of_inumber = (1 : Nat) :=
    congrArg OpenFileEntry.of_inumber helloWritten_handle.2
  ⟨by decide +kernel,
    (a_read_gives_the_file_inside_its_blocks helloWritten helloWritten_reachable 1 1 8
      helloWritten_handle.1 hmode hin).mpr
        (Or.inr (Or.inr ⟨by decide +kernel, by decide +kernel⟩))⟩

/-- `/f` is truncated through another handle while handle 0 is at offset 1. -/
def offsetBehindEnd : State := (exec oneByteWritten (.tfsOpen (some pathF) TFS_O_TRUNC)).2

theorem offsetBehindEnd_reachable : Reachable offsetBehindEnd := by
  rw [offsetBehindEnd]
  exact runs.Reachable.step _ oneByteWritten_reachable

theorem a_read_behind_the_end_fails :
    Reachable offsetBehindEnd ∧ getOpenFileEntry offsetBehindEnd 0 = some 0 ∧
      (tfsRead offsetBehindEnd 0 1).1.1 = -1 ∧ ¬ ReadsFile offsetBehindEnd 0 1 1 := by
  refine ⟨offsetBehindEnd_reachable, by decide +kernel, by decide +kernel, fun h => ?_⟩
  exact absurd h.nonneg (by decide +kernel)

end tecnicofs.parte1
