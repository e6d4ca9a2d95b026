-- Append mode. A handle that has the mode writes at the end of the file, wherever
-- other handles have moved that end. An open that creates its file forgets the mode.
import TecnicoFS.Parte1.Names
import TecnicoFS.Parte1.Writes

open byte_memory block_map

namespace tecnicofs.parte1

/-! ## A handle stays as it was opened -/

/-- The handle is open on the inode, in the given mode. -/
def OpenOn (s : State) (fhandle inumber : Int) (isAppending : Bool) : Prop :=
  ∃ offset, OpenAs s fhandle ⟨inumber, offset, isAppending⟩

section
variable {s : State} {keep inumber : Int} {a : Bool} (ho : OpenOn s keep inumber a)
include ho

/-- A new offset in any slot is not a new file and not a new mode. -/
theorem OpenOn.fillEntry {i : Nat} {e : OpenFileEntry} (d : Disk)
    (he : e.of_inumber = (s.open_file_table i).of_inumber ∧
      e.isAppending = (s.open_file_table i).isAppending) :
    OpenOn (fillEntry { s with disk := d } i e) keep inumber a := by
  obtain ⟨offset, k, hk, hek⟩ := ho
  by_cases hki : k = i
  · subst hki
    rw [hek] at he
    obtain ⟨n, o, m⟩ := e
    obtain ⟨rfl, rfl⟩ : n = inumber ∧ m = a := he
    refine ⟨o, k, getOpenFileEntry_eq_some.mpr (getOpenFileEntry_eq_some.mp hk), ?_⟩
    simp only [parte1.fillEntry, Function.update_self]
  · refine ⟨offset, k, getOpenFileEntry_eq_some.mpr (getOpenFileEntry_eq_some.mp hk), ?_⟩
    simp only [parte1.fillEntry, Function.update_of_ne hki, hek]

theorem OpenOn.tfsWrite (h : Inv s) (fhandle : Int) (buffer : List UInt8) :
    OpenOn (tfsWrite s fhandle buffer).2 keep inumber a := by
  rcases tfsWrite_cases h fhandle buffer with ⟨_, hr⟩ | ⟨i, f, _, _, _, hr⟩ <;> rw [hr]
  · exact ho
  · apply ho.fillEntry
    exact writeCritical_mode ..

theorem OpenOn.tfsRead (h : Inv s) (fhandle : Int) (len : Nat) :
    OpenOn (tfsRead s fhandle len).2 keep inumber a := by
  rcases tfsRead_cases h fhandle len with ⟨_, hr⟩ | ⟨i, f, _, _, _, hr⟩ <;> rw [hr]
  · exact ho
  · split
    · exact ho
    · apply ho.fillEntry s.disk
      exact readCritical_mode ..

/-- Only its close ends what a handle stands for. -/
theorem OpenOn.exec (h : Inv s) {op : Op} (hop : op ≠ .tfsClose keep) :
    OpenOn (exec s op).2 keep inumber a := by
  cases op with
  | tfsOpen name flags =>
    obtain ⟨offset, ho⟩ := ho
    exact ⟨offset, (ho.tfsOpen h name flags).1⟩
  | tfsClose fhandle =>
    obtain ⟨offset, ho⟩ := ho
    refine ⟨offset, ho.tfsClose ?_⟩
    rintro rfl
    exact hop rfl
  | tfsRead fhandle len => exact ho.tfsRead h fhandle len
  | tfsWrite fhandle buffer => exact ho.tfsWrite h fhandle buffer
  | tfsCopyToExternalFs source_path destOpens =>
    obtain ⟨offset, k, hk, he⟩ := ho
    obtain ⟨_, hlt, ht⟩ := getOpenFileEntry_eq_some.mp hk
    obtain ⟨f, _, hf, _⟩ := h.handle k hlt ht
    exact ⟨offset, (tfsCopy_elsewhere h hf source_path destOpens).2 keep _ ⟨k, hk, he⟩⟩

theorem OpenOn.afterCalls (h : Inv s) {ops : List Op} (hops : Op.tfsClose keep ∉ ops) :
    OpenOn (afterCalls s ops) keep inumber a := by
  induction ops generalizing s with
  | nil => exact ho
  | cons op ops ih =>
    rw [List.mem_cons, not_or] at hops
    exact ih (ho.exec h (Ne.symm hops.1)) (h.exec op) hops.2

end

/-- The mode of a handle from an open with `TFS_O_APPEND`. It is set if the file was there. -/
theorem tfsOpen_mode {s : State} (h : Inv s) {path : CString} {flags : BitVec 32}
    (hflag : hasFlag flags TFS_O_APPEND = true) (hok : 0 ≤ (tfsOpen s (some path) flags).1) :
    OpenOn (tfsOpen s (some path) flags).2 (tfsOpen s (some path) flags).1
      (openedInode (tfsOpen s (some path) flags)) (decide (0 ≤ tfsLookup s.disk path)) := by
  rcases tfsOpen_ok_cases h.disk hok with ⟨f, hl, _, hr⟩ | ⟨i, j, _, hl, _, _, hr⟩
  · have hmode : (initialOffset (afterTrunc s.disk flags f) flags f).2 = true := by
      unfold initialOffset
      rw [hflag]
      rfl
    rw [hmode] at hr
    rw [hr] at hok ⊢
    have ho := OpenAs.added hok
    rw [ho.openedInode, hl, decide_eq_true (Int.natCast_nonneg f)]
    exact ⟨_, ho⟩
  · rw [hr] at hok ⊢
    have ho := OpenAs.added hok
    rw [ho.openedInode, hl, decide_eq_false not_zero_le_neg_one]
    exact ⟨_, ho⟩

/-! ## A write that appends -/

/-- The write through slot `i` starts at the size that file `f` has then, changes no byte below
it, and makes the file larger by the count that it returns. A return of -1 counts as 0. -/
structure Appends (s : State) (i f : Nat) (buffer : List UInt8) : Prop where
  starts : ((tfsWrite s i buffer).2.open_file_table i).of_offset =
    (s.disk.inode_table f).i_size + (tfsWrite s i buffer).1.toNat
  below : ∀ p < (s.disk.inode_table f).i_size, p < room s.disk f →
    PositionSame f p s.disk (tfsWrite s i buffer).2.disk
  written : ∀ j < (tfsWrite s i buffer).1.toNat,
    buffer[j]? = some (byteAt (tfsWrite s i buffer).2.disk f ((s.disk.inode_table f).i_size + j))
  size : ((tfsWrite s i buffer).2.disk.inode_table f).i_size =
    (s.disk.inode_table f).i_size + (tfsWrite s i buffer).1.toNat

/-- A write copies its bytes, or runs behind the last block that a file can have. -/
theorem writeCritical_ends {d : Disk} {f : Nat} (h : DiskInv d) (hf : FileInode d f)
    (file : OpenFileEntry) (buffer : List UInt8) :
    let o := offsetAt d file f
    let k := copied d f buffer.length o
    writeCritical d file f buffer =
        ((k : Int), writtenDisk d f o buffer, { file with of_offset := o + k }) ∨
      writeCritical d file f buffer = (-1, stored (grownFor d f buffer.length o) f o (buffer.take k),
        { file with of_offset := o }) := by
  rw [writeCritical_eq h hf]
  unfold writtenDisk
  simp only
  by_cases hsave : saveToWrite buffer.length (offsetAt d file f) = 0
  · simp only [hsave, if_true, copied_of_nothing hsave]
    exact Or.inl rfl
  · simp only [hsave, if_false]
    split
    · exact Or.inr rfl
    · exact Or.inl rfl

section
variable {s : State} (h : Inv s) {i f : Nat} (hget : getOpenFileEntry s i = some i)
  (hin : (s.open_file_table i).of_inumber = f) (buffer : List UInt8)
include h hget hin

theorem tfsWrite_ends :
    let file := s.open_file_table i
    let o := offsetAt s.disk file f
    let k := copied s.disk f buffer.length o
    tfsWrite s i buffer = ((k : Int), fillEntry { s with disk := writtenDisk s.disk f o buffer } i
        { file with of_offset := o + k }) ∨
      tfsWrite s i buffer = (-1, fillEntry
        { s with disk := stored (grownFor s.disk f buffer.length o) f o (buffer.take k) } i
        { file with of_offset := o }) := by
  obtain ⟨hf, _⟩ := handle_on_file h hget hin
  unfold tfsWrite
  simp only [hget, hin, inodeGet_file hf]
  rcases writeCritical_ends h.disk hf (s.open_file_table i) buffer with hr | hr <;> rw [hr, hin]
  · exact Or.inl rfl
  · exact Or.inr rfl

/-- A write appends exactly if it starts at the end of the file. -/
theorem appends_iff :
    Appends s i f buffer ↔
      offsetAt s.disk (s.open_file_table i) f = (s.disk.inode_table f).i_size := by
  obtain ⟨hf, ho⟩ := handle_on_file h hget hin
  have hdisk := h.disk
  constructor
  · rintro ⟨hstart, _, _, _⟩
    rcases tfsWrite_ends h hget hin buffer with hr | hr <;> rw [hr] at hstart
    · simp only [fillEntry, Function.update_self, Int.toNat_natCast] at hstart
      omega
    · simp only [fillEntry, Function.update_self] at hstart
      exact hstart
  · intro hend
    rw [hend] at ho
    rcases tfsWrite_ends h hget hin buffer with hr | hr <;> rw [hend] at hr
    · refine ⟨?_, fun p hlt hp => ?_, fun j hj => ?_, ?_⟩ <;> rw [hr] at *
      · simp only [fillEntry, Function.update_self, Int.toNat_natCast]
      · exact writtenDisk_position hdisk hf _ buffer hp (Or.inl hlt)
      · rw [Int.toNat_natCast] at hj
        have hbyte := (writtenDisk_byteAt hdisk hf _ buffer ho
          ⟨Nat.le_add_right _ j, Nat.add_lt_add_left hj _⟩).2
        rwa [Nat.add_sub_cancel_left] at hbyte
      · exact writtenDisk_size_end hdisk hf buffer
    · obtain ⟨hinv, hg⟩ := grownFor_spec hdisk hf buffer.length (s.disk.inode_table f).i_size
      refine ⟨?_, fun p hlt hp => ?_, fun j hj => ?_, ?_⟩ <;> rw [hr] at *
      · simp only [fillEntry, Function.update_self]
        rfl
      · have hgrown := hg.position hf hp
        exact hgrown.trans (stored_position hinv ((hg.fileInode f).mpr hf)
          (copied_inRoom s.disk f _ buffer) hgrown.lt_room (Or.inl hlt))
      · exact absurd hj (Nat.not_lt_zero j)
      · exact hg.size

end

/-! ## The law -/

/-- A write through a handle from an open with `TFS_O_APPEND` appends, whatever was called in
between, if the file was there when it was opened. If the open created the file, the write appends
only when the offset happens to be at the end of the file. -/
theorem an_append_handle_forgets_its_mode_on_a_new_file (s : State) (h : Reachable s)
    (path : CString) (flags : BitVec 32) (ops : List Op) (buffer : List UInt8) (i f : Nat)
    (hflag : hasFlag flags TFS_O_APPEND = true) (hopen : (tfsOpen s (some path) flags).1 = i)
    (hin : openedInode (tfsOpen s (some path) flags) = f) (hops : Op.tfsClose i ∉ ops) :
    let t := afterCalls (tfsOpen s (some path) flags).2 ops
    Appends t i f buffer ↔ 0 ≤ tfsLookup s.disk path ∨
      (t.open_file_table i).of_offset = (t.disk.inode_table f).i_size := by
  have hmode := tfsOpen_mode h.inv hflag (hopen ▸ Int.natCast_nonneg i)
  rw [hin, hopen] at hmode
  have hinv := h.inv.tfsOpen (some path) flags
  obtain ⟨offset, k, hk, he⟩ := hmode.afterCalls hinv hops
  have hopened : Reachable (exec s (.tfsOpen (some path) flags)).2 := runs.Reachable.step _ h
  have hafter : Reachable (afterCalls (tfsOpen s (some path) flags).2 ops) :=
    runs.Reachable.run hopened ops
  obtain ⟨hki, _, _⟩ := getOpenFileEntry_eq_some.mp hk
  obtain rfl : i = k := by omega
  simp only
  rw [appends_iff hafter.inv hk (by rw [he])]
  unfold offsetAt
  rw [he]
  simp only [decide_eq_true_eq]
  split
  · simp only [true_iff]
    exact Or.inl ‹_›
  · rename_i hnew
    simp only [hnew, false_or]

/-- The calls between the open of a new `/f` and the write through its handle: three bytes get
into the file through another handle. -/
def threeBytesElsewhere : List Op := [.tfsOpen (some pathF) 0, .tfsWrite 1 [1, 2, 3]]

theorem a_write_to_a_file_that_was_there_appends :
    Appends (afterCalls (tfsOpen oneByteWritten (some pathF) TFS_O_APPEND).2 [.tfsWrite 0 [8]]) 1 1
      [9] :=
  have hfound : 0 ≤ tfsLookup oneByteWritten.disk pathF := by
    rw [oneByteWritten_file.2.1]
    decide
  (an_append_handle_forgets_its_mode_on_a_new_file oneByteWritten oneByteWritten_reachable pathF
    TFS_O_APPEND [.tfsWrite 0 [8]] [9] 1 1 (by decide) (by decide +kernel) (by decide +kernel)
    (by decide)).mpr (Or.inl hfound)

/-- The handle is from the open that created `/f`, with `TFS_O_APPEND`. Its write goes over the
first byte of the three. -/
theorem a_write_to_a_new_file_does_not_append :
    Reachable (tfsInit zeroed).2 ∧ hasFlag (TFS_O_CREAT ||| TFS_O_APPEND) TFS_O_APPEND = true ∧
      (tfsOpen (tfsInit zeroed).2 (some pathF) (TFS_O_CREAT ||| TFS_O_APPEND)).1 = 0 ∧
      openedInode (tfsOpen (tfsInit zeroed).2 (some pathF) (TFS_O_CREAT ||| TFS_O_APPEND)) = 1 ∧
      Op.tfsClose 0 ∉ threeBytesElsewhere ∧
      ¬ Appends (afterCalls (tfsOpen (tfsInit zeroed).2 (some pathF)
        (TFS_O_CREAT ||| TFS_O_APPEND)).2 threeBytesElsewhere) 0 1 [9] := by
  refine ⟨.start ⟨zeroed, rfl⟩, by decide, by decide +kernel, by decide +kernel, by decide,
    fun h => ?_⟩
  exact absurd h.size (by decide +kernel)

end tecnicofs.parte1
