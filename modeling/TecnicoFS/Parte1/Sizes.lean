-- Size and blocks of a file. They agree until a write starts behind the blocks that its
-- file can get: it stores nothing there, and yet moves the size up to its offset.
import TecnicoFS.Parte1.FreeBlocks
import TecnicoFS.Parte1.Frames
import TecnicoFS.Parte1.Reads

open byte_memory block_map

namespace tecnicofs.parte1

/-! ## The law -/

/-- Every file has as many blocks as its size needs. -/
def BlocksMatch (d : Disk) : Prop :=
  ∀ f, FileInode d f →
    (d.inode_table f).blocksAlloc = divCeil (d.inode_table f).i_size BLOCK_SIZE

/-- Size and blocks agree: each byte of a file lies in a block of its own, and a read that does
not start behind the end of its file does not fail. -/
structure SizesAgree (s : State) : Prop where
  match_blocks : BlocksMatch s.disk
  backed : ∀ f, FileInode s.disk f → ∀ p < (s.disk.inode_table f).i_size,
    p / BLOCK_SIZE < (s.disk.inode_table f).blocksAlloc ∧
      TakenBlock s.disk (blockNo s.disk f (p / BLOCK_SIZE))
  read : ∀ i f len : Nat, getOpenFileEntry s i = some i → (s.open_file_table i).of_inumber = f →
    (s.open_file_table i).of_offset ≤ (s.disk.inode_table f).i_size →
    (tfsRead s i len).1.1 ≠ -1

theorem divCeil_eq_iff {m n : Nat} :
    divCeil m BLOCK_SIZE = n ↔ m ≤ n * BLOCK_SIZE ∧ n * BLOCK_SIZE < m + BLOCK_SIZE := by
  unfold divCeil BLOCK_SIZE
  split <;> omega

theorem BlocksMatch.size_le_room {d : Disk} (hb : BlocksMatch d) {f : Nat} (hf : FileInode d f) :
    (d.inode_table f).i_size ≤ room d f := (divCeil_eq_iff.mp (hb f hf).symm).1

section
variable {s : State} (hb : BlocksMatch s.disk) (h : Inv s)
include hb h

theorem BlocksMatch.read {i f : Nat} (len : Nat) (hget : getOpenFileEntry s i = some i)
    (hin : (s.open_file_table i).of_inumber = f)
    (ho : (s.open_file_table i).of_offset ≤ (s.disk.inode_table f).i_size) :
    (tfsRead s i len).1.1 ≠ -1 := by
  obtain ⟨hf, _⟩ := h.open_on_file hget hin
  have hroom := hb.size_le_room hf
  rcases Bool.eq_false_or_eq_true (s.open_file_table i).isAppending with hmode | hmode
  · -- a handle that appends reads nothing
    unfold tfsRead
    simp [hget, hin, inodeGet_file hf, hmode]
  · have hinside : InsideBlocks s i f len := by
      unfold InsideBlocks
      simp only
      omega
    have := (readsFile_of_insideBlocks h hget hin hmode hinside).nonneg
    omega

theorem BlocksMatch.sizesAgree : SizesAgree s where
  match_blocks := hb
  backed := by
    intro f hf p hp
    have hroom := hb.size_le_room hf
    have hlt : p / BLOCK_SIZE < (s.disk.inode_table f).blocksAlloc := by
      unfold room BLOCK_SIZE at *
      omega
    exact ⟨hlt, h.disk.exact.taken_of_own (ownedBlock_data hf hlt)⟩
  read := fun i f len hget hin ho => hb.read h len hget hin ho

end

/-! ## What does not write -/

theorem BlocksMatch.of_inode {d d' : Disk} (h : BlocksMatch d)
    (hd : ∀ f, FileInode d' f → FileInode d f ∧ d'.inode_table f = d.inode_table f ∨
      (d'.inode_table f).i_size = 0 ∧ (d'.inode_table f).blocksAlloc = 0) : BlocksMatch d' := by
  intro f hf
  rcases hd f hf with ⟨hf', he⟩ | ⟨hsize, hblocks⟩
  · rw [he]
    exact h f hf'
  · rw [hsize, hblocks]
    exact (divCeil_eq_iff.mpr ⟨le_rfl, by decide⟩).symm

theorem BlocksMatch.afterTrunc {d : Disk} (h : BlocksMatch d) (flags : BitVec 32) (f : Nat) :
    BlocksMatch (afterTrunc d flags f) := by
  apply h.of_inode
  intro g hg
  rw [afterTrunc_fileInode] at hg
  unfold parte1.afterTrunc
  split
  · by_cases hgf : g = f
    · subst hgf
      exact Or.inr (by simp [truncated])
    · exact Or.inl ⟨hg, truncated_of_ne d hgf⟩
  · exact Or.inl ⟨hg, rfl⟩

theorem BlocksMatch.undone {d : Disk} (h : BlocksMatch d) {i : Nat} (hi : FreeInode d i) :
    BlocksMatch (undone d i) := by
  apply h.of_inode
  intro f hf
  have hf' := (undone_fileInode hi f).mp hf
  refine Or.inl ⟨hf', ?_⟩
  simp only [parte1.undone, Disk.setFreeinode_inode, freshFile_of_ne _ (hi.not_file hf')]

theorem BlocksMatch.createdFile {d : Disk} (h : BlocksMatch d) {i : Nat} (hi : FreeInode d i)
    (j : Nat) (name : CString) : BlocksMatch (createdFile d i j name) := by
  apply h.of_inode
  intro f hf
  by_cases hfi : f = i
  · subst hfi
    exact Or.inr (by simp [parte1.createdFile, freshFile])
  · have hf' := ((createdFile_fileInode hi name f).mp hf).resolve_right hfi
    exact Or.inl ⟨hf', freshFile_of_ne d hfi⟩

theorem BlocksMatch.tfsOpen {s : State} (hb : BlocksMatch s.disk) (h : Inv s)
    (name : Option CString) (flags : BitVec 32) : BlocksMatch (tfsOpen s name flags).2.disk := by
  rcases tfsOpen_cases h.disk name flags with hr | ⟨i, hi, hr⟩ | ⟨path, f, _, _, _, hr⟩ |
    ⟨path, i, j, _, _, _, hi, _, hr⟩ <;> rw [hr]
  · exact hb
  · exact hb.undone hi
  · rw [addToOpenFileTable_disk]
    exact hb.afterTrunc flags f
  · rw [addToOpenFileTable_disk]
    exact hb.createdFile hi j path

theorem BlocksMatch.tfsCopyToExternalFs {s : State} (hb : BlocksMatch s.disk) (h : Inv s)
    (source_path : Option CString) (destOpens : Bool) :
    BlocksMatch (tfsCopyToExternalFs s source_path destOpens).2.disk := by
  unfold parte1.tfsCopyToExternalFs
  cases source_path with
  | none => exact hb
  | some path =>
    have ho := hb.tfsOpen h (some path) TFS_O_CREAT
    have hinv := h.tfsOpen (some path) TFS_O_CREAT
    simp only
    split
    · exact hb
    · split
      · exact ho
      · split
        · rw [tfsClose_disk]
          exact ho
        · split
          · rw [copyLoop_disk hinv]
            exact ho
          · rw [tfsClose_disk, copyLoop_disk hinv]
            exact ho

/-! ## What a write does -/

/-- The blocks that a file has once a write of `len` bytes at `o` got as many as it can. -/
def blocksFor (d : Disk) (f len o : Nat) : Nat :=
  blocksWithin (d.inode_table f).blocksAlloc (divCeil (sizeNeeded len o) BLOCK_SIZE) (freeCount d)

/-- With `n` blocks, a write of `len` bytes at `o` runs behind the last block that a file can
have. Only a length that makes the sums wrap leads there. -/
def RunsOut (n len o : Nat) : Prop :=
  n * BLOCK_SIZE - o < saveToWrite len o ∧ MAX_FILE_SIZE ≤ o + (n * BLOCK_SIZE - o)

instance (n len o : Nat) : Decidable (RunsOut n len o) := inferInstanceAs (Decidable (_ ∧ _))

/-- A write of `len` bytes at `o` has nothing to write, or starts inside the blocks that its file
can get. A write that runs out of blocks, and fails, must have got none. -/
def WriteBacked (d : Disk) (f len o : Nat) : Prop :=
  let n := blocksFor d f len o
  saveToWrite len o = 0 ∨
    if RunsOut n len o then n = (d.inode_table f).blocksAlloc else o ≤ n * BLOCK_SIZE

instance (d : Disk) (f len o : Nat) : Decidable (WriteBacked d f len o) :=
  inferInstanceAs (Decidable (_ ∨ ite (RunsOut (blocksFor d f len o) len o) _ _))

/-- The condition on a call: a write is backed. -/
def StaysBacked (s : State) : Op → Prop
  | .tfsWrite fhandle buffer => ∀ i f : Nat, getOpenFileEntry s fhandle = some i →
      (s.open_file_table i).of_inumber = f →
      WriteBacked s.disk f buffer.length (offsetAt s.disk (s.open_file_table i) f)
  | _ => True

section
variable {d : Disk} {f : Nat} (h : DiskInv d) (hf : FileInode d f) (file : OpenFileEntry)
  (buffer : List UInt8)
include h hf

/-- The blocks and the size that a write leaves. -/
theorem writeCritical_sizes :
    let o := offsetAt d file f
    let save := saveToWrite buffer.length o
    let n := blocksFor d f buffer.length o
    let d' := (writeCritical d file f buffer).2.1
    (d'.inode_table f).blocksAlloc = (if save = 0 then (d.inode_table f).blocksAlloc else n) ∧
      (d'.inode_table f).i_size =
        if save = 0 ∨ RunsOut n buffer.length o then (d.inode_table f).i_size
        else max (d.inode_table f).i_size (o + min save (n * BLOCK_SIZE - o)) := by
  have hblocks : ((grownFor d f buffer.length (offsetAt d file f)).inode_table f).blocksAlloc =
      blocksFor d f buffer.length (offsetAt d file f) := (grownFor_count h hf _ _).1
  have hsize := (grownFor_spec h hf buffer.length (offsetAt d file f)).2.size
  rw [writeCritical_eq h hf]
  simp only [RanOut, RunsOut, copied, room, hblocks]
  by_cases hsave : saveToWrite buffer.length (offsetAt d file f) = 0
  · simp only [hsave, true_or, if_true]
    exact ⟨trivial, trivial⟩
  · simp only [hsave, false_or, if_false]
    split
    · exact ⟨hblocks, hsize⟩
    · refine ⟨?_, ?_⟩
      · rw [sizeSet_blocksAlloc]
        exact hblocks
      · rw [sizeSet_self]
        simp only [stored, hsize]

/-- A write keeps the agreement of its file exactly if it is backed. -/
theorem writeCritical_match_iff
    (hb : (d.inode_table f).blocksAlloc = divCeil (d.inode_table f).i_size BLOCK_SIZE) :
    (((writeCritical d file f buffer).2.1.inode_table f).blocksAlloc =
        divCeil ((writeCritical d file f buffer).2.1.inode_table f).i_size BLOCK_SIZE) ↔
      WriteBacked d f buffer.length (offsetAt d file f) := by
  obtain ⟨hblocks, hsize⟩ := writeCritical_sizes h hf file buffer
  rw [hblocks, hsize]
  unfold WriteBacked
  by_cases hsave : saveToWrite buffer.length (offsetAt d file f) = 0
  · simp only [hsave, if_true, true_or, iff_true]
    exact hb
  simp only [hsave, if_false, false_or]
  have hge := le_blocksWithin (d.inode_table f).blocksAlloc
    (divCeil (sizeNeeded buffer.length (offsetAt d file f)) BLOCK_SIZE) (freeCount d)
  have hle := blocksWithin_le (d.inode_table f).blocksAlloc
    (divCeil (sizeNeeded buffer.length (offsetAt d file f)) BLOCK_SIZE) (freeCount d)
  rw [← blocksFor] at hge hle
  split
  · -- the write has failed, and the size is the old one
    rw [← hb]
  · have hneed := divCeil_eq_iff.mp
      (rfl : divCeil (sizeNeeded buffer.length (offsetAt d file f)) BLOCK_SIZE = _)
    have hold := divCeil_eq_iff.mp hb.symm
    have hmax := sizeNeeded_le buffer.length (offsetAt d file f)
    have hwant : sizeNeeded buffer.length (offsetAt d file f) - offsetAt d file f ≤
        saveToWrite buffer.length (offsetAt d file f) := by
      unfold saveToWrite
      unfold MAX_FILE_SIZE at *
      by_cases hle : offsetAt d file f ≤ sizeNeeded buffer.length (offsetAt d file f)
      · rw [sizeT_sub hle (by omega)]
      · omega
    rw [eq_comm, divCeil_eq_iff]
    generalize divCeil (sizeNeeded buffer.length (offsetAt d file f)) BLOCK_SIZE = c at *
    unfold BLOCK_SIZE at *
    omega

end

theorem BlocksMatch.tfsWrite_iff {s : State} (hb : BlocksMatch s.disk) (h : Inv s) (fhandle : Int)
    (buffer : List UInt8) :
    BlocksMatch (tfsWrite s fhandle buffer).2.disk ↔ StaysBacked s (.tfsWrite fhandle buffer) := by
  rcases tfsWrite_cases h fhandle buffer with ⟨hget, hr⟩ | ⟨i, f, hget, hin, hf, hr⟩
  · rw [hr]
    unfold StaysBacked
    simp [hget, hb]
  · have hiff := writeCritical_match_iff h.disk hf (s.open_file_table i) buffer (hb f hf)
    obtain ⟨_, hfiles, _⟩ := writeCritical_inv h.disk hf (s.open_file_table i) buffer
    have hstays : StaysBacked s (.tfsWrite fhandle buffer) ↔
        WriteBacked s.disk f buffer.length (offsetAt s.disk (s.open_file_table i) f) := by
      constructor
      · exact fun hs => hs i f hget hin
      · intro hw j g hj hg
        obtain rfl : i = j := by simpa [hget] using hj
        obtain rfl : f = g := by omega
        exact hw
    rw [hr, hstays, ← hiff]
    constructor
    · exact fun hm => hm f ((hfiles f).mpr hf)
    · intro hmatch g hg
      by_cases hgf : g = f
      · subst hgf
        exact hmatch
      · have hsame := writeCritical_inode_other h.disk hf (s.open_file_table i) buffer hgf
        simp only [fillEntry, hsame]
        exact hb g ((hfiles g).mp hg)

/-! ## Runs -/

theorem BlocksMatch.exec_iff {s : State} (hb : BlocksMatch s.disk) (h : Inv s) (op : Op) :
    BlocksMatch (exec s op).2.disk ↔ StaysBacked s op := by
  cases op with
  | tfsOpen name flags => exact iff_of_true (hb.tfsOpen h name flags) trivial
  | tfsClose fhandle =>
    refine iff_of_true ?_ trivial
    simpa only [exec, tfsClose_disk] using hb
  | tfsRead fhandle len =>
    refine iff_of_true ?_ trivial
    simpa only [exec, tfsRead_disk h] using hb
  | tfsWrite fhandle buffer => exact hb.tfsWrite_iff h fhandle buffer
  | tfsCopyToExternalFs source_path destOpens =>
    exact iff_of_true (hb.tfsCopyToExternalFs h source_path destOpens) trivial

theorem firstDisk_blocksMatch (d : Disk) : BlocksMatch (firstDisk d) :=
  fun f hf => (firstDisk_fileInode d f hf).elim

/-- Size and blocks agree in every state of a run exactly if each of its writes starts inside the
blocks that its file can get. -/
theorem sizes_agree_while_the_writes_are_backed (s : State) (h : Initial s) (ops : List Op) :
    runs.Always exec SizesAgree s ops ↔ runs.Meets exec StaysBacked s ops := by
  have hstart : BlocksMatch s.disk := by
    obtain ⟨raw, rfl⟩ := h
    rw [tfsInit_eq]
    exact firstDisk_blocksMatch raw.disk
  refine runs.always_iff_meets (I := fun s => Inv s ∧ BlocksMatch s.disk)
    (fun t ht => ht.2.sizesAgree ht.1) (fun t op ht hok => ?_) (fun t op ht hno hbad => ?_)
    ⟨h.inv, hstart⟩
  · exact ⟨ht.1.exec op, (ht.2.exec_iff ht.1 op).mpr hok⟩
  · exact hno ((ht.2.exec_iff ht.1 op).mp hbad.match_blocks)

theorem one_byte_and_one_block :
    runs.Always exec SizesAgree (tfsInit zeroed).2
      [.tfsOpen (some pathF) TFS_O_CREAT, .tfsWrite 0 [7]] := by
  refine (sizes_agree_while_the_writes_are_backed _ ⟨zeroed, rfl⟩ _).mpr ⟨trivial, ?_, trivial⟩
  intro i f hget hin
  obtain ⟨hi, _, _⟩ := getOpenFileEntry_eq_some.mp hget
  obtain rfl : i = 0 := by omega
  obtain rfl : f = 1 := by
    have hone : ((exec (tfsInit zeroed).2 (.tfsOpen (some pathF) TFS_O_CREAT)).2.open_file_table
      0).of_inumber = 1 := by decide +kernel
    omega
  decide +kernel

/-! ## A full disk -/

/-- Handle `i` is open at offset `o` on file `f`, which has no block. -/
structure Unwritten (s : State) (i f o : Nat) : Prop where
  file : FileInode s.disk f
  slot : i < MAX_OPEN_FILES
  taken : s.free_open_file_entries i = .TAKEN
  entry : s.open_file_table i = ⟨f, o, false⟩
  size : (s.disk.inode_table f).i_size = 0
  blocks : (s.disk.inode_table f).blocksAlloc = 0

instance (s : State) (i f o : Nat) : Decidable (Unwritten s i f o) :=
  decidable_of_iff (FileInode s.disk f ∧ i < MAX_OPEN_FILES ∧
      s.free_open_file_entries i = .TAKEN ∧ s.open_file_table i = ⟨f, o, false⟩ ∧
      (s.disk.inode_table f).i_size = 0 ∧ (s.disk.inode_table f).blocksAlloc = 0)
    ⟨fun h => ⟨h.1, h.2.1, h.2.2.1, h.2.2.2.1, h.2.2.2.2.1, h.2.2.2.2.2⟩,
      fun h => ⟨h.file, h.slot, h.taken, h.entry, h.size, h.blocks⟩⟩

/-- A write of as many bytes as a file can have. -/
def filled (s : State) (i : Nat) : State :=
  (exec s (.tfsWrite i (List.replicate MAX_FILE_SIZE 7))).2

/-- The blocks that are left of `free` ones when a new file took as many as it can. -/
def leftFrom (free : Nat) : Nat := free - blocksCost 0 (blocksWithin 0 MAX_INODE_BLOCKS free)

variable {s : State}

section
variable {i f o : Nat} (hu : Unwritten s i f o)
include hu

theorem Unwritten.get : getOpenFileEntry s i = some i :=
  getOpenFileEntry_eq_some.mpr ⟨rfl, hu.slot, hu.taken⟩

theorem Unwritten.tfsWrite {fhandle : Int} (hi : fhandle = i) (buffer : List UInt8) :
    (tfsWrite s fhandle buffer).2 =
      fillEntry { s with disk := (writeCritical s.disk (s.open_file_table i) f buffer).2.1 } i
        (writeCritical s.disk (s.open_file_table i) f buffer).2.2 := by
  have hin : (s.open_file_table i).of_inumber = f := by rw [hu.entry]
  subst hi
  unfold parte1.tfsWrite
  simp only [hu.get, hin, inodeGet_file hu.file]

theorem Unwritten.offsetAt : offsetAt s.disk (s.open_file_table i) f = o := by
  simp [parte1.offsetAt, hu.entry]

variable (h : Inv s)
include h

theorem Unwritten.filled {j g o' : Nat} (hv : Unwritten s j g o') (hij : j ≠ i) (hfg : g ≠ f) :
    Unwritten (filled s i) j g o' := by
  have hother := writeCritical_inode_other h.disk hu.file (s.open_file_table i)
    (List.replicate MAX_FILE_SIZE 7) hfg
  obtain ⟨_, hfiles, _⟩ := writeCritical_inv h.disk hu.file (s.open_file_table i)
    (List.replicate MAX_FILE_SIZE 7)
  have he : parte1.filled s i = _ := hu.tfsWrite rfl (List.replicate MAX_FILE_SIZE 7)
  rw [he]
  refine ⟨(hfiles g).mpr hv.file, hv.slot, hv.taken, ?_, ?_, ?_⟩
  · simp only [fillEntry, Function.update_of_ne hij]
    exact hv.entry
  · simp only [fillEntry, hother]
    exact hv.size
  · simp only [fillEntry, hother]
    exact hv.blocks

/-- One byte at offset 1 finds no block, and yet makes the file one byte long. -/
theorem Unwritten.nothing_stored (fhandle : Int) (hi : fhandle = i) (ho : o = 1)
    (hnone : blocksFor s.disk f 1 1 = 0) :
    FileInode (parte1.tfsWrite s fhandle [7]).2.disk f ∧
      ((parte1.tfsWrite s fhandle [7]).2.disk.inode_table f).blocksAlloc = 0 ∧
      ((parte1.tfsWrite s fhandle [7]).2.disk.inode_table f).i_size = 1 := by
  obtain ⟨_, hfiles, _⟩ := writeCritical_inv h.disk hu.file (s.open_file_table i) [7]
  obtain ⟨hblocks, hsize⟩ := writeCritical_sizes h.disk hu.file (s.open_file_table i) [7]
  have hsave : saveToWrite 1 1 = 1 := by decide
  have hroom : ¬ RunsOut 0 1 1 := by decide
  rw [hu.offsetAt, ho, List.length_singleton] at hblocks hsize
  simp only [hnone, hsave, hroom, hu.size, hu.blocks] at hblocks hsize
  rw [hu.tfsWrite hi]
  exact ⟨(hfiles f).mpr hu.file, hblocks, hsize⟩

theorem Unwritten.freeCount_filled (ho : o = 0) :
    freeCount (parte1.filled s i).disk = leftFrom (freeCount s.disk) := by
  subst ho
  have hcount := (grownFor_count h.disk hu.file MAX_FILE_SIZE 0).2
  have hneed : divCeil (sizeNeeded MAX_FILE_SIZE 0) BLOCK_SIZE = MAX_INODE_BLOCKS := by decide
  have hsave : saveToWrite MAX_FILE_SIZE 0 ≠ 0 := by decide
  rw [hu.blocks, hneed] at hcount
  have he : parte1.filled s i = _ := hu.tfsWrite rfl (List.replicate MAX_FILE_SIZE 7)
  have hfree : freeCount (parte1.filled s i).disk =
      freeCount (grownFor s.disk f MAX_FILE_SIZE 0) := by
    rw [he, writeCritical_eq h.disk hu.file]
    simp only [hu.offsetAt, List.length_replicate, hsave, if_false]
    split <;> rfl
  rw [hfree]
  unfold leftFrom
  omega

end

theorem Reachable.exec (hr : Reachable s) (op : Op) : Reachable (exec s op).2 :=
  runs.Reachable.step op hr

theorem exec_tfsWrite (s : State) (fhandle : Int) (buffer : List UInt8) :
    (exec s (.tfsWrite fhandle buffer)).2 = (tfsWrite s fhandle buffer).2 := rfl

theorem filled_reachable (hr : Reachable s) (i : Nat) : Reachable (filled s i) := by
  unfold filled
  exact hr.exec _

/-- New files take what blocks they can, one after the other. Handle 0 stays where it is. -/
theorem filled_all (is : List Nat) (hr : Reachable s) (hu : ∀ i ∈ is, Unwritten s i i 0)
    (h0 : Unwritten s 0 1 1) (hnodup : is.Nodup) (hnew : ∀ i ∈ is, 1 < i) :
    Reachable (is.foldl filled s) ∧ Unwritten (is.foldl filled s) 0 1 1 ∧
      freeCount (is.foldl filled s).disk = leftFrom^[is.length] (freeCount s.disk) := by
  induction is generalizing s with
  | nil =>
    rw [List.length_nil, Function.iterate_zero_apply]
    exact ⟨hr, h0, rfl⟩
  | cons i is ih =>
    obtain ⟨hi, hrest⟩ := List.forall_mem_cons.mp hu
    obtain ⟨hlt, hnew'⟩ := List.forall_mem_cons.mp hnew
    obtain ⟨hmem, hnodup'⟩ := List.nodup_cons.mp hnodup
    have hr' := filled_reachable hr i
    have hrest' : ∀ j ∈ is, Unwritten (filled s i) j j 0 := by
      intro j hj
      have hji : j ≠ i := fun he => hmem (he ▸ hj)
      exact hi.filled hr.inv (hrest j hj) hji hji
    have h0' := hi.filled hr.inv h0 (by omega) (by omega)
    rw [List.foldl_cons, List.length_cons, Function.iterate_succ_apply,
      ← hi.freeCount_filled hr.inv rfl]
    exact ih hr' hrest' h0' hnodup' hnew'

/-- Handle 0 is behind the end of `/f`, and four new files are open. -/
def fiveFiles : State :=
  (runs.run exec oneByteWritten
    [.tfsOpen (some pathF) TFS_O_TRUNC, .tfsOpen (some pathG) TFS_O_CREAT,
      .tfsOpen (some ⟨[slash, 104], by decide⟩) TFS_O_CREAT,
      .tfsOpen (some ⟨[slash, 105], by decide⟩) TFS_O_CREAT,
      .tfsOpen (some ⟨[slash, 106], by decide⟩) TFS_O_CREAT]).2

/-- The new files take all blocks. -/
def fullDisk : State := [2, 3, 4, 5].foldl filled fiveFiles

theorem fiveFiles_reachable : Reachable fiveFiles := by
  rw [fiveFiles]
  exact runs.Reachable.run oneByteWritten_reachable _

theorem fiveFiles_unwritten :
    Unwritten fiveFiles 0 1 1 ∧ (∀ i ∈ [2, 3, 4, 5], Unwritten fiveFiles i i 0) ∧
      freeCount fiveFiles.disk = 1023 ∧ fiveFiles.free_open_file_entries 6 = .FREE := by
  decide +kernel

theorem fullDisk_spec :
    Reachable fullDisk ∧ Unwritten fullDisk 0 1 1 ∧ freeCount fullDisk.disk = 0 := by
  obtain ⟨h0, hu, hfree, _⟩ := fiveFiles_unwritten
  obtain ⟨hr, h0', hfree'⟩ := filled_all [2, 3, 4, 5] fiveFiles_reachable hu h0 (by decide)
    (by decide)
  refine ⟨hr, h0', hfree'.trans ?_⟩
  rw [hfree]
  decide

/-- The state after a write of one byte at offset 1 of the empty file `/f`, on the full disk. -/
def sizeAboveBlocks : State := (exec fullDisk (.tfsWrite 0 [7])).2

theorem sizeAboveBlocks_spec :
    Reachable sizeAboveBlocks ∧ FileInode sizeAboveBlocks.disk 1 ∧
      (sizeAboveBlocks.disk.inode_table 1).blocksAlloc = 0 ∧
      (sizeAboveBlocks.disk.inode_table 1).i_size = 1 := by
  obtain ⟨hr, hu, hfree⟩ := fullDisk_spec
  have hnone : blocksFor fullDisk.disk 1 1 1 = 0 := by
    unfold blocksFor
    rw [hu.blocks, hfree]
    decide
  have hwritten := hu.nothing_stored hr.inv 0 (by decide) rfl hnone
  rw [← exec_tfsWrite, ← sizeAboveBlocks] at hwritten
  refine ⟨?_, hwritten⟩
  rw [sizeAboveBlocks]
  exact hr.exec _

theorem a_write_on_a_full_disk_leaves_a_size_without_blocks :
    Reachable sizeAboveBlocks ∧ (sizeAboveBlocks.disk.inode_table 1).i_size = 1 ∧
      (sizeAboveBlocks.disk.inode_table 1).blocksAlloc = 0 ∧ ¬ SizesAgree sizeAboveBlocks := by
  obtain ⟨hr, hfile, hblocks, hsize⟩ := sizeAboveBlocks_spec
  refine ⟨hr, hsize, hblocks, fun hbad => ?_⟩
  have hmatch := hbad.match_blocks 1 hfile
  rw [hsize, hblocks] at hmatch
  exact absurd hmatch (by decide)

end tecnicofs.parte1
