-- Write and read back: what went into an empty file through one handle comes
-- out through a fresh one, however the writes and the reads are cut and
-- whatever happens to other files in between.
import TecnicoFS.Parte1.Frames

open byte_memory block_map ownership

namespace tecnicofs.parte1

/-! ## The bytes of a file -/

/-- File `f` holds exactly the bytes `bs`. -/
structure Holds (d : Disk) (f : Nat) (bs : List UInt8) : Prop where
  file : FileInode d f
  size : (d.inode_table f).i_size = bs.length
  room_le : bs.length ≤ room d f
  bytes : fileLoad BLOCK_SIZE (blocksOf d f) d.fs_data 0 bs.length = bs

theorem Holds.of_same {d d' : Disk} {f : Nat} {bs : List UInt8} (h : Holds d f bs)
    (hs : FileSame f d d') : Holds d' f bs where
  file := hs.file
  size := by rw [hs.inode]; exact h.size
  room_le := by
    unfold room
    rw [hs.inode]
    exact h.room_le
  bytes := by
    rw [hs.load (inRoom_of_le (by have := h.room_le; omega))]
    exact h.bytes

theorem holds_nil {d : Disk} {f : Nat} (hf : FileInode d f) (hs : (d.inode_table f).i_size = 0) :
    Holds d f [] := ⟨hf, hs, Nat.zero_le _, rfl⟩

/-- A file that gets more blocks holds the same bytes. -/
theorem Grown.holds {d d' : Disk} {f : Nat} {bs : List UInt8} (hg : Grown f d d')
    (h : Holds d f bs) : Holds d' f bs where
  file := (hg.fileInode f).mpr h.file
  size := hg.size.trans h.size
  room_le := by
    apply h.room_le.trans
    unfold room
    exact Nat.mul_le_mul_right _ hg.blocks_le
  bytes := by
    have hin : InRoom d f 0 bs.length := inRoom_of_le (by have := h.room_le; omega)
    refine (fileLoad_congr fun i hi => ?_).trans h.bytes
    have hmap : blocksOf d' f ((0 + i) / BLOCK_SIZE) = blocksOf d f ((0 + i) / BLOCK_SIZE) :=
      congrArg Int.toNat (hg.block_same _ (hin i hi))
    rw [@addr_congr BLOCK_SIZE (blocksOf d' f) (blocksOf d f) (0 + i) hmap]
    exact hg.mem _ _ (ownedBlock_data h.file (hin i hi)) (by simp) _ (addr_div (by decide) _)

/-- A store at the end of the bytes of a file, inside its blocks. -/
theorem Holds.store {d : Disk} {f : Nat} {bs xs : List UInt8} (h : DiskInv d) (hb : Holds d f bs)
    (hroom : bs.length + xs.length ≤ room d f) :
    Holds (sizeSet (stored d f bs.length xs) f (bs.length + xs.length)) f (bs ++ xs) := by
  have hin : InRoom d f bs.length xs.length := inRoom_of_le (by omega)
  have hall : InRoom d f 0 (bs.length + xs.length) := inRoom_of_le (by omega)
  have hinj := h.injBelow hb.file
  have hmap : ∀ i < bs.length + xs.length,
      blocksOf (sizeSet (stored d f bs.length xs) f (bs.length + xs.length)) f
        ((0 + i) / BLOCK_SIZE) = blocksOf d f ((0 + i) / BLOCK_SIZE) := by
    intro i hi
    unfold blocksOf
    rw [sizeSet_blockNo, stored_blockNo h hb.file hin hb.file (hall i hi)]
  have hsize : ((stored d f bs.length xs).inode_table f).i_size = bs.length := hb.size
  refine ⟨(sizeSet_fileInode _ f _ f).mpr hb.file, ?_, ?_, ?_⟩
  · rw [sizeSet_self, List.length_append, hsize]
    exact max_eq_right (Nat.le_add_right ..)
  · unfold room
    rw [sizeSet_blocksAlloc, List.length_append]
    exact hroom
  · have hload : fileLoad BLOCK_SIZE
          (blocksOf (sizeSet (stored d f bs.length xs) f (bs.length + xs.length)) f)
          (stored d f bs.length xs).fs_data 0 (bs.length + xs.length) =
        fileLoad BLOCK_SIZE (blocksOf d f) (stored d f bs.length xs).fs_data 0
          (bs.length + xs.length) := by
      apply fileLoad_congr
      intro i hi
      rw [@addr_congr BLOCK_SIZE _ _ (0 + i) (hmap i hi)]
    have hold : fileLoad BLOCK_SIZE (blocksOf d f) (stored d f bs.length xs).fs_data 0 bs.length =
        bs := by
      refine (fileLoad_fileStore_before (by decide) hinj _ xs hin (fun j hj => ?_) (by omega)).trans
        hb.bytes
      exact hall j (by omega)
    have hnew : fileLoad BLOCK_SIZE (blocksOf d f) (stored d f bs.length xs).fs_data bs.length
        xs.length = xs := fileLoad_fileStore_same (by decide) hinj _ _ xs hin
    rw [List.length_append, sizeSet_data, hload, fileLoad_append, Nat.zero_add, hold, hnew]

/-! ## One write, one read -/

/-- A write at the end of a file that returns its full length appends its buffer. -/
theorem writeCritical_appends {d : Disk} {f : Nat} {bs buffer : List UInt8} (h : DiskInv d)
    (hb : Holds d f bs)
    (hret : (writeCritical d ⟨f, bs.length, false⟩ f buffer).1 = buffer.length) :
    Holds (writeCritical d ⟨f, bs.length, false⟩ f buffer).2.1 f (bs ++ buffer) ∧
      (writeCritical d ⟨f, bs.length, false⟩ f buffer).2.2 =
        ⟨f, (bs ++ buffer).length, false⟩ := by
  have hoff : offsetAt d ⟨f, bs.length, false⟩ f = bs.length := rfl
  obtain ⟨hinv, hg⟩ := grownFor_spec h hb.file buffer.length bs.length
  rw [writeCritical_eq h hb.file] at hret ⊢
  simp only [hoff] at hret ⊢
  split at hret
  · -- nothing to write
    obtain rfl : buffer = [] := List.length_eq_zero_iff.mp (by simpa using hret.symm)
    rw [if_pos ‹_›, List.append_nil]
    exact ⟨hb, rfl⟩
  · rw [if_neg ‹_›]
    split at hret
    · simp only at hret
      omega
    · rw [if_neg ‹_›]
      have hk : copied d f buffer.length bs.length = buffer.length := by
        simp only at hret
        omega
      have hroom : bs.length + buffer.length ≤ room (grownFor d f buffer.length bs.length) f := by
        have := (hg.holds hb).room_le
        unfold copied at hk
        omega
      rw [hk, List.take_length, List.length_append]
      exact ⟨(hg.holds hb).store hinv hroom, rfl⟩

theorem readCritical_reads {d : Disk} {f n : Nat} {bs : List UInt8} (h : DiskInv d)
    (hb : Holds d f bs) (hn : n ≤ bs.length) (len : Nat) :
    readCritical d ⟨f, n, false⟩ f len =
      ((((min len (bs.length - n) : Nat) : Int), (bs.drop n).take len),
        ⟨f, n + min len (bs.length - n), false⟩) := by
  have hmax := h.room_le hb.file
  have hroom := hb.room_le
  have hsave : toReadSave d f n len = min len (bs.length - n) := by
    unfold toReadSave
    rw [hb.size, sizeT_sub hn (by simp only [MAX_FILE_SIZE] at hmax; omega)]
    split <;> omega
  have hbytes : fileLoad BLOCK_SIZE (blocksOf d f) d.fs_data n (min len (bs.length - n)) =
      (bs.drop n).take len := by
    rw [fileLoad_part _ (show n + min len (bs.length - n) ≤ bs.length by omega), hb.bytes]
    rcases Nat.le_total len (bs.length - n) with hle | hge
    · rw [Nat.min_eq_left hle]
    · rw [Nat.min_eq_right hge, List.take_of_length_le (by simp),
        List.take_of_length_le (by simp; omega)]
  have hmin : min (min len (bs.length - n)) (room d f - n) = min len (bs.length - n) := by omega
  rw [readCritical_eq h hb.file]
  simp only [hsave, hmin, hbytes]
  rw [if_neg (by omega)]

/-- The file of the handle, its bytes and its name, and the handle at offset `n`. -/
structure At (s : State) (path : CString) (f : Nat) (fhandle : Int) (bs : List UInt8) (n : Nat) :
    Prop where
  inv : Inv s
  lookup : tfsLookup s.disk path = f
  holds : Holds s.disk f bs
  handle : OpenAs s fhandle ⟨f, n, false⟩

theorem At.elsewhere {s : State} {path : CString} {f n : Nat} {fhandle : Int} {bs : List UInt8}
    {op : Op} (h : At s path f fhandle bs n) (hop : Elsewhere f fhandle s op) :
    At (exec s op).2 path f fhandle bs n := by
  obtain ⟨hu, hh⟩ := exec_elsewhere h.inv h.holds.file hop
  exact ⟨h.inv.exec op, hu.lookup path h.lookup, h.holds.of_same hu.same, hh _ rfl h.handle⟩

theorem At.write {s : State} {path : CString} {f : Nat} {fhandle : Int} {bs buffer : List UInt8}
    (h : At s path f fhandle bs bs.length) (hret : (tfsWrite s fhandle buffer).1 = buffer.length) :
    At (tfsWrite s fhandle buffer).2 path f fhandle (bs ++ buffer) (bs ++ buffer).length := by
  have hinv := h.inv.tfsWrite fhandle buffer
  obtain ⟨i, hi, he⟩ := h.handle
  rcases tfsWrite_cases h.inv fhandle buffer with ⟨hn, _⟩ | ⟨j, g, hget, hin, hg, hr⟩
  · rw [hn] at hi
    cases hi
  · obtain rfl : j = i := Option.some.inj (hget.symm.trans hi)
    rw [he] at hin hr
    obtain rfl : f = g := by
      simp only at hin
      omega
    rw [hr] at hret hinv ⊢
    obtain ⟨hb, hentry⟩ := writeCritical_appends h.inv.disk h.holds hret
    refine ⟨hinv, ?_, hb, j, ?_, ?_⟩
    · have hd := writeCritical_dirSame h.inv.disk hg ⟨f, bs.length, false⟩ buffer
      exact (tfsLookup_congr h.inv.disk (writeCritical_inv h.inv.disk hg _ buffer).1 hd path).trans
        h.lookup
    · exact getOpenFileEntry_eq_some.mpr (getOpenFileEntry_eq_some.mp hi)
    · simp only [fillEntry, Function.update_self, hentry]

theorem At.read {s : State} {path : CString} {f n : Nat} {fhandle : Int} {bs : List UInt8}
    (h : At s path f fhandle bs n) (hn : n ≤ bs.length) (len : Nat) :
    (tfsRead s fhandle len).1 = (((min len (bs.length - n) : Nat) : Int), (bs.drop n).take len) ∧
      At (tfsRead s fhandle len).2 path f fhandle bs (n + min len (bs.length - n)) := by
  have hinv := h.inv.tfsRead fhandle len
  obtain ⟨i, hi, he⟩ := h.handle
  rcases tfsRead_cases h.inv fhandle len with ⟨hno, _⟩ | ⟨j, g, hget, hin, hg, hr⟩
  · rw [hno] at hi
    cases hi
  · obtain rfl : j = i := Option.some.inj (hget.symm.trans hi)
    rw [he] at hin hr
    obtain rfl : f = g := by
      simp only at hin
      omega
    rw [readCritical_reads h.inv.disk h.holds hn] at hr
    simp only [Bool.false_eq_true, if_false] at hr
    rw [hr] at hinv ⊢
    refine ⟨rfl, hinv, h.lookup, h.holds, j, ?_, ?_⟩
    · exact getOpenFileEntry_eq_some.mpr (getOpenFileEntry_eq_some.mp hi)
    · simp only [fillEntry, Function.update_self]

/-! ## Runs -/

/-- Calls elsewhere, one after the other. -/
inductive Others (f : Nat) (keep : Int) : State → State → Prop
  | done (s : State) : Others f keep s s
  | other {s s' : State} (op : Op) : Elsewhere f keep s op → Others f keep (exec s op).2 s' →
    Others f keep s s'

/-- Writes of the buffers through one handle, each of full length, with calls elsewhere before,
between and behind them. -/
inductive Writes (f : Nat) (fhandle : Int) : State → List (List UInt8) → State → Prop
  | done (s : State) : Writes f fhandle s [] s
  | other {s s' : State} {buffers : List (List UInt8)} (op : Op) : Elsewhere f fhandle s op →
    Writes f fhandle (exec s op).2 buffers s' → Writes f fhandle s buffers s'
  | write {s s' : State} {buffers : List (List UInt8)} (buffer : List UInt8) :
    (tfsWrite s fhandle buffer).1 = buffer.length →
    Writes f fhandle (tfsWrite s fhandle buffer).2 buffers s' →
    Writes f fhandle s (buffer :: buffers) s'

/-- A read: its length, what it returned, and the bytes it gave. -/
structure ReadCall where
  len : Nat
  ret : Int
  bytes : List UInt8
  deriving DecidableEq

/-- Reads through one handle, with calls elsewhere before, between and behind them. -/
inductive Reads (f : Nat) (fhandle : Int) : State → List ReadCall → State → Prop
  | done (s : State) : Reads f fhandle s [] s
  | other {s s' : State} {reads : List ReadCall} (op : Op) : Elsewhere f fhandle s op →
    Reads f fhandle (exec s op).2 reads s' → Reads f fhandle s reads s'
  | read {s s' : State} {reads : List ReadCall} (len : Nat) :
    Reads f fhandle (tfsRead s fhandle len).2 reads s' →
    Reads f fhandle s (⟨len, (tfsRead s fhandle len).1.1, (tfsRead s fhandle len).1.2⟩ :: reads) s'

/-- Every read returns its length or the bytes that are left, and gives the next bytes. -/
def ReadBack : List UInt8 → List ReadCall → Prop
  | _, [] => True
  | left, r :: reads =>
    r.ret = (min r.len left.length : Nat) ∧ r.bytes = left.take r.len ∧
      ReadBack (left.drop r.len) reads

theorem ReadBack.flatten {left : List UInt8} {reads : List ReadCall} (h : ReadBack left reads) :
    reads.flatMap ReadCall.bytes = left.take (reads.map ReadCall.len).sum := by
  induction reads generalizing left with
  | nil => simp
  | cons r reads ih =>
    obtain ⟨_, hb, hrest⟩ := h
    rw [List.flatMap_cons, hb, ih hrest, List.map_cons, List.sum_cons, List.take_add]

theorem Others.keeps {f : Nat} {s s' : State} (h : Others f (-1) s s') (hinv : Inv s) {path : CString}
    {bs : List UInt8} (hl : tfsLookup s.disk path = f) (hb : Holds s.disk f bs) :
    Inv s' ∧ tfsLookup s'.disk path = f ∧ Holds s'.disk f bs := by
  induction h with
  | done s => exact ⟨hinv, hl, hb⟩
  | other op hop _ ih =>
    obtain ⟨hu, _⟩ := exec_elsewhere hinv hb.file hop
    exact ih (hinv.exec op) (hu.lookup path hl) (hb.of_same hu.same)

theorem Writes.fill {f : Nat} {fhandle : Int} {s s' : State} {buffers : List (List UInt8)}
    (h : Writes f fhandle s buffers s') {path : CString} {bs : List UInt8}
    (ha : At s path f fhandle bs bs.length) :
    At s' path f fhandle (bs ++ buffers.flatten) (bs ++ buffers.flatten).length := by
  induction h generalizing bs with
  | done s =>
    rw [List.flatten_nil, List.append_nil]
    exact ha
  | other op hop _ ih => exact ih (ha.elsewhere hop)
  | write buffer hret _ ih =>
    rw [List.flatten_cons, ← List.append_assoc]
    exact ih (ha.write hret)

theorem Reads.readBack {f : Nat} {fhandle : Int} {s s' : State} {reads : List ReadCall}
    (h : Reads f fhandle s reads s') {path : CString} {bs : List UInt8} {n : Nat}
    (ha : At s path f fhandle bs n) (hn : n ≤ bs.length) : ReadBack (bs.drop n) reads := by
  induction h generalizing n with
  | done s => trivial
  | other op hop _ ih => exact ih (ha.elsewhere hop) hn
  | read len _ ih =>
    obtain ⟨hr, hnext⟩ := ha.read hn len
    refine ⟨?_, ?_, ?_⟩
    · simp only [hr, List.length_drop]
    · simp only [hr]
    · have := ih hnext (by omega)
      rw [List.drop_drop]
      rcases Nat.le_total len (bs.length - n) with hle | hge
      · rwa [Nat.min_eq_left hle] at this
      · rw [Nat.min_eq_right hge, List.drop_of_length_le (by omega)] at this
        rw [List.drop_of_length_le (by simp only; omega)]
        exact this

/-! ## The open of an empty file and the fresh open -/

/-- A successful open without `TFS_O_APPEND` gives a handle at offset 0 on the file that the
path names from then on. -/
theorem tfsOpen_gives {s : State} (h : Inv s) {path : CString} {flags : BitVec 32}
    (hname : path.skip.strlen < MAX_FILE_NAME) (happ : hasFlag flags TFS_O_APPEND = false)
    (hok : 0 ≤ (tfsOpen s (some path) flags).1) :
    ∃ f : Nat, tfsLookup (tfsOpen s (some path) flags).2.disk path = f ∧
      FileInode (tfsOpen s (some path) flags).2.disk f ∧
      OpenAs (tfsOpen s (some path) flags).2 (tfsOpen s (some path) flags).1 ⟨f, 0, false⟩ := by
  rcases tfsOpen_ok_cases h.disk hok with ⟨f, hl, hf, hr⟩ | ⟨i, j, _, hl, hi, hj, hr⟩
  · have hzero : initialOffset (afterTrunc s.disk flags f) flags f = (0, false) :=
      if_neg (by rw [happ]; decide)
    rw [hzero] at hr
    rw [hr] at hok ⊢
    refine ⟨f, ?_, ?_, .added hok⟩ <;> rw [addToOpenFileTable_disk]
    · exact (tfsLookup_congr h.disk (afterTrunc_inv h.disk hf flags)
        (afterTrunc_dirSame h.disk hf flags) path).trans hl
    · exact (afterTrunc_fileInode _ flags f f).mpr hf
  · rw [hr] at hok ⊢
    refine ⟨i, ?_, ?_, .added hok⟩ <;> rw [addToOpenFileTable_disk]
    · exact createdFile_lookup_new h.disk hi hj hname hl
    · exact (createdFile_fileInode hi path i).mpr (Or.inr rfl)

/-- A plain open of a file that is there does not touch the disk. -/
theorem tfsOpen_plain {s : State} (h : Inv s) {path : CString} {f : Nat} {bs : List UInt8}
    (hl : tfsLookup s.disk path = f) (hb : Holds s.disk f bs)
    (hname : path.skip.strlen < MAX_FILE_NAME) (hok : 0 ≤ (tfsOpen s (some path) 0).1) :
    At (tfsOpen s (some path) 0).2 path f (tfsOpen s (some path) 0).1 bs 0 := by
  have hinv := h.tfsOpen (some path) 0
  have hu := tfsOpen_untouched h hb.file (some path) 0 fun _ _ _ => by decide
  obtain ⟨g, hg, _, ho⟩ := @tfsOpen_gives s h path 0 hname (by decide) hok
  obtain rfl : f = g := by
    have := (hu.lookup path hl).symm.trans hg
    omega
  exact ⟨hinv, hg, hb.of_same hu.same, ho⟩

/-! ## The law -/

/-- What successive writes of full length put into an empty file is what reads through a fresh
handle give back, whatever calls on other files come in between. -/
theorem what_was_written_is_read_back {s s2 s3 s5 : State} {path : CString} {flags : BitVec 32}
    {f : Nat} {buffers : List (List UInt8)} {reads : List ReadCall}
    (hs : Reachable s) (hname : 1 ≤ path.skip.strlen ∧ path.skip.strlen ≤ 39)
    (happ : hasFlag flags TFS_O_APPEND = false)
    (hopen : 0 ≤ (tfsOpen s (some path) flags).1)
    (hfile : tfsLookup (tfsOpen s (some path) flags).2.disk path = f)
    (hempty : ((tfsOpen s (some path) flags).2.disk.inode_table f).i_size = 0)
    (hwrites : Writes f (tfsOpen s (some path) flags).1 (tfsOpen s (some path) flags).2 buffers s2)
    (hothers : Others f (-1) s2 s3)
    (hfresh : 0 ≤ (tfsOpen s3 (some path) 0).1)
    (hreads : Reads f (tfsOpen s3 (some path) 0).1 (tfsOpen s3 (some path) 0).2 reads s5) :
    ReadBack buffers.flatten reads ∧
      reads.flatMap ReadCall.bytes = buffers.flatten.take (reads.map ReadCall.len).sum := by
  have hlt : path.skip.strlen < MAX_FILE_NAME := by
    have := hname.2
    unfold MAX_FILE_NAME
    omega
  obtain ⟨g, hg, hgf, ho⟩ := tfsOpen_gives hs.inv hlt happ hopen
  obtain rfl : f = g := by
    rw [hfile] at hg
    omega
  have hfirst : At (tfsOpen s (some path) flags).2 path f (tfsOpen s (some path) flags).1 [] 0 :=
    ⟨hs.inv.tfsOpen _ _, hg, holds_nil hgf hempty, ho⟩
  have hfull := hwrites.fill hfirst
  obtain ⟨hinv, hl, hb⟩ := hothers.keeps hfull.inv hfull.lookup hfull.holds
  have hback := hreads.readBack (tfsOpen_plain hinv hl hb hlt hfresh) (Nat.zero_le _)
  rw [List.drop_zero] at hback
  exact ⟨hback, hback.flatten⟩

/-! ### A run: two writes to `/f`, a write to `/g` between them, and two reads -/

def firstOpen : Int × State := tfsOpen (tfsInit zeroed).2 (some pathF) TFS_O_CREAT

def threeWritten : State := (tfsWrite firstOpen.2 0 [1, 2, 3]).2

def otherOpened : State := (exec threeWritten (.tfsOpen (some pathG) TFS_O_CREAT)).2

def fourWritten : State := (tfsWrite (exec otherOpened (.tfsWrite 1 [9])).2 0 [4]).2

def closed : State := (exec fourWritten (.tfsClose 0)).2

def freshOpen : Int × State := tfsOpen closed (some pathF) 0

theorem firstOpen_handle : firstOpen.1 = 0 := by decide +kernel

theorem freshOpen_handle : freshOpen.1 = 0 := by decide +kernel

theorem fourWritten_writes : Writes 1 firstOpen.1 firstOpen.2 [[1, 2, 3], [4]] fourWritten := by
  have hother : Elsewhere 1 0 otherOpened (.tfsWrite 1 [9]) := by
    intro i hi
    have hget : getOpenFileEntry otherOpened 1 = some 1 := by decide +kernel
    obtain rfl : 1 = i := Option.some.inj (hget.symm.trans hi)
    decide +kernel
  rw [firstOpen_handle]
  exact .write _ (by decide +kernel) (.other (.tfsOpen (some pathG) TFS_O_CREAT)
    (fun _ _ _ => by decide) (.other _ hother (.write _ (by decide +kernel) (.done _))))

theorem freshOpen_reads :
    Reads 1 freshOpen.1 freshOpen.2
      [⟨2, (tfsRead freshOpen.2 0 2).1.1, (tfsRead freshOpen.2 0 2).1.2⟩,
        ⟨5, (tfsRead (tfsRead freshOpen.2 0 2).2 0 5).1.1,
          (tfsRead (tfsRead freshOpen.2 0 2).2 0 5).1.2⟩]
      (tfsRead (tfsRead freshOpen.2 0 2).2 0 5).2 := by
  rw [freshOpen_handle]
  exact .read 2 (.read 5 (.done _))

theorem four_bytes_come_back :
    [(⟨2, (tfsRead freshOpen.2 0 2).1.1, (tfsRead freshOpen.2 0 2).1.2⟩ : ReadCall),
      ⟨5, (tfsRead (tfsRead freshOpen.2 0 2).2 0 5).1.1,
        (tfsRead (tfsRead freshOpen.2 0 2).2 0 5).1.2⟩].flatMap ReadCall.bytes = [1, 2, 3, 4] :=
  (what_was_written_is_read_back (.start ⟨zeroed, rfl⟩) (by decide) (by decide)
    (firstOpen_handle.ge : 0 ≤ firstOpen.1) (by decide +kernel) (by decide +kernel)
    fourWritten_writes (.other (.tfsClose 0) (by decide : (0 : Int) ≠ -1) (.done _))
    (freshOpen_handle.ge : 0 ≤ freshOpen.1) freshOpen_reads).2

end tecnicofs.parte1
