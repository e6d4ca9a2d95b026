-- The disk as a list of files: the directory lists their names, the inodes from 1
-- on hold their bytes, and what the files cost is what the disk has spent.
import TecnicoFS.Common.Counting
import TecnicoFS.Common.Listing
import TecnicoFS.Lib.FileStore
import TecnicoFS.Parte1.BlockCounts
import TecnicoFS.Parte1.Entries
import TecnicoFS.Parte1.RoundTrip
import TecnicoFS.Parte1.Sizes
import TecnicoFS.Parte1.Writes

open byte_memory block_map file_store

namespace tecnicofs.parte1

/-! ## The inodes and the directory -/

/-- The directory holds the inodes from 1 to `n`, and no other inode is taken. -/
structure FilledUpTo (d : Disk) (n : Nat) : Prop where
  taken : ∀ f < INODE_TABLE_SIZE, d.freeinode_ts f = .TAKEN ↔ f ≤ n
  dir : DirFilled d.fs_data (rootAddr d) n

theorem firstDisk_filledUpTo (d : Disk) : FilledUpTo (firstDisk d) 0 where
  taken := fun f _ => by
    by_cases hf : f = 0
    · simp [firstDisk, hf]
    · simp [firstDisk, hf]
  dir := by
    have haddr : rootAddr (firstDisk d) = 0 := by simp [rootAddr, rootBlock, firstDisk]
    rw [haddr]
    exact clearDir_filled d.fs_data 0

section
variable {d : Disk} {n : Nat} (hn : FilledUpTo d n)
include hn

/-- There are fewer entries than inodes. -/
theorem FilledUpTo.lt_table : n + 1 < INODE_TABLE_SIZE := by
  have hle := hn.dir.length_le
  unfold MAX_DIR_ENTRIES at hle
  unfold INODE_TABLE_SIZE
  omega

theorem FilledUpTo.fileInode_iff (h : DiskInv d) {f : Nat} :
    FileInode d f ↔ f ≠ ROOT_DIR_INUM ∧ f ≤ n := by
  have hlt := hn.lt_table
  constructor
  · intro hf
    exact ⟨hf.ne_root h, (hn.taken f hf.1).mp hf.2.1⟩
  · rintro ⟨hne, hle⟩
    have ht := (hn.taken f (by omega)).mpr hle
    exact ⟨by omega, ht, h.file_type f hne ht⟩

theorem FilledUpTo.next_free : FreeInode d (n + 1) := by
  refine ⟨hn.lt_table, ?_⟩
  rcases ht : d.freeinode_ts (n + 1) with _ | _
  · rfl
  · have := (hn.taken _ hn.lt_table).mp ht
    omega

theorem FilledUpTo.inodeCreate : inodeCreate d .T_FILE = (((n + 1 : Nat) : Int), freshFile d (n + 1)) := by
  have hlt := hn.lt_table
  have hfirst : (List.range INODE_TABLE_SIZE).find? (fun i => decide (d.freeinode_ts i = .FREE)) =
      some (n + 1) := by
    apply List.find?_range_eq_some.mpr
    refine ⟨decide_eq_true_eq.mpr hn.next_free.2, List.mem_range.mpr hlt, fun j hj => ?_⟩
    rw [(hn.taken j (by omega)).mpr (by omega)]
    rfl
  unfold parte1.inodeCreate
  rw [hfirst]
  simp [freshFile, Disk.modInode, Disk.setFreeinode]

theorem FilledUpTo.quiet {d' : Disk} (hq : Quiet d d') : FilledUpTo d' n where
  taken := by
    rw [hq.taken]
    exact hn.taken
  dir := by
    rw [hq.dir.addr]
    exact hn.dir.congr hq.dir.bytes

theorem FilledUpTo.createdFile (h : DiskInv d) (hroom : n < MAX_DIR_ENTRIES) (path : CString) :
    FilledUpTo (createdFile d (n + 1) n path) (n + 1) where
  taken := fun f hf => by
    change (Function.update d.freeinode_ts (n + 1) .TAKEN) f = .TAKEN ↔ f ≤ n + 1
    by_cases hfn : f = n + 1
    · subst hfn
      simp
    · rw [Function.update_of_ne hfn, hn.taken f hf]
      omega
  dir := by
    rw [createdFile_rootAddr h hn.next_free]
    exact hn.dir.fill path.skip hroom

/-- An open of a file that is not there, with the inode and the entry that it gets. -/
theorem FilledUpTo.tfsOpen_absent {s : State} (hs : s.disk = d) (h : DiskInv d) {path : CString}
    (hv : validPathname (some path) = true) (hl : tfsLookup d path = -1) (flags : BitVec 32) :
    tfsOpen s (some path) flags =
      if hasFlag flags TFS_O_CREAT = true then
        if n < MAX_DIR_ENTRIES then
          addToOpenFileTable { s with disk := parte1.createdFile d (n + 1) n path } (n + 1 : Nat) 0 false
        else (-1, { s with disk := undone d (n + 1) })
      else (-1, s) := by
  have hcreate := createCritical_inode h hv hl hn.next_free hn.inodeCreate
  rw [hn.dir.firstEmpty] at hcreate
  unfold tfsOpen
  simp only [hv, Bool.true_eq_false, if_false, hs, hl, not_zero_le_neg_one]
  by_cases hroom : n < MAX_DIR_ENTRIES
  · simp only [hroom, if_true] at hcreate ⊢
    simp only [hcreate]
  · simp only [hroom, if_false] at hcreate ⊢
    simp only [hcreate]

end

/-! ## The bytes -/

theorem Holds.byte {d : Disk} {f p : Nat} {bs : List UInt8} (h : Holds d f bs)
    (hp : p < bs.length) : bs[p]? = some (byteAt d f p) := by
  have hbytes := congrArg (fun l => l[p]?) h.bytes
  simp only [fileLoad_getElem?, if_pos hp, Nat.zero_add] at hbytes
  exact hbytes.symm

theorem holds_of_bytes {d : Disk} {f : Nat} {bs : List UInt8} (hf : FileInode d f)
    (hsize : (d.inode_table f).i_size = bs.length) (hroom : bs.length ≤ room d f)
    (hbytes : ∀ p < bs.length, bs[p]? = some (byteAt d f p)) : Holds d f bs := by
  refine ⟨hf, hsize, hroom, List.ext_getElem? fun p => ?_⟩
  rw [fileLoad_getElem?]
  split
  · rename_i hp
    rw [hbytes p hp, Nat.zero_add]
    rfl
  · rename_i hp
    exact (List.getElem?_eq_none (by omega)).symm

/-- A file of which all bytes have blocks gives its bytes to a read. -/
theorem Holds.load {d : Disk} {f : Nat} {bs : List UInt8} (h : Holds d f bs) (o len : Nat) :
    fileLoad BLOCK_SIZE (blocksOf d f) d.fs_data o (min len (bs.length - o)) =
      (bs.drop o).take len := by
  have hslice : ((fileLoad BLOCK_SIZE (blocksOf d f) d.fs_data 0 bs.length).drop o).take len = _ :=
    fileLoad_slice d.fs_data 0 bs.length o len
  rw [h.bytes, Nat.zero_add] at hslice
  exact hslice.symm

section
variable {d : Disk} {f o : Nat} {bs : List UInt8} (h : DiskInv d) (hb : Holds d f bs)
  (ho : o ≤ bs.length) (buffer : List UInt8)
include h hb ho

/-- A write that starts inside the file puts what it copies in place of the old bytes. -/
theorem Holds.writtenDisk :
    Holds (writtenDisk d f o buffer) f (overwrite bs o (buffer.take (copied d f buffer.length o))) := by
  have hf := hb.file
  have hmax : o ≤ MAX_FILE_SIZE := ho.trans (hb.room_le.trans (h.room_le hf))
  have hlen : (buffer.take (copied d f buffer.length o)).length = copied d f buffer.length o :=
    List.length_take_of_le (copied_le_length h hf buffer.length hmax)
  have hnew : ∀ p, o ≤ p → p < o + copied d f buffer.length o →
      p < room (parte1.writtenDisk d f o buffer) f ∧
        buffer[p - o]? = some (byteAt (parte1.writtenDisk d f o buffer) f p) :=
    fun p h1 h2 => writtenDisk_byteAt h hf o buffer hmax ⟨h1, h2⟩
  have hold : ∀ p < bs.length, p < o ∨ o + copied d f buffer.length o ≤ p →
      PositionSame f p d (parte1.writtenDisk d f o buffer) :=
    fun p hp hout => writtenDisk_position h hf o buffer (by have := hb.room_le; omega) hout
  have hsize : ((parte1.writtenDisk d f o buffer).inode_table f).i_size =
      max bs.length (o + copied d f buffer.length o) := by
    rw [← hb.size]
    rcases Nat.eq_zero_or_pos (copied d f buffer.length o) with hz | hpos
    · have hmaxsize : max (d.inode_table f).i_size (o + copied d f buffer.length o) =
          (d.inode_table f).i_size := by
        rw [hz, hb.size]
        omega
      rw [hmaxsize]
      unfold parte1.writtenDisk
      simp only
      split
      · rfl
      · rw [sizeSet_self, hz]
        change max ((grownFor d f buffer.length o).inode_table f).i_size _ = _
        rw [(grownFor_spec h hf buffer.length o).2.size, hb.size]
        omega
    · exact writtenDisk_size h hf o buffer hpos
  have hroom : max bs.length (o + copied d f buffer.length o) ≤
      room (parte1.writtenDisk d f o buffer) f := by
    by_contra hgt
    -- the last position of the file has a block
    have hpos : 0 < max bs.length (o + copied d f buffer.length o) := by omega
    rcases Nat.lt_or_ge bs.length (o + copied d f buffer.length o) with hlt | hge
    · have := (hnew (o + copied d f buffer.length o - 1) (by omega) (by omega)).1
      omega
    · rcases Nat.eq_zero_or_pos (copied d f buffer.length o) with hz | hcopied
      · have := (hold (bs.length - 1) (by omega) (by omega)).lt_room
        omega
      · rcases Nat.lt_or_ge (bs.length - 1) (o + copied d f buffer.length o) with hin | hout
        · have := (hnew (bs.length - 1) (by omega) hin).1
          omega
        · have := (hold (bs.length - 1) (by omega) (Or.inr hout)).lt_room
          omega
  apply holds_of_bytes
  · exact (writtenDisk_inv h hf o buffer).2
  · rw [overwrite_length _ _ _ ho, hlen, hsize]
  · rw [overwrite_length _ _ _ ho, hlen]
    exact hroom
  · intro p hp
    rw [overwrite_length _ _ _ ho, hlen] at hp
    rw [overwrite_getElem? _ _ _ ho, hlen]
    split
    · rename_i hin
      rw [List.getElem?_take_of_lt (by omega)]
      exact (hnew p hin.1 hin.2).2
    · rename_i hout
      rw [(hold p (by omega) (by omega)).byte]
      exact hb.byte (by omega)

end

/-- A write that starts inside the file starts inside the blocks that the file can get. -/
theorem Holds.writeBacked {d : Disk} {f o len : Nat} {bs : List UInt8} (h : DiskInv d)
    (hb : Holds d f bs) (ho : o ≤ bs.length) (hlen : len < 2 ^ 63) : WriteBacked d f len o := by
  have hroom := hb.room_le
  have hmax := hroom.trans (h.room_le hb.file)
  have hsave := saveToWrite_eq (show len + o < 2 ^ 64 by unfold MAX_FILE_SIZE at hmax; omega)
    (ho.trans hmax)
  have hblocks : (d.inode_table f).blocksAlloc * BLOCK_SIZE ≤ blocksFor d f len o * BLOCK_SIZE :=
    Nat.mul_le_mul_right _ (le_blocksWithin _ _ _)
  have hno : ¬ RunsOut (blocksFor d f len o) len o := by
    rintro ⟨hshort, hend⟩
    omega
  refine Or.inr ?_
  rw [if_neg hno]
  unfold room at hroom
  omega

/-! ## The files -/

/-- The disk holds these files. -/
structure HoldsFiles (d : Disk) (names : List CString) (bytes : Nat → List UInt8) : Prop where
  filled : FilledUpTo d names.length
  listed : DirLists d.fs_data (rootAddr d) names
  holds : ∀ k < names.length, Holds d (k + 1) (bytes k)

/-- What files with these bytes cost. -/
def sizesCost (n : Nat) (bytes : Nat → List UInt8) : Nat :=
  ∑ k ∈ Finset.range n, blocksCost 0 (divCeil (bytes k).length BLOCK_SIZE)

/-- The cost with other bytes for file `k`. -/
theorem sizesCost_update {n k : Nat} (hk : k < n) (bytes : Nat → List UInt8) (new : List UInt8) :
    sizesCost n (Function.update bytes k new) + blocksCost 0 (divCeil (bytes k).length BLOCK_SIZE) =
      sizesCost n bytes + blocksCost 0 (divCeil new.length BLOCK_SIZE) :=
  sum_update_add hk bytes new fun file => blocksCost 0 (divCeil file.length BLOCK_SIZE)

section
variable {d : Disk} {names : List CString} {bytes : Nat → List UInt8}
  (hd : HoldsFiles d names bytes)
include hd

theorem HoldsFiles.fileInode {k : Nat} (hk : k < names.length) : FileInode d (k + 1) :=
  (hd.holds k hk).file

/-- Other bytes on a disk with the same directory. -/
theorem HoldsFiles.quiet {d' : Disk} {bytes' : Nat → List UInt8} (hq : Quiet d d')
    (hholds : ∀ k < names.length, Holds d' (k + 1) (bytes' k)) : HoldsFiles d' names bytes' where
  filled := hd.filled.quiet hq
  listed := by
    rw [hq.dir.addr]
    exact hd.listed.congr hq.dir.bytes
  holds := hholds

variable (h : DiskInv d)
include h

theorem HoldsFiles.afterTrunc {k : Nat} (hk : k < names.length) (flags : BitVec 32) :
    HoldsFiles (afterTrunc d flags (k + 1)) names
      (if hasFlag flags TFS_O_TRUNC = true then Function.update bytes k [] else bytes) := by
  have hf := hd.fileInode hk
  apply hd.quiet (afterTrunc_quiet h hf flags)
  intro j hj
  by_cases hjk : j = k
  · subst hjk
    by_cases htrunc : hasFlag flags TFS_O_TRUNC = true
    · rw [if_pos htrunc, Function.update_self]
      apply holds_nil ((afterTrunc_fileInode d flags _ _).mpr hf)
      unfold parte1.afterTrunc
      split
      · simp [truncated]
      · rename_i hno
        exact Nat.eq_zero_of_not_pos fun hpos => hno ⟨htrunc, hpos⟩
    · rw [if_neg htrunc]
      unfold parte1.afterTrunc
      rw [if_neg fun hc => htrunc hc.1]
      exact hd.holds j hj
  · have hsame := afterTrunc_fileSame (hd.fileInode hj) (f := k + 1) (by omega) flags
    have hbytes : (if hasFlag flags TFS_O_TRUNC = true then Function.update bytes k [] else bytes) j =
        bytes j := by
      split
      · rw [Function.update_of_ne hjk]
      · rfl
    rw [hbytes]
    exact (hd.holds j hj).of_same hsame

theorem HoldsFiles.undone : HoldsFiles (undone d (names.length + 1)) names bytes := by
  have hfree := hd.filled.next_free
  apply hd.quiet (undone_quiet h hfree)
  intro k hk
  exact (hd.holds k hk).of_same (undone_fileSame hfree (hd.fileInode hk))

theorem HoldsFiles.createdFile {path : CString} (hroom : names.length < MAX_DIR_ENTRIES)
    (hname : path.skip.strlen < MAX_FILE_NAME) :
    HoldsFiles (createdFile d (names.length + 1) names.length path) (names ++ [path.skip])
      (Function.update bytes names.length []) := by
  have hfree := hd.filled.next_free
  have hlen : (names ++ [path.skip]).length = names.length + 1 := by simp
  refine ⟨hlen ▸ hd.filled.createdFile h hroom path, ?_, fun k hk => ?_⟩
  · rw [createdFile_rootAddr h hfree]
    exact hd.listed.fill hroom hname
  · by_cases hkn : k = names.length
    · subst hkn
      rw [Function.update_self]
      apply holds_nil ((createdFile_fileInode hfree path _).mpr (Or.inr rfl))
      simp [parte1.createdFile, freshFile]
    · rw [Function.update_of_ne hkn]
      have hold : k < names.length := by omega
      exact (hd.holds k hold).of_same (createdFile_fileSame h hfree hroom (hd.fileInode hold) path)

/-- The lookup of a path finds the inode behind the number of the file. -/
theorem HoldsFiles.lookup (path : CString) :
    tfsLookup d path =
      match names.findIdx? fun n => decide (n = path.skip) with
      | some k => ((k + 1 : Nat) : Int)
      | none => -1 := by
  rw [tfsLookup_eq h]
  exact hd.listed.scan path.skip

variable (hm : BlocksMatch d)
include hm

theorem HoldsFiles.filesCost : filesCost d = sizesCost names.length bytes := by
  have hfiles : files d = (Finset.range names.length).image fun k => k + 1 := by
    ext f
    rw [mem_files, hd.filled.fileInode_iff h, Finset.mem_image]
    constructor
    · rintro ⟨hne, hle⟩
      simp only [ROOT_DIR_INUM] at hne
      exact ⟨f - 1, Finset.mem_range.mpr (by omega), by omega⟩
    · rintro ⟨k, hk, rfl⟩
      have := Finset.mem_range.mp hk
      exact ⟨Nat.succ_ne_zero k, by omega⟩
  unfold parte1.filesCost sizesCost
  rw [hfiles, Finset.sum_image fun _ _ _ _ he => Nat.succ.inj he]
  apply Finset.sum_congr rfl
  intro k hk
  have hlt := Finset.mem_range.mp hk
  rw [hm _ (hd.fileInode hlt), (hd.holds k hlt).size]

/-- A write for which the disk has the blocks copies all that fits in the file. -/
theorem HoldsFiles.copied_all {k o : Nat} (hk : k < names.length) (ho : o ≤ (bytes k).length)
    {buffer : List UInt8} (hlen : buffer.length < 2 ^ 63)
    (hfit : sizesCost names.length (Function.update bytes k
      (overwrite (bytes k) o (buffer.take (MAX_FILE_SIZE - o)))) + 1 ≤ DATA_BLOCKS) :
    copied d (k + 1) buffer.length o = min buffer.length (MAX_FILE_SIZE - o) := by
  have hb := hd.holds k hk
  have hmax := hb.room_le.trans (h.room_le hb.file)
  have hsmall : buffer.length + o < 2 ^ 64 := by
    unfold MAX_FILE_SIZE at hmax
    omega
  have hsave := saveToWrite_eq hsmall (ho.trans hmax)
  have hneed := sizeNeeded_eq hsmall (ho.trans hmax)
  set w := min buffer.length (MAX_FILE_SIZE - o) with hw
  set b := divCeil (bytes k).length BLOCK_SIZE with hb_eq
  have hblocks : (d.inode_table (k + 1)).blocksAlloc = b := by
    rw [hm _ hb.file, hb.size]
  have hnew : (overwrite (bytes k) o (buffer.take (MAX_FILE_SIZE - o))).length =
      max (bytes k).length (o + w) := by
    rw [overwrite_length _ _ _ ho, List.length_take, Nat.min_comm]
  have hceil : divCeil (max (bytes k).length (o + w)) BLOCK_SIZE =
      max b (divCeil (o + w) BLOCK_SIZE) := (show Monotone (divCeil · BLOCK_SIZE) from
        fun _ _ => divCeil_mono).map_max
  -- the blocks that the file still needs are free
  have hcost : blocksCost b (max b (divCeil (o + w) BLOCK_SIZE)) ≤ freeCount d := by
    have hcount := h.block_count
    have hfiles := hd.filesCost h hm
    unfold parte1.filesCost at hfiles
    rw [hfiles] at hcount
    have hupdate := sizesCost_update hk bytes
      (overwrite (bytes k) o (buffer.take (MAX_FILE_SIZE - o)))
    rw [hnew, hceil, ← hb_eq, ← blocksCost_add (Nat.zero_le b) (le_max_left _ _)] at hupdate
    omega
  have hgrown := (grownFor_count h hb.file buffer.length o).1
  rw [hblocks, hneed, blocksWithin_eq (le_max_left _ _) le_rfl hcost (Or.inl rfl)] at hgrown
  have hroom : o + w ≤ room (grownFor d (k + 1) buffer.length o) (k + 1) := by
    unfold room
    rw [hgrown]
    have hneeded := (divCeil_eq_iff (m := o + w)).mp rfl
    have hmono : divCeil (o + w) BLOCK_SIZE * BLOCK_SIZE ≤
        max b (divCeil (o + w) BLOCK_SIZE) * BLOCK_SIZE :=
      Nat.mul_le_mul_right _ (le_max_right _ _)
    omega
  unfold copied
  rw [hsave]
  omega

omit hm

/-- The write of a buffer for which the disk has the blocks. -/
theorem HoldsFiles.writtenDisk {k o : Nat} (hk : k < names.length) (ho : o ≤ (bytes k).length)
    {buffer : List UInt8} (hlen : buffer.length < 2 ^ 63)
    (hall : copied d (k + 1) buffer.length o = min buffer.length (MAX_FILE_SIZE - o)) :
    HoldsFiles (writtenDisk d (k + 1) o buffer) names (Function.update bytes k
      (overwrite (bytes k) o (buffer.take (MAX_FILE_SIZE - o)))) := by
  have hb := hd.holds k hk
  have hmax := ho.trans (hb.room_le.trans (h.room_le hb.file))
  let file : OpenFileEntry := ⟨(k + 1 : Nat), o, false⟩
  have hdisk : (writeCritical d file (k + 1) buffer).2.1 = parte1.writtenDisk d (k + 1) o buffer := by
    rw [writeCritical_written h hb.file file hmax hlen]
    rfl
  have hq := writeCritical_quiet h hb.file file buffer
  rw [hdisk] at hq
  apply hd.quiet hq
  intro j hj
  by_cases hjk : j = k
  · subst hjk
    have hnew := Holds.writtenDisk h hb ho buffer
    rw [hall, Nat.min_comm, ← List.take_eq_take_min] at hnew
    rw [Function.update_self]
    exact hnew
  · have hsame := writeCritical_fileSame h hb.file (hd.fileInode hj) (by omega)
      ⟨(k + 1 : Nat), o, false⟩ buffer
    rw [hdisk] at hsame
    rw [Function.update_of_ne hjk]
    exact (hd.holds j hj).of_same hsame

end

end tecnicofs.parte1
