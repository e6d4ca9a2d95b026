-- Two runs that differ in the bytes written to one file. Blocks go from file
-- to file without being cleared, so what keeps the other files apart from
-- that one is that nothing is read or written behind the end of a file.
import TecnicoFS.Parte1.TwoDisks

open byte_memory block_map ownership

namespace tecnicofs.parte1

/-! ## The two runs -/

/-- The inode number in the entry of an open handle. -/
def fileOf (s : State) (fhandle : Int) : Option Int :=
  (getOpenFileEntry s fhandle).map fun i => (s.open_file_table i).of_inumber

/-- The same call with the same arguments, except for the bytes of a write through a handle
on file `B`. -/
def SameCall (B : Nat) (s : State) : Op → Op → Prop
  | .tfsOpen name flags, .tfsOpen name' flags' => name' = name ∧ flags' = flags
  | .tfsClose fhandle, .tfsClose fhandle' => fhandle' = fhandle
  | .tfsRead fhandle len, .tfsRead fhandle' len' => fhandle' = fhandle ∧ len' = len
  | .tfsWrite fhandle buffer, .tfsWrite fhandle' buffer' =>
    fhandle' = fhandle ∧ buffer'.length = buffer.length ∧
      (fileOf s fhandle ≠ some (B : Int) → buffer' = buffer)
  | _, _ => False

/-- The same return value, and the same bytes unless the call reads file `B`. -/
def SameAnswer (B : Nat) (s : State) (op : Op) (x y : Answer) : Prop :=
  y.ret = x.ret ∧
    match op with
    | .tfsRead fhandle _ => fileOf s fhandle ≠ some (B : Int) → y.bytes = x.bytes
    | _ => y.bytes = x.bytes

/-- The handle appends, or its offset is not behind the end of its file. -/
def InsideFile (s : State) (fhandle : Int) : Prop :=
  ∀ i ∈ getOpenFileEntry s fhandle, (s.open_file_table i).isAppending = true ∨
    (s.open_file_table i).of_offset ≤
      (s.disk.inode_table (s.open_file_table i).of_inumber.toNat).i_size

instance (s : State) (fhandle : Int) : Decidable (InsideFile s fhandle) :=
  inferInstanceAs (Decidable (∀ i ∈ getOpenFileEntry s fhandle, _))

/-- The call does not read or write behind the end of a file other than `B`. -/
def NotBehindEnd (B : Nat) (s : State) : Op → Prop
  | .tfsRead fhandle len =>
    0 < len → fileOf s fhandle ≠ some (B : Int) → InsideFile s fhandle
  | .tfsWrite fhandle buffer =>
    0 < buffer.length → fileOf s fhandle ≠ some (B : Int) → InsideFile s fhandle
  | _ => True

/-! ## States that look the same -/

/-- The states look the same to everyone who does not read file `B`, and the files other than
`B` have blocks for all their bytes. -/
structure Alike (B : Nat) (s t : State) : Prop where
  disks : LowEq B s.disk t.disk
  backed : Backed B s.disk
  table : t.open_file_table = s.open_file_table
  free : t.free_open_file_entries = s.free_open_file_entries

/-- The same return value and states that look the same. -/
def AlikeResults (B : Nat) (r r' : Int × State) : Prop := r'.1 = r.1 ∧ Alike B r.2 r'.2

theorem Alike.setDisk {B : Nat} {s t : State} (h : Alike B s t) {d d' : Disk} (hd : LowEq B d d')
    (hb : Backed B d) : Alike B { s with disk := d } { t with disk := d' } :=
  ⟨hd, hb, h.table, h.free⟩

theorem Alike.getOpenFileEntry {B : Nat} {s t : State} (h : Alike B s t) (fhandle : Int) :
    getOpenFileEntry t fhandle = getOpenFileEntry s fhandle := by
  simp only [parte1.getOpenFileEntry, h.free]

theorem Alike.addToOpenFileTable {B : Nat} {s t : State} (h : Alike B s t) (inumber : Int)
    (offset : Nat) (isAppending : Bool) :
    AlikeResults B (addToOpenFileTable s inumber offset isAppending)
      (addToOpenFileTable t inumber offset isAppending) := by
  unfold AlikeResults parte1.addToOpenFileTable claimEntry fillEntry
  rw [h.free]
  cases (List.range MAX_OPEN_FILES).find? fun i => decide (s.free_open_file_entries i = .FREE) with
  | none => exact ⟨rfl, h⟩
  | some i => exact ⟨rfl, h.disks, h.backed, by simp only [h.table], rfl⟩

/-! ## Opening -/

theorem Backed.afterTrunc {B : Nat} {d : Disk} (h : Backed B d) (f : Nat) (flags : BitVec 32) :
    Backed B (afterTrunc d flags f) := by
  intro g hg hgB
  have hold := h g ((afterTrunc_fileInode d flags f g).mp hg) hgB
  unfold parte1.afterTrunc
  split
  · by_cases hne : g = f
    · subst hne
      simp [truncated]
    · unfold room at *
      rw [truncated_of_ne d hne]
      exact hold
  · exact hold

theorem Backed.undone {B i : Nat} {d : Disk} (h : Backed B d) (hi : FreeInode d i) :
    Backed B (undone d i) := by
  intro g hg hgB
  have hg' := (undone_fileInode hi g).mp hg
  have hsame := (undone_fileSame hi hg').inode
  unfold room
  rw [hsame]
  exact h g hg' hgB

theorem Backed.createdFile {B i j : Nat} {d : Disk} (h : Backed B d) (hi : FreeInode d i)
    (name : CString) : Backed B (createdFile d i j name) := by
  intro g hg hgB
  rcases (createdFile_fileInode hi name g).mp hg with hold | rfl
  · have hsame : (parte1.createdFile d i j name).inode_table g = d.inode_table g :=
      freshFile_of_ne d (hi.not_file hold)
    unfold room
    rw [hsame]
    exact h g hold hgB
  · simp [parte1.createdFile, freshFile]

theorem inodeCreate_pair {d d' : Disk} (h : TablesSame d d') :
    (inodeCreate d .T_FILE = (-1, d) ∧ inodeCreate d' .T_FILE = (-1, d')) ∨
      ∃ i, FreeInode d i ∧ inodeCreate d .T_FILE = ((i : Int), freshFile d i) ∧
        inodeCreate d' .T_FILE = ((i : Int), freshFile d' i) := by
  unfold inodeCreate
  rw [h.files]
  rcases hf : (List.range INODE_TABLE_SIZE).find? fun i => decide (d.freeinode_ts i = .FREE) with _ | i
  · exact Or.inl ⟨rfl, rfl⟩
  · obtain ⟨h1, h2, _⟩ := List.find?_range_eq_some.mp hf
    refine Or.inr ⟨i, ⟨List.mem_range.mp h2, by simpa using h1⟩, ?_, ?_⟩ <;>
      simp [freshFile, Disk.modInode, Disk.setFreeinode, h.files]

/-- The section under `newFileMutex` goes the same way on both disks. -/
theorem createCritical_pair {B : Nat} {d d' : Disk} (h : LowEq B d d') (hd : DiskInv d)
    (hd' : DiskInv d') (hb : Backed B d) {name : CString}
    (hname : validPathname (some name) = true) (hl : tfsLookup d name = -1) :
    (∃ e e', createCritical d name = (.failed, e) ∧ createCritical d' name = (.failed, e') ∧
        LowEq B e e' ∧ Backed B e) ∨
      ∃ i : Int, ∃ e e', createCritical d name = (.created i, e) ∧
        createCritical d' name = (.created i, e') ∧ LowEq B e e' ∧ Backed B e := by
  have hl' := (h.lookup hd hd' name).trans hl
  rcases inodeCreate_pair h.toTablesSame with ⟨hc, hc'⟩ | ⟨i, hi, hc, hc'⟩
  · exact Or.inl ⟨d, d', createCritical_full hl hc, createCritical_full hl' hc', h, hb⟩
  · have hone := createCritical_inode hd hname hl hi hc
    have htwo := createCritical_inode hd' hname hl' ((h.freeInode i).mpr hi) hc'
    rw [h.dir.addr, firstEmptyEntry_congr h.dir.bytes] at htwo
    rcases hj : firstEmptyEntry d.fs_data (rootAddr d) with _ | j <;> rw [hj] at hone htwo
    · exact Or.inl ⟨_, _, hone, htwo, h.undone hd hd' hb hi, hb.undone hi⟩
    · have hlt := List.mem_range.mp (List.find?_range_eq_some.mp hj).2.1
      exact Or.inr ⟨i, _, _, hone, htwo, h.createdFile hd hd' hb hi hlt name, hb.createdFile hi name⟩

theorem Alike.openFound {B : Nat} {s t : State} (h : Alike B s t) (hs : DiskInv s.disk)
    (ht : DiskInv t.disk) {f : Nat} (hf : FileInode s.disk f) (flags : BitVec 32) :
    AlikeResults B (openFound s flags f) (openFound t flags f) := by
  have hlow := h.disks.afterTrunc hs ht h.backed hf flags
  have hoff : initialOffset (afterTrunc t.disk flags f) flags f =
      initialOffset (afterTrunc s.disk flags f) flags f := by
    unfold initialOffset
    rw [hlow.inodes]
  rw [openFound_eq hs hf, openFound_eq ht ((h.disks.fileInode f).mpr hf), hoff]
  exact (h.setDisk hlow (h.backed.afterTrunc f flags)).addToOpenFileTable _ _ _

theorem Alike.tfsOpen {B : Nat} {s t : State} (h : Alike B s t) (hs : DiskInv s.disk)
    (ht : DiskInv t.disk) (name : Option CString) (flags : BitVec 32) :
    AlikeResults B (tfsOpen s name flags) (tfsOpen t name flags) := by
  cases name with
  | none => exact ⟨rfl, h⟩
  | some path =>
    unfold parte1.tfsOpen
    simp only [h.disks.lookup hs ht path]
    by_cases hv : validPathname (some path) = false
    · simp only [hv, if_true]
      exact ⟨rfl, h⟩
    rw [Bool.not_eq_false] at hv
    simp only [hv, Bool.true_eq_false, if_false]
    rcases tfsLookup_cases hs path with hl | ⟨f, hl, hf⟩
    · simp only [hl, not_zero_le_neg_one, if_false]
      split
      · rcases createCritical_pair h.disks hs ht h.backed hv hl with ⟨e, e', h1, h2, hlow, hb⟩ |
          ⟨i, e, e', h1, h2, hlow, hb⟩
        · simp only [h1, h2]
          exact ⟨rfl, h.setDisk hlow hb⟩
        · simp only [h1, h2]
          exact (h.setDisk hlow hb).addToOpenFileTable _ _ _
      · exact ⟨rfl, h⟩
    · simp only [hl, Int.natCast_nonneg, if_true]
      exact h.openFound hs ht hf flags

theorem Alike.tfsClose {B : Nat} {s t : State} (h : Alike B s t) (fhandle : Int) :
    AlikeResults B (tfsClose s fhandle) (tfsClose t fhandle) := by
  unfold AlikeResults parte1.tfsClose removeFromOpenFileTable
  rw [h.free]
  split
  · exact ⟨rfl, h⟩
  · split
    · exact ⟨rfl, h⟩
    · exact ⟨rfl, h.disks, h.backed, h.table, rfl⟩

/-! ## Writing -/

theorem sizeSet_zero (d : Disk) (f : Nat) : sizeSet d f 0 = d := by
  unfold sizeSet Disk.modInode
  simp only [Nat.not_lt_zero, if_false, Function.update_eq_self]

theorem Backed.grownFor {B : Nat} {d : Disk} {f : Nat} (h : Backed B d) (hd : DiskInv d)
    (hf : FileInode d f) (len o : Nat) : Backed B (grownFor d f len o) := by
  obtain ⟨_, hg⟩ := grownFor_spec hd hf len o
  intro g hgf hgB
  have hold := h g ((hg.fileInode g).mp hgf) hgB
  by_cases hne : g = f
  · subst hne
    rw [hg.size]
    exact hold.trans (Nat.mul_le_mul_right _ hg.blocks_le)
  · unfold room at *
    rw [hg.inode_other g hne]
    exact hold

theorem Backed.stored {B : Nat} {d : Disk} {f o n : Nat} {bs : List UInt8} (h : Backed B d)
    (hn : f ≠ B → n ≤ max (d.inode_table f).i_size (room d f)) :
    Backed B (sizeSet (stored d f o bs) f n) := by
  intro g hg hgB
  have hold := h g ((sizeSet_fileInode _ f n g).mp hg) hgB
  have hroom : room (sizeSet (parte1.stored d f o bs) f n) g = room d g := by
    unfold room
    rw [sizeSet_blocksAlloc]
    rfl
  rw [hroom]
  by_cases hne : g = f
  · subst hne
    have := hn hgB
    rw [sizeSet_self]
    exact max_le hold (this.trans (max_le hold le_rfl))
  · rw [sizeSet_of_ne _ _ hne]
    exact hold

/-- The critical section of a write on both disks, with offsets inside the file unless it
is `B`. -/
theorem writeCritical_alike {B : Nat} {d d' : Disk} {f : Nat} {file : OpenFileEntry}
    {buffer buffer' : List UInt8} (h : LowEq B d d') (hd : DiskInv d) (hd' : DiskInv d')
    (hb : Backed B d) (hf : FileInode d f) (hlen : buffer'.length = buffer.length)
    (hbuf : f ≠ B → buffer' = buffer) (hmax : offsetAt d file f ≤ MAX_FILE_SIZE)
    (hin : 0 < buffer.length → f ≠ B → offsetAt d file f ≤ (d.inode_table f).i_size) :
    (writeCritical d' file f buffer').1 = (writeCritical d file f buffer).1 ∧
      LowEq B (writeCritical d file f buffer).2.1 (writeCritical d' file f buffer').2.1 ∧
      Backed B (writeCritical d file f buffer).2.1 ∧
      (writeCritical d' file f buffer').2.2 = (writeCritical d file f buffer).2.2 := by
  have hf' := (h.fileInode f).mpr hf
  have hoff : offsetAt d' file f = offsetAt d file f := by
    unfold offsetAt
    rw [h.inodes]
  rw [writeCritical_eq hd hf, writeCritical_eq hd' hf', hoff, hlen]
  generalize offsetAt d file f = o at *
  have hlow := h.grownFor hd hd' hb hf buffer.length o
  obtain ⟨hinv, hg⟩ := grownFor_spec hd hf buffer.length o
  obtain ⟨hinv', _⟩ := grownFor_spec hd' hf' buffer.length o
  have hback := hb.grownFor hd hf buffer.length o
  have hran : RanOut d' f buffer.length o ↔ RanOut d f buffer.length o := by
    unfold RanOut
    rw [hlow.room]
  have hcop : copied d' f buffer.length o = copied d f buffer.length o := by
    unfold copied
    rw [hlow.room]
  have hle := copied_le_length hd hf buffer.length hmax
  have htake : (buffer.take (copied d f buffer.length o)).length = copied d f buffer.length o := by
    rw [List.length_take]
    omega
  have htake' : (buffer'.take (copied d f buffer.length o)).length =
      (buffer.take (copied d f buffer.length o)).length := by
    rw [List.length_take, List.length_take, hlen]
  simp only [hran, hcop]
  by_cases hs : saveToWrite buffer.length o = 0
  · simp only [hs, if_true]
    exact ⟨trivial, h, hb, trivial⟩
  have hpos : 0 < buffer.length := by
    by_contra hz
    have hsave := @saveToWrite_eq buffer.length o
      (by simp only [MAX_FILE_SIZE] at *; omega) hmax
    omega
  -- the store is the same for both ends of the write, up to the new size
  have hstore : ∀ n, (f ≠ B → n ≤ max (d.inode_table f).i_size (o + copied d f buffer.length o)) →
      LowEq B
        (sizeSet (stored (grownFor d f buffer.length o) f o
          (buffer.take (copied d f buffer.length o))) f n)
        (sizeSet (stored (grownFor d' f buffer.length o) f o
          (buffer'.take (copied d f buffer.length o))) f n) := by
    intro n hn
    refine hlow.stored hinv hinv' hback ((hg.fileInode f).mpr hf) (copied_inRoom d f o buffer) htake'
      (fun hfB => by rw [hbuf hfB]) fun hfB => ?_
    rw [hg.size, htake]
    exact ⟨hin hpos hfB, hn hfB⟩
  simp only [hs, if_false]
  split
  · have h0 := hstore 0 fun _ => Nat.zero_le _
    have hb0 := @Backed.stored B _ f o 0 (buffer.take (copied d f buffer.length o)) hback
      fun _ => Nat.zero_le _
    rw [sizeSet_zero] at h0 hb0
    rw [sizeSet_zero] at h0
    exact ⟨rfl, h0, hb0, rfl⟩
  · refine ⟨rfl, hstore _ fun _ => le_max_right _ _, hback.stored fun hfB => ?_, rfl⟩
    rw [hg.size]
    have hsize := hin hpos hfB
    unfold copied
    omega

/-! ## Every call keeps the states alike -/

theorem offset_inside {B : Nat} {s : State} {fhandle : Int} {i f : Nat}
    (hget : getOpenFileEntry s fhandle = some i) (hin : (s.open_file_table i).of_inumber = f)
    (hfB : f ≠ B) (hok : fileOf s fhandle ≠ some (B : Int) → InsideFile s fhandle) :
    (s.open_file_table i).isAppending = true ∨
      (s.open_file_table i).of_offset ≤ (s.disk.inode_table f).i_size := by
  have hfile : fileOf s fhandle ≠ some (B : Int) := by
    simp only [fileOf, hget, Option.map_some, hin, ne_eq, Option.some.injEq]
    omega
  have := hok hfile i hget
  rwa [hin, Int.toNat_natCast] at this

theorem Alike.tfsWrite {B : Nat} {s t : State} (h : Alike B s t) (hs : Inv s) (ht : Inv t)
    {fhandle : Int} {buffer buffer' : List UInt8} (hlen : buffer'.length = buffer.length)
    (hbuf : fileOf s fhandle ≠ some (B : Int) → buffer' = buffer)
    (hok : NotBehindEnd B s (.tfsWrite fhandle buffer)) :
    AlikeResults B (tfsWrite s fhandle buffer) (tfsWrite t fhandle buffer') := by
  have hsame := h.getOpenFileEntry fhandle
  rcases tfsWrite_cases hs fhandle buffer with ⟨hget, hr⟩ | ⟨i, f, hget, hin, hf, hr⟩ <;>
    rcases tfsWrite_cases ht fhandle buffer' with ⟨hget', hr'⟩ | ⟨i', f', hget', hin', _, hr'⟩ <;>
    rw [hsame, hget] at hget'
  · rw [hr, hr']
    exact ⟨rfl, h⟩
  · cases hget'
  · cases hget'
  · obtain rfl := Option.some.inj hget'
    rw [h.table, hin] at hin'
    obtain rfl : f = f' := by omega
    obtain ⟨_, ho⟩ := hs.open_on_file hget hin
    have hmax := offsetAt_le ho (hs.size_le f hf)
    have hbuf' : f ≠ B → buffer' = buffer := fun hfB => hbuf (by
      simp only [fileOf, hget, Option.map_some, hin, ne_eq, Option.some.injEq]
      omega)
    have hend : 0 < buffer.length → f ≠ B →
        offsetAt s.disk (s.open_file_table i) f ≤ (s.disk.inode_table f).i_size := by
      intro hpos hfB
      unfold offsetAt
      split
      · exact le_rfl
      · exact (offset_inside hget hin hfB (hok hpos)).resolve_left ‹_›
    obtain ⟨h1, h2, h3, h4⟩ := writeCritical_alike h.disks hs.disk ht.disk h.backed hf hlen hbuf'
      hmax hend
    rw [hr, hr', h.table]
    exact ⟨h1, h2, h3, by simp only [fillEntry, h4], h.free⟩

theorem Alike.tfsRead {B : Nat} {s t : State} (h : Alike B s t) (hs : Inv s) (ht : Inv t)
    {fhandle : Int} {len : Nat} (hok : NotBehindEnd B s (.tfsRead fhandle len)) :
    (tfsRead t fhandle len).1.1 = (tfsRead s fhandle len).1.1 ∧
      (fileOf s fhandle ≠ some (B : Int) →
        (tfsRead t fhandle len).1.2 = (tfsRead s fhandle len).1.2) ∧
      Alike B (tfsRead s fhandle len).2 (tfsRead t fhandle len).2 := by
  have hsame := h.getOpenFileEntry fhandle
  rcases tfsRead_cases hs fhandle len with ⟨hget, hr⟩ | ⟨i, f, hget, hin, hf, hr⟩ <;>
    rcases tfsRead_cases ht fhandle len with ⟨hget', hr'⟩ | ⟨i', f', hget', hin', hf', hr'⟩ <;>
    rw [hsame, hget] at hget'
  · rw [hr, hr']
    exact ⟨rfl, fun _ => rfl, h⟩
  · cases hget'
  · cases hget'
  · obtain rfl := Option.some.inj hget'
    rw [h.table, hin] at hin'
    obtain rfl : f = f' := by omega
    rw [hr, hr', h.table]
    by_cases happ : (s.open_file_table i).isAppending = true
    · simp only [happ, if_true]
      exact ⟨trivial, fun _ => trivial, h⟩
    have hsave : toReadSave t.disk f (s.open_file_table i).of_offset len =
        toReadSave s.disk f (s.open_file_table i).of_offset len := by
      unfold toReadSave
      rw [h.disks.inodes]
    have hbytes : fileOf s fhandle ≠ some (B : Int) →
        fileLoad BLOCK_SIZE (blocksOf t.disk f) t.disk.fs_data (s.open_file_table i).of_offset
            (min (toReadSave s.disk f (s.open_file_table i).of_offset len)
              (room s.disk f - (s.open_file_table i).of_offset)) =
          fileLoad BLOCK_SIZE (blocksOf s.disk f) s.disk.fs_data (s.open_file_table i).of_offset
            (min (toReadSave s.disk f (s.open_file_table i).of_offset len)
              (room s.disk f - (s.open_file_table i).of_offset)) := by
      intro hne
      have hfB : f ≠ B := by
        simp only [fileOf, hget, Option.map_some, hin, ne_eq, Option.some.injEq] at hne
        omega
      have hmax := hs.size_le f hf
      rcases Nat.eq_zero_or_pos len with rfl | hpos
      · have h0 : toReadSave s.disk f (s.open_file_table i).of_offset 0 = 0 := by
          unfold toReadSave
          split <;> omega
        rw [h0, Nat.zero_min]
        rfl
      · have ho := (offset_inside hget hin hfB (hok hpos)).resolve_left happ
        have hn : toReadSave s.disk f (s.open_file_table i).of_offset len ≤
            (s.disk.inode_table f).i_size - (s.open_file_table i).of_offset := by
          unfold toReadSave
          rw [sizeT_sub ho (by simp only [MAX_FILE_SIZE] at hmax; omega)]
          split <;> omega
        exact h.disks.load hf hfB (by omega)
    rw [readCritical_eq hs.disk hf, readCritical_eq ht.disk hf']
    rw [if_neg happ, if_neg happ]
    simp only [hsave, h.disks.room]
    have hfill : ∀ e, Alike B (fillEntry s i e) (fillEntry t i e) := fun e =>
      ⟨h.disks, h.backed, by simp only [fillEntry, h.table], h.free⟩
    split
    · exact ⟨rfl, hbytes, hfill _⟩
    · exact ⟨rfl, hbytes, hfill _⟩

/-- One step of the two runs. -/
theorem exec_alike {B : Nat} {s t : State} {a b : Op} (h : Inv s ∧ Inv t ∧ Alike B s t)
    (hc : SameCall B s a b ∧ NotBehindEnd B s a) :
    (Inv (exec s a).2 ∧ Inv (exec t b).2 ∧ Alike B (exec s a).2 (exec t b).2) ∧
      SameAnswer B s a (exec s a).1 (exec t b).1 := by
  obtain ⟨hs, ht, halike⟩ := h
  obtain ⟨hsame, hok⟩ := hc
  suffices hstep : Alike B (exec s a).2 (exec t b).2 ∧ SameAnswer B s a (exec s a).1 (exec t b).1 from
    ⟨⟨hs.exec a, ht.exec b, hstep.1⟩, hstep.2⟩
  cases a with
  | tfsOpen name flags =>
    have hopen := halike.tfsOpen hs.disk ht.disk name flags
    cases b <;> simp only [SameCall] at hsame
    obtain ⟨rfl, rfl⟩ := hsame
    exact ⟨hopen.2, hopen.1, rfl⟩
  | tfsClose fhandle =>
    have hclose := halike.tfsClose fhandle
    cases b <;> simp only [SameCall] at hsame
    subst hsame
    exact ⟨hclose.2, hclose.1, rfl⟩
  | tfsRead fhandle len =>
    cases b <;> simp only [SameCall] at hsame
    obtain ⟨rfl, rfl⟩ := hsame
    obtain ⟨hret, hbytes, halike'⟩ := halike.tfsRead hs ht hok
    exact ⟨halike', hret, hbytes⟩
  | tfsWrite fhandle buffer =>
    cases b <;> simp only [SameCall] at hsame
    obtain ⟨rfl, hlen, hbuf⟩ := hsame
    have hwrite := halike.tfsWrite hs ht hlen hbuf hok
    exact ⟨hwrite.2, hwrite.1, rfl⟩
  | tfsCopyToExternalFs source_path destOpens => exact hsame.elim

/-! ## The law -/

/-- Two runs from the first `tfs_init` that differ in the bytes written to file `B` only, and in
which no other file is read or written behind its end, give the same answers to everyone who does
not read `B`. -/
theorem the_other_files_do_not_show_the_difference (B : Nat) (as bs : List Op)
    (hcalls : runs.Paired exec (SameCall B) (tfsInit zeroed).2 as bs)
    (hok : runs.Meets exec (NotBehindEnd B) (tfsInit zeroed).2 as) :
    runs.Agree exec (SameAnswer B) (tfsInit zeroed).2 as (runs.run exec (tfsInit zeroed).2 as).1
      (runs.run exec (tfsInit zeroed).2 bs).1 := by
  have hinv : Inv (tfsInit zeroed).2 := Initial.inv ⟨zeroed, rfl⟩
  have hback : Backed B (tfsInit zeroed).2.disk := by
    intro f hf
    rw [tfsInit_eq] at hf
    exact (firstDisk_fileInode _ f hf).elim
  refine (runs.run_related (R := fun s t => Inv s ∧ Inv t ∧ Alike B s t) ?_
    ⟨hinv, hinv, LowEq.refl B _, hback, rfl, rfl⟩ (hcalls.and_meets hok)).2
  exact fun _ _ _ _ h hc => exec_alike h hc

/-- Byte `x` is written to `/f`, which is inode 1, and a byte of `/g` is written and read. -/
def twoFilesApart (x : UInt8) : List Op :=
  [.tfsOpen (some pathF) TFS_O_CREAT, .tfsWrite 0 [x], .tfsOpen (some pathG) TFS_O_CREAT,
    .tfsWrite 1 [9], .tfsOpen (some pathG) 0, .tfsRead 2 1]

theorem two_files_apart :
    runs.Agree exec (SameAnswer 1) (tfsInit zeroed).2 (twoFilesApart 1)
      (runs.run exec (tfsInit zeroed).2 (twoFilesApart 1)).1
      (runs.run exec (tfsInit zeroed).2 (twoFilesApart 2)).1 := by
  refine the_other_files_do_not_show_the_difference 1 (twoFilesApart 1) (twoFilesApart 2) ?_ ?_
  · exact ⟨⟨rfl, rfl⟩, ⟨rfl, rfl, fun h => absurd (by decide +kernel) h⟩, ⟨rfl, rfl⟩,
      ⟨rfl, rfl, fun _ => rfl⟩, ⟨rfl, rfl⟩, ⟨rfl, rfl⟩, trivial⟩
  · exact ⟨trivial, fun _ h => absurd (by decide +kernel) h, trivial, fun _ _ => by decide +kernel,
      trivial, fun _ _ => by decide +kernel, trivial⟩

/-- `/f` loses its block while handle 0 is at offset 2, `/g`, which is inode 2, writes byte `x` to
the block and gives it back, `/f` takes it again for one byte, and handle 0 reads behind it. -/
def staleByte (x : UInt8) : List Op :=
  [.tfsOpen (some pathF) TFS_O_CREAT, .tfsWrite 0 [1, 1], .tfsOpen (some pathF) TFS_O_TRUNC,
    .tfsOpen (some pathG) TFS_O_CREAT, .tfsWrite 2 [5, 5, x], .tfsOpen (some pathG) TFS_O_TRUNC,
    .tfsWrite 1 [7], .tfsRead 0 1]

/-- The read of `/f` gives the byte that was written to `/g`. -/
theorem a_stale_byte_shows :
    runs.Paired exec (SameCall 2) (tfsInit zeroed).2 (staleByte 1) (staleByte 2) ∧
      ¬ runs.Agree exec (SameAnswer 2) (tfsInit zeroed).2 (staleByte 1)
        (runs.run exec (tfsInit zeroed).2 (staleByte 1)).1
        (runs.run exec (tfsInit zeroed).2 (staleByte 2)).1 := by
  refine ⟨⟨⟨rfl, rfl⟩, ⟨rfl, rfl, fun _ => rfl⟩, ⟨rfl, rfl⟩, ⟨rfl, rfl⟩,
    ⟨rfl, rfl, fun h => absurd (by decide +kernel) h⟩, ⟨rfl, rfl⟩, ⟨rfl, rfl, fun _ => rfl⟩,
    ⟨rfl, rfl⟩, trivial⟩, fun h => ?_⟩
  have hread := h.2.2.2.2.2.2.2.1.2 (by decide +kernel)
  exact absurd hread (by decide +kernel)

end tecnicofs.parte1
