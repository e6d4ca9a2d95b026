-- The server's file system is a store of files: in every run of calls on open
-- handles that creates short names and truncates no file under an offset, each
-- call answers like the store, and the disk holds the files of the store.
import TecnicoFS.Common.StoreCalls
import TecnicoFS.Lib.Refinement
import TecnicoFS.Parte2.DiskLaws

open byte_memory file_store

namespace tecnicofs.parte2

/-- A file has one block, and the flag for appending sets the first offset only. -/
def limits : Limits := ⟨MAX_DIR_ENTRIES, MAX_OPEN_FILES, BLOCK_SIZE, false⟩

/-- The call as a call of the store. A shutdown is none; it is not among the calls of the runs. -/
def storeExec (st : Store CString UInt8) : Op → file_store.Reply UInt8 × Store CString UInt8
  | .tfsLookup name => file_store.exec limits st (.lookup (nameOf name))
  | .tfsOpen name flags => file_store.exec limits st (.openFile (nameOf name) (modeOf flags))
  | .tfsClose fhandle => file_store.exec limits st (.close fhandle.toNat?)
  | .tfsRead fhandle len => file_store.exec limits st (.read fhandle.toNat? len)
  | .tfsWrite fhandle buffer => file_store.exec limits st (.write fhandle.toNat? buffer)
  | .tfsDestroyAfterAllClosed => (.failed, st)

/-- What a caller may ask for: short names for new files, no truncation under an offset, reads and
writes through open handles. -/
def Careful (st : Store CString UInt8) : Op → Prop
  | .tfsOpen name flags =>
    NameFits name flags ∧ Spares st (.openFile (nameOf name) (modeOf flags))
  | .tfsRead fhandle _ => (st.get fhandle.toNat?).isSome = true
  | .tfsWrite fhandle buffer =>
    (st.get fhandle.toNat?).isSome = true ∧ buffer.length < 2 ^ 63
  | .tfsDestroyAfterAllClosed => False
  | _ => True

/-- What a caller sees of an answer, and how the section ends. -/
def Answer.shown (r : Answer) : Int × List UInt8 × Exit := (r.ret, r.bytes, r.exit)

def shownReply (r : file_store.Reply UInt8) : Int × List UInt8 × Exit := (returned r.ret, r.bytes, .unlocks)

/-! ## The disk and the store -/

/-- The disk holds these files. -/
structure HoldsFiles (d : Disk) (names : List CString) (bytes : Nat → List UInt8) : Prop where
  filled : Filled d names.length
  listed : DirLists d.fs_data (rootAddr d) names
  bytes : ∀ k < names.length, contents d (k + 1) = bytes k

/-- The entry as a handle of the store: a file has the number below its inode. -/
def handleOf (e : OpenFileEntry) : Handle := ⟨(e.of_inumber - 1).toNat, e.of_offset, false⟩

/-- The handle in slot `i`. -/
def slotOf (s : State) (i : Nat) : Option Handle :=
  slotIn s.free_open_file_entries (fun j => handleOf (s.open_file_table j)) i

/-- The state holds the files and the handles of the store. -/
structure Shows (s : State) (st : Store CString UInt8) : Prop where
  sound : Sound s
  ok : Ok limits st
  running : 0 ≤ s.openFiles
  files : HoldsFiles s.disk st.names st.bytes
  slot : ∀ i, st.handle i = slotOf s i

section
variable {d : Disk} {names : List CString} {bytes : Nat → List UInt8} (h : DiskInv d)
  (hd : HoldsFiles d names bytes)
include hd

theorem HoldsFiles.fileInode {k : Nat} (hk : k < names.length) : FileInode d (k + 1) :=
  hd.filled.fileInode_iff.mpr ⟨Nat.succ_ne_zero k, hk⟩

theorem HoldsFiles.size {k : Nat} (hk : k < names.length) :
    (d.inode_table (k + 1)).i_size = (bytes k).length := by
  rw [← hd.bytes k hk, contents_length]

/-- Other bytes on a disk with the same directory. -/
theorem HoldsFiles.congr {d' : Disk} {bytes' : Nat → List UInt8} (hn : Filled d' names.length)
    (hb : rootBlock d' = rootBlock d)
    (hm : ∀ j < BLOCK_SIZE, d'.fs_data (rootAddr d + j) = d.fs_data (rootAddr d + j))
    (hbytes : ∀ k < names.length, contents d' (k + 1) = bytes' k) : HoldsFiles d' names bytes' where
  filled := hn
  listed := by
    have haddr : rootAddr d' = rootAddr d := by
      unfold rootAddr
      rw [hb]
    rw [haddr]
    exact hd.listed.congr hm
  bytes := hbytes

theorem HoldsFiles.truncated {k : Nat} (hk : k < names.length) :
    HoldsFiles (truncated d (k + 1)) names (Function.update bytes k []) := by
  have hf := hd.fileInode hk
  refine hd.congr (hd.filled.truncated hf)
    (congrArg Inode.i_data_block (truncated_of_ne d hf.1.symm))
    (fun _ _ => by rw [truncated_data]) fun j hj => ?_
  by_cases hjk : j = k
  · subst hjk
    rw [Function.update_self, truncated_contents_self]
  · rw [Function.update_of_ne hjk, truncated_contents_of_ne (by omega)]
    exact hd.bytes j hj

theorem HoldsFiles.undone : HoldsFiles (undone d (names.length + 1)) names bytes := by
  have hfree := hd.filled.next_free
  refine hd.congr hd.filled.undone
    (congrArg Inode.i_data_block (freshFile_of_ne d (root_ne_next names.length)))
    (fun _ _ => rfl) fun k hk => ?_
  rw [undone_contents (hd.fileInode hk) hfree]
  exact hd.bytes k hk

include h

theorem HoldsFiles.createdFile {name : CString} (hroom : names.length < MAX_DIR_ENTRIES)
    (hname : name.strlen < MAX_FILE_NAME) :
    HoldsFiles (createdFile d (names.length + 1) names.length name) (names ++ [name])
      (Function.update bytes names.length []) := by
  have hroot : (freshFile d (names.length + 1)).inode_table ROOT_DIR_INUM =
      d.inode_table ROOT_DIR_INUM := freshFile_of_ne d (root_ne_next names.length)
  have haddr : rootAddr (freshFile d (names.length + 1)) = rootAddr d := by
    unfold rootAddr rootBlock
    rw [hroot]
  have hlen : (names ++ [name]).length = names.length + 1 := by simp
  refine ⟨hlen ▸ hd.filled.createdFile hroom name, ?_, fun k hk => ?_⟩
  · change DirLists (fillDirEntry d.fs_data (rootAddr (freshFile d (names.length + 1)))
      names.length _ name) (rootAddr (freshFile d (names.length + 1))) _
    rw [haddr, fillDirEntry_eq]
    exact hd.listed.fill hroom hname
  · by_cases hkn : k = names.length
    · subst hkn
      rw [Function.update_self, createdFile_contents_self]
    · rw [Function.update_of_ne hkn,
        createdFile_contents h (hd.fileInode (by omega)) hd.filled.next_free hroom]
      exact hd.bytes k (by omega)

theorem HoldsFiles.writtenDisk {k o : Nat} (hk : k < names.length) {new : List UInt8}
    (ho : o ≤ (bytes k).length) (hend : o + new.length ≤ BLOCK_SIZE) :
    HoldsFiles (writtenDisk d (k + 1) o new) names
      (Function.update bytes k (overwrite (bytes k) o new)) := by
  have hf := hd.fileInode hk
  refine hd.congr (writtenDisk_filled h hd.filled hf hend) ?_ (writtenDisk_root h hd.filled hf hend)
    fun j hj => ?_
  · exact congrArg Inode.i_data_block
      ((grown_of_ne _ hf.1.symm _ _).trans (withDataBlock_of_ne d hf.1.symm))
  · by_cases hjk : j = k
    · subst hjk
      rw [Function.update_self, writtenDisk_contents (by rwa [hd.size hk]), hd.bytes j hj]
    · rw [Function.update_of_ne hjk,
        writtenDisk_contents_of_ne h hd.filled hf hend (hd.fileInode hj) (by omega)]
      exact hd.bytes j hj

/-- The lookup of a path finds the inode behind the number of the file. -/
theorem HoldsFiles.lookup {path : CString} (hv : validPathname (some path) = true) :
    tfsLookupUnsynchronized d (some path) =
      match names.findIdx? fun n => decide (n = path.skip) with
      | some k => ((k + 1 : Nat) : Int)
      | none => -1 := by
  rw [h.lookup_path hv]
  exact hd.listed.scan path.skip

end

/-! ## The slots -/

section
variable {s : State} {st : Store CString UInt8} (hslot : ∀ i, st.handle i = slotOf s i)
include hslot

/-- Slot `i` gets a handle on file `k`. -/
theorem setHandle_shown {s' : State} {i k o : Nat} (hi : i < MAX_OPEN_FILES)
    (htable : s'.open_file_table = Function.update s.open_file_table i ⟨(k + 1 : Nat), o⟩)
    (htaken : s'.free_open_file_entries i = .TAKEN)
    (hfree : ∀ j, j ≠ i → s'.free_open_file_entries j = s.free_open_file_entries j) (j : Nat) :
    (st.setHandle i (some ⟨k, o, false⟩)).handle j = slotOf s' j := by
  apply setHandle_slotIn hslot hi htaken hfree
  · rw [htable, Function.update_self]
    simp [handleOf]
  · intro m hm
    rw [htable, Function.update_of_ne hm]

theorem addToOpenFileTable_shown (k o : Nat) :
    let r := addToOpenFileTable s (k + 1 : Nat) o
    let r' := st.addHandle limits ⟨k, o, false⟩
    r.1 = returned r'.1.ret ∧ r'.1.bytes = [] ∧ r'.2.names = st.names ∧ r'.2.bytes = st.bytes ∧
      (∀ i, r'.2.handle i = slotOf r.2 i) ∧ r.2.disk = s.disk ∧ r.2.openFiles = s.openFiles := by
  unfold addToOpenFileTable
  simp only [addHandle_slotIn hslot limits rfl]
  rcases hf : (List.range MAX_OPEN_FILES).find? fun i =>
    decide (s.free_open_file_entries i = .FREE) with _ | i
  · exact ⟨rfl, rfl, rfl, rfl, hslot, rfl, rfl⟩
  · obtain ⟨_, hi, _⟩ := List.find?_range_eq_some.mp hf
    refine ⟨rfl, rfl, rfl, rfl, ?_, rfl, rfl⟩
    apply setHandle_shown hslot (List.mem_range.mp hi) rfl
    · simp
    · intro j hji
      simp [hji]

/-- The slot of a handle of the store. -/
theorem get_shown {fhandle : Int} {i : Nat} {e : Handle}
    (hget : st.get fhandle.toNat? = some (i, e)) :
    getOpenFileEntry fhandle = some i ∧ OpenHandle s fhandle ∧ i < MAX_OPEN_FILES ∧
      s.free_open_file_entries i = .TAKEN ∧ e = handleOf (s.open_file_table i) := by
  obtain ⟨rfl, hi, ht, he⟩ := (get_slotIn hslot).mp hget
  have hv : validFileHandle (i : Int) = true := validFileHandle_eq_true.mpr (by omega)
  refine ⟨?_, ⟨hv, ht⟩, hi, ht, he⟩
  simp [getOpenFileEntry, hv]

/-- A handle that is not open has no slot in the store. -/
theorem get_none_iff {fhandle : Int} :
    st.get fhandle.toNat? = none ↔ ¬ OpenHandle s fhandle := by
  constructor
  · rintro hnone ⟨hv, ht⟩
    have hr := validFileHandle_eq_true.mp hv
    apply get_none_slotIn hslot hnone _ ht
    · omega
    · omega
  · intro hno
    rcases hget : st.get fhandle.toNat? with _ | ⟨i, e⟩
    · rfl
    · exact absurd (get_shown hslot hget).2.1 hno

end

/-! ## The calls -/

section
variable {s : State} {st : Store CString UInt8} (h : Shows s st)
include h

/-- The file of a handle, on the disk and in the store. -/
theorem Shows.handle {fhandle : Int} {i : Nat} {e : Handle}
    (hget : st.get fhandle.toNat? = some (i, e)) :
    e.file < st.names.length ∧ (s.open_file_table i).of_inumber = (e.file + 1 : Nat) ∧
      (s.open_file_table i).of_offset = e.offset ∧ e.appends = false ∧
      e.offset ≤ (st.bytes e.file).length := by
  obtain ⟨_, _, hi, ht, rfl⟩ := get_shown h.slot hget
  obtain ⟨_, hst⟩ := (get_eq_some st).mp hget
  obtain ⟨f, hnum, hf, _⟩ := h.sound.handle i hi ht
  have hf0 := (h.files.filled.fileInode_iff.mp hf).1
  refine ⟨h.ok.file i _ hst, ?_, rfl, rfl, h.ok.offset i _ hst rfl⟩
  simp only [handleOf, hnum, ROOT_DIR_INUM] at hf0 ⊢
  omega

theorem Shows.lookup (name : Option CString) :
    tfsLookupUnsynchronized s.disk name = returned (st.lookup (nameOf name)).1.ret ∧
      (st.lookup (nameOf name)).1.bytes = [] ∧ (st.lookup (nameOf name)).2 = st := by
  by_cases hv : validPathname name = true
  · cases name with
    | none => cases hv
    | some path =>
      rw [h.files.lookup h.sound.disk hv, nameOf_valid hv]
      unfold Store.lookup Store.find
      simp only
      rcases st.names.findIdx? fun n => decide (n = path.skip) with _ | k <;> exact ⟨rfl, rfl, rfl⟩
  · rw [Bool.not_eq_true] at hv
    rw [nameOf_not_valid hv]
    refine ⟨?_, rfl, rfl⟩
    unfold tfsLookupUnsynchronized
    cases name with
    | none => rfl
    | some path =>
      simp only [hv, if_true]
      rfl

/-- A file that was found is truncated if the flags say so, and gets a handle. -/
theorem Shows.openExisting {k : Nat} (hk : k < st.names.length) (flags : BitVec 32) :
    let r := openExisting s flags (k + 1 : Nat)
    let st' := st.truncated (modeOf flags) k
    let r' := st'.addHandle limits (st'.startHandle limits (modeOf flags) k)
    r.1 = returned r'.1.ret ∧ r'.1.bytes = [] ∧ HoldsFiles r.2.disk r'.2.names r'.2.bytes ∧
      (∀ i, r'.2.handle i = slotOf r.2 i) ∧ r.2.openFiles = s.openFiles := by
  have hf := h.files.fileInode hk
  have hfiles : HoldsFiles (afterTrunc s.disk flags (k + 1)) (st.truncated (modeOf flags) k).names
      (st.truncated (modeOf flags) k).bytes := by
    unfold afterTrunc Store.truncated modeOf
    simp only
    split
    · exact h.files.truncated hk
    · exact h.files
  have hhandle : (st.truncated (modeOf flags) k).handle = st.handle := by
    unfold Store.truncated
    split <;> rfl
  have hnames : (st.truncated (modeOf flags) k).names = st.names := by
    unfold Store.truncated
    split <;> rfl
  have hstart : (st.truncated (modeOf flags) k).startHandle limits (modeOf flags) k =
      ⟨k, initialOffset (afterTrunc s.disk flags (k + 1)) flags (k + 1), false⟩ := by
    have hsize := hfiles.size (hnames ▸ hk)
    unfold Store.startHandle initialOffset modeOf
    simp only
    split
    · simp only [hsize, limits]
      rfl
    · rfl
  simp only [openExisting_file h.sound.disk hf, hstart]
  have hslot : ∀ i, (st.truncated (modeOf flags) k).handle i =
      slotOf { s with disk := afterTrunc s.disk flags (k + 1) } i := by
    rw [hhandle]
    exact h.slot
  obtain ⟨hret, hbytes, hn, hb, hs, hdisk, hopen⟩ := addToOpenFileTable_shown hslot k
    (initialOffset (afterTrunc s.disk flags (k + 1)) flags (k + 1))
  exact ⟨hret, hbytes, by rw [hdisk, hn, hb]; exact hfiles, hs, hopen⟩

theorem Shows.openUnsynchronized {name : Option CString} {flags : BitVec 32}
    (hname : NameFits name flags) :
    let r' := st.openFile limits (nameOf name) (modeOf flags)
    ∃ r, tfsOpenUnsynchronized s name flags = some r ∧ r.1 = returned r'.1.ret ∧
      r'.1.bytes = [] ∧ HoldsFiles r.2.disk r'.2.names r'.2.bytes ∧
      (∀ i, r'.2.handle i = slotOf r.2 i) ∧ r.2.openFiles = s.openFiles := by
  have hlook := (h.lookup name).1
  unfold tfsOpenUnsynchronized
  by_cases hv : validPathname name = true
  · cases name with
    | none => cases hv
    | some path =>
      rw [nameOf_valid hv] at hlook ⊢
      unfold Store.lookup at hlook
      unfold Store.openFile
      simp only at hlook ⊢
      rcases hfind : st.find path.skip with _ | k
      · rw [hfind] at hlook
        simp only [returned] at hlook ⊢
        simp only [hlook, not_zero_le_neg_one, if_false]
        by_cases hc : hasFlag flags TFS_O_CREAT = true
        · obtain ⟨hp, hsome⟩ := valid_strlen hv
          obtain ⟨p, hpath, _, hshort⟩ := hname hc
          obtain rfl := Option.some.inj hpath
          simp only [hc, if_true, openNew_eq h.sound.disk h.files.filled hp, hsome, false_or]
          refine ⟨_, rfl, ?_⟩
          have hle := h.ok.files_le
          by_cases hfull : st.names.length = MAX_DIR_ENTRIES
          · have hmode : ¬ ((modeOf flags).create = true ∧ st.names.length < limits.maxFiles) := by
              simp only [limits]
              omega
            rw [if_pos hfull, if_neg hmode]
            exact ⟨rfl, rfl, h.files.undone, h.slot, rfl⟩
          · have hroom : st.names.length < MAX_DIR_ENTRIES := by
              simp only [limits] at hle
              omega
            have hmode : (modeOf flags).create = true ∧ st.names.length < limits.maxFiles :=
              ⟨hc, hroom⟩
            rw [if_neg hfull, if_pos hmode]
            have hfiles := h.files.createdFile h.sound.disk hroom hshort
            have hslot : ∀ i, (st.created path.skip).handle i = slotOf { s with
                disk := createdFile s.disk (st.names.length + 1) st.names.length path.skip } i :=
              h.slot
            obtain ⟨hret, hbytes, hn, hb, hs, hdisk, hopen⟩ :=
              addToOpenFileTable_shown hslot st.names.length 0
            exact ⟨hret, hbytes, by rw [hdisk, hn, hb]; exact hfiles, hs, hopen⟩
        · have hmode : ¬ ((modeOf flags).create = true ∧ st.names.length < limits.maxFiles) :=
            fun hm => hc hm.1
          rw [if_neg hc, if_neg hmode]
          exact ⟨_, rfl, rfl, rfl, h.files, h.slot, rfl⟩
      · rw [hfind] at hlook
        simp only [returned] at hlook ⊢
        have h0 : (0 : Int) ≤ ((k + 1 : Nat) : Int) := Int.natCast_nonneg _
        simp only [hlook, h0, if_true]
        exact ⟨_, rfl, h.openExisting (find_eq_some st hfind).1 flags⟩
  · have hcreate : ¬ hasFlag flags TFS_O_CREAT = true := fun hc => by
      obtain ⟨p, rfl, hp, _⟩ := hname hc
      exact hv hp
    rw [Bool.not_eq_true] at hv
    rw [nameOf_not_valid hv] at hlook ⊢
    simp only [Store.lookup, returned] at hlook
    simp only [hlook, not_zero_le_neg_one, if_false, hcreate]
    exact ⟨_, rfl, rfl, rfl, h.files, h.slot, rfl⟩

theorem Shows.close (fhandle : Int) :
    let r := tfsClose s fhandle
    let r' := st.close fhandle.toNat?
    r.1.shown = shownReply r'.1 ∧ HoldsFiles r.2.disk r'.2.names r'.2.bytes ∧
      (∀ i, r'.2.handle i = slotOf r.2 i) ∧ 0 ≤ r.2.openFiles := by
  have hrun := h.running
  unfold Store.close
  rcases hget : st.get fhandle.toNat? with _ | ⟨i, e⟩
  · have hno := (get_none_iff h.slot).mp hget
    rcases tfsClose_cases s fhandle with ⟨_, he⟩ | ⟨i, hi, rfl, ht, _⟩
    · simp only [he]
      exact ⟨rfl, h.files, h.slot, hrun⟩
    · refine absurd ⟨validFileHandle_eq_true.mpr ?_, ?_⟩ hno
      · omega
      · rwa [Int.toNat_natCast]
  · obtain ⟨hentry, hopen, hi, ht, _⟩ := get_shown h.slot hget
    rcases tfsClose_cases s fhandle with ⟨hno, _⟩ | ⟨j, _, rfl, _, he⟩
    · exact absurd hopen hno
    · obtain rfl : j = i := by
        have := ((get_eq_some st).mp hget).1
        have := Int.mem_toNat?.mp this
        omega
      simp only [he]
      refine ⟨rfl, h.files, clearHandle_slotIn h.slot j, ?_⟩
      split <;> omega

theorem Shows.read {fhandle : Int} {i : Nat} {e : Handle}
    (hget : st.get fhandle.toNat? = some (i, e)) (len : Nat) :
    let r' := st.read fhandle.toNat? len
    ∃ r s', tfsRead s fhandle len = some (r, s') ∧ r.shown = shownReply r'.1 ∧
      HoldsFiles s'.disk r'.2.names r'.2.bytes ∧ (∀ j, r'.2.handle j = slotOf s' j) ∧
      s'.openFiles = s.openFiles := by
  obtain ⟨hentry, _, hi, ht, _⟩ := get_shown h.slot hget
  obtain ⟨hk, hnum, hoff, happ, hle⟩ := h.handle hget
  have hsize := h.files.size hk
  unfold Store.read
  rw [tfsRead_eq h.sound.disk hentry hnum (h.files.fileInode hk) (by rw [hoff, hsize]; exact hle)]
  simp only [hget, happ, Bool.false_eq_true, if_false, hoff, h.files.bytes _ hk]
  refine ⟨_, _, rfl, rfl, h.files, ?_, rfl⟩
  have hself : e = ⟨e.file, e.offset, false⟩ := by rw [← happ]
  rw [hself]
  exact setHandle_shown h.slot hi rfl ht fun _ _ => rfl

theorem Shows.write {fhandle : Int} {i : Nat} {e : Handle}
    (hget : st.get fhandle.toNat? = some (i, e)) {buffer : List UInt8}
    (hl : buffer.length < 2 ^ 63) :
    let r' := st.write limits fhandle.toNat? buffer
    ∃ r s', tfsWrite s fhandle buffer = some (r, s') ∧ r.shown = shownReply r'.1 ∧
      HoldsFiles s'.disk r'.2.names r'.2.bytes ∧ (∀ j, r'.2.handle j = slotOf s' j) ∧
      s'.openFiles = s.openFiles := by
  obtain ⟨hentry, _, hi, ht, _⟩ := get_shown h.slot hget
  obtain ⟨hk, hnum, hoff, happ, hle⟩ := h.handle hget
  have hmax : e.offset ≤ BLOCK_SIZE := hle.trans (h.ok.size_le e.file)
  have hself : e = ⟨e.file, e.offset, false⟩ := by rw [← happ]
  have hpos : st.position e = e.offset := by
    unfold Store.position
    rw [happ]
    rfl
  have hlen : e.offset + (buffer.take (BLOCK_SIZE - e.offset)).length ≤ BLOCK_SIZE := by
    have := List.length_take_le (BLOCK_SIZE - e.offset) buffer
    omega
  unfold Store.write
  rw [tfsWrite_eq h.sound.disk h.files.filled hentry hnum (h.files.fileInode hk)
    (by rw [hoff]; exact hmax) hl]
  simp only [hget, hpos, hoff, limits]
  refine ⟨_, _, rfl, rfl, ?_, fun j => ?_, ?_⟩
  · simp only [Store.setHandle, Store.setBytes]
    split
    · rename_i hz
      rw [List.eq_nil_of_length_eq_zero hz, overwrite_nil, Function.update_eq_self]
      exact h.files
    · exact h.files.writtenDisk h.sound.disk hk hle hlen
  · split
    · rename_i hz
      have hsame : (some { e with offset := e.offset } : Option Handle) = st.handle i :=
        ((get_eq_some st).mp hget).2.symm
      simp only [Store.setHandle, Store.setBytes, hz, Nat.add_zero, hsame, Function.update_eq_self]
      exact h.slot j
    · have hslot : ∀ bytes j, (st.setBytes e.file bytes).handle j = slotOf s j := fun _ => h.slot
      rw [hself]
      apply setHandle_shown (hslot _) hi
      · rfl
      · exact ht
      · exact fun _ _ => rfl
  · split <;> rfl

/-- A careful call is one of the calls through open handles. -/
theorem Shows.throughOpenHandles {op : Op} (hc : Careful st op) : ThroughOpenHandles s op := by
  have hopen : ∀ fhandle : Int, (st.get fhandle.toNat?).isSome = true → OpenHandle s fhandle := by
    intro fhandle hsome
    by_contra hno
    rw [(get_none_iff h.slot).mpr hno] at hsome
    cases hsome
  cases op with
  | tfsRead fhandle len => exact hopen fhandle hc
  | tfsWrite fhandle buffer => exact ⟨hopen fhandle hc.1, hc.2⟩
  | _ => exact trivial

omit h in
/-- What a careful call does to the store keeps the laws of the store. -/
theorem storeExec_ok (hok : Ok limits st) {op : Op} (hc : Careful st op) :
    Ok limits (storeExec st op).2 := by
  cases op with
  | tfsOpen name flags => exact hok.exec hc.2
  | tfsDestroyAfterAllClosed => exact hc.elim
  | _ => exact hok.exec trivial

/-- One careful call, on the server and on the store. -/
theorem Shows.exec {op : Op} (hc : Careful st op) :
    ∃ r s', exec s op = some (r, s') ∧ r.shown = shownReply (storeExec st op).1 ∧
      Shows s' (storeExec st op).2 := by
  -- what is left to show for a call that ends in `s'`
  have hrest : ∀ r s', parte2.exec s op = some (r, s') → 0 ≤ s'.openFiles →
      HoldsFiles s'.disk (storeExec st op).2.names (storeExec st op).2.bytes →
      (∀ i, (storeExec st op).2.handle i = slotOf s' i) → Shows s' (storeExec st op).2 := by
    intro r s' he hrun hfiles hslot
    have hnext : next s op = some s' := by
      unfold next
      rw [he]
      rfl
    exact ⟨(h.sound.next (h.throughOpenHandles hc) hnext).1, storeExec_ok h.ok hc, hrun, hfiles, hslot⟩
  have hrun := h.running
  cases op with
  | tfsLookup name =>
    obtain ⟨hret, hbytes, hsame⟩ := h.lookup name
    refine ⟨_, _, rfl, ?_, hrest _ _ rfl hrun ?_ ?_⟩
    · simp only [Answer.shown, shownReply, storeExec, file_store.exec, hret, hbytes]
    · simp only [storeExec, file_store.exec, hsame]
      exact h.files
    · simp only [storeExec, file_store.exec, hsame]
      exact h.slot
  | tfsOpen name flags =>
    obtain ⟨r, hr, hret, hbytes, hfiles, hslot, hopen⟩ := h.openUnsynchronized hc.1
    have he : parte2.exec s (.tfsOpen name flags) =
        some (.of r.1, if r.1 ≠ -1 then { r.2 with openFiles := r.2.openFiles + 1 } else r.2) := by
      simp only [parte2.exec, tfsOpen, not_lt.mpr hrun, if_false, hr, Option.map_some]
    refine ⟨_, _, he, ?_, hrest _ _ he ?_ ?_ ?_⟩
    · simp only [Answer.shown, shownReply, storeExec, file_store.exec, hret, hbytes]
    · split <;> simp only [hopen] <;> omega
    · split <;> exact hfiles
    · split <;> exact hslot
  | tfsClose fhandle =>
    obtain ⟨hshown, hfiles, hslot, hopen⟩ := h.close fhandle
    exact ⟨_, _, rfl, hshown, hrest _ _ rfl hopen hfiles hslot⟩
  | tfsRead fhandle len =>
    obtain ⟨⟨i, e⟩, hget⟩ := Option.isSome_iff_exists.mp hc
    obtain ⟨r, s', he, hshown, hfiles, hslot, hopen⟩ := h.read hget len
    exact ⟨r, s', he, hshown, hrest r s' he (by omega) hfiles hslot⟩
  | tfsWrite fhandle buffer =>
    obtain ⟨⟨i, e⟩, hget⟩ := Option.isSome_iff_exists.mp hc.1
    obtain ⟨r, s', he, hshown, hfiles, hslot, hopen⟩ := h.write hget hc.2
    exact ⟨r, s', he, hshown, hrest r s' he (by omega) hfiles hslot⟩
  | tfsDestroyAfterAllClosed => exact hc.elim

end

/-! ## Runs -/

theorem exec_refines : refinement.Refines exec storeExec Careful Answer.shown shownReply Shows :=
  ⟨fun h hc => h.exec hc⟩

theorem Initial.shows {s : State} (h : Initial s) : Shows s empty := by
  have hsound := h.sound
  obtain ⟨raw, _, rfl⟩ := h
  rw [tfsInit_eq] at *
  refine ⟨hsound, empty_ok limits, le_rfl, ⟨firstDisk_filled raw.disk, ?_, fun _ hk => ?_⟩, fun i => ?_⟩
  · have haddr : rootAddr (firstDisk raw.disk) = 0 := by simp [rootAddr, rootBlock, firstDisk]
    rw [haddr]
    exact clearDir_lists raw.disk.fs_data 0
  · exact absurd hk (Nat.not_lt_zero _)
  · unfold slotOf slotIn
    rw [if_neg]
    · rfl
    · rintro ⟨_, ht⟩
      cases ht

/-- Every run of careful calls is defined, each call answers like the store of files, and in the
end the disk holds the files of the store, and the table its handles. -/
theorem the_server_is_a_file_store {s : State} (hs : Initial s) {ops : List Op}
    (hops : runs.Meets storeExec Careful empty ops) :
    ∃ answers t, refinement.run exec s ops = some (answers, t) ∧
      answers.map Answer.shown = (runs.run storeExec empty ops).1.map shownReply ∧
      Shows t (runs.run storeExec empty ops).2 :=
  exec_refines.run hs.shows hops

/-- What is written through one handle is read through another one. -/
theorem a_write_is_read_through_another_handle : ∃ answers t,
    refinement.run exec firstState
      [.tfsOpen (some pathA) TFS_O_CREAT, .tfsWrite 0 [5, 6], .tfsOpen (some pathA) 0, .tfsRead 1 8] =
        some (answers, t) ∧
      answers.map Answer.shown =
        [(0, [], .unlocks), (2, [], .unlocks), (1, [], .unlocks), (2, [5, 6], .unlocks)] := by
  have hshort : NameFits (some pathA) TFS_O_CREAT := fun _ => ⟨pathA, rfl, by decide, by decide⟩
  have hfirst : Careful empty (.tfsOpen (some pathA) TFS_O_CREAT) :=
    ⟨hshort, fun h => by cases h⟩
  have hsecond : ∀ st, Careful st (.tfsOpen (some pathA) 0) := fun _ =>
    ⟨fun h => absurd h (by decide), fun h => absurd h (by decide)⟩
  have hops : runs.Meets storeExec Careful empty
      [.tfsOpen (some pathA) TFS_O_CREAT, .tfsWrite 0 [5, 6], .tfsOpen (some pathA) 0, .tfsRead 1 8] :=
    ⟨hfirst, ⟨by decide, by decide⟩, hsecond _, rfl, trivial⟩
  obtain ⟨answers, t, hrun, hsame, _⟩ := the_server_is_a_file_store firstState_initial hops
  refine ⟨answers, t, hrun, ?_⟩
  rw [hsame]
  decide +kernel

end tecnicofs.parte2
