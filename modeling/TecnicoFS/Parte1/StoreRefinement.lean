-- The library is a store of files: in every run of calls that creates short names,
-- truncates no file under an offset, fills no disk and copies out short texts only,
-- each call answers like the store, and the disk holds the files of the store.
import TecnicoFS.Common.StoreCalls
import TecnicoFS.Lib.Refinement
import TecnicoFS.Parte1.Files
import TecnicoFS.Parte1.Transfers

open byte_memory block_map file_store

namespace tecnicofs.parte1

/-- A file has all blocks that an inode can have, and a handle for appending stays one. -/
def limits : Limits := ⟨MAX_DIR_ENTRIES, MAX_OPEN_FILES, MAX_FILE_SIZE, true⟩

/-- What a caller sees of a call: what it returns, the bytes it gives, and what it leaves in the
file outside. -/
structure Seen where
  ret : Int
  bytes : List UInt8
  dest : Option (List UInt8)
  deriving DecidableEq

/-- What the call leaves in the file outside, and whether it read behind its transfer buffer. -/
def outside (s : State) : Op → Option (List UInt8) × Bool
  | .tfsCopyToExternalFs source_path destOpens =>
    let r := (tfsCopyToExternalFs s source_path destOpens).1
    (r.dest, r.overread)
  | _ => (none, false)

/-- A call as its caller sees it. What `fputs` does behind the transfer buffer is not defined. -/
def seenExec (s : State) (op : Op) : Option (Seen × State) :=
  if (outside s op).2 then none
  else some (⟨(exec s op).1.ret, (exec s op).1.bytes, (outside s op).1⟩, (exec s op).2)

/-! ## The store -/

/-- A copy gives the bytes of the file, if there is a slot to read it through. -/
def storeCopy (st : Store CString UInt8) (name : Option CString) (destOpens : Bool) : Seen :=
  match name.bind st.find with
  | none => ⟨-1, [], none⟩
  | some k =>
    if destOpens = true ∧ ∃ i < MAX_OPEN_FILES, st.handle i = none then ⟨0, [], some (st.bytes k)⟩
    else ⟨-1, [], none⟩

def seenReply (r : file_store.Reply UInt8 × Store CString UInt8) : Seen × Store CString UInt8 :=
  (⟨returned r.1.ret, r.1.bytes, none⟩, r.2)

/-- The call as a call of the store. -/
def storeExec (st : Store CString UInt8) : Op → Seen × Store CString UInt8
  | .tfsOpen name flags => seenReply (st.openFile limits (nameOf name) (modeOf flags))
  | .tfsClose fhandle => seenReply (st.close fhandle.toNat?)
  | .tfsRead fhandle len => seenReply (st.read fhandle.toNat? len)
  | .tfsWrite fhandle buffer => seenReply (st.write limits fhandle.toNat? buffer)
  | .tfsCopyToExternalFs source_path destOpens => (storeCopy st (nameOf source_path) destOpens, st)

/-- The call on the library. -/
def opOf : FileCall → Op
  | .tfsOpen name flags => .tfsOpen (some name) flags
  | .tfsClose fhandle => .tfsClose fhandle
  | .tfsRead fhandle len => .tfsRead fhandle len
  | .tfsWrite fhandle buffer => .tfsWrite fhandle buffer

/-- The blocks that the files of the store cost are there, beside the one of the directory. -/
def FitsDisk (st : Store CString UInt8) : Prop :=
  sizesCost st.names.length st.bytes + 1 ≤ DATA_BLOCKS

instance (st : Store CString UInt8) : Decidable (FitsDisk st) := inferInstanceAs (Decidable (_ ≤ _))

/-- What a caller may ask for: short names for new files, no truncation under an offset, no more
bytes than there are blocks for, and copies of short texts. -/
def Careful (st : Store CString UInt8) : Op → Prop
  | .tfsOpen name flags => NameFits name flags ∧ Spares st (.openFile (nameOf name) (modeOf flags))
  | .tfsWrite fhandle buffer =>
    buffer.length < 2 ^ 63 ∧ FitsDisk (st.write limits fhandle.toNat? buffer).2
  | .tfsCopyToExternalFs source_path _ => ∀ k, (nameOf source_path).bind st.find = some k →
      (st.bytes k).length < BUFFER_SIZE ∧ 0 ∉ st.bytes k
  | _ => True

/-! ## The state and the store -/

/-- The entry as a handle of the store: a file has the number below its inode. -/
def handleOf (e : OpenFileEntry) : Handle := ⟨(e.of_inumber - 1).toNat, e.of_offset, e.isAppending⟩

/-- The handle in slot `i`. -/
def slotOf (s : State) (i : Nat) : Option Handle :=
  slotIn s.free_open_file_entries (fun j => handleOf (s.open_file_table j)) i

/-- The state holds the files and the handles of the store. -/
structure Shows (s : State) (st : Store CString UInt8) : Prop where
  inv : Inv s
  blocks : BlocksMatch s.disk
  ok : Ok limits st
  files : HoldsFiles s.disk st.names st.bytes
  slot : ∀ i, st.handle i = slotOf s i

section
variable {s : State} {st : Store CString UInt8} (hslot : ∀ i, st.handle i = slotOf s i)
include hslot

/-- Slot `i` gets a handle on file `k`. -/
theorem setHandle_shown {s' : State} {i k o : Nat} {a : Bool} (hi : i < MAX_OPEN_FILES)
    (htable : s'.open_file_table = Function.update s.open_file_table i ⟨(k + 1 : Nat), o, a⟩)
    (htaken : s'.free_open_file_entries i = .TAKEN)
    (hfree : ∀ j, j ≠ i → s'.free_open_file_entries j = s.free_open_file_entries j) (j : Nat) :
    (st.setHandle i (some ⟨k, o, a⟩)).handle j = slotOf s' j := by
  apply setHandle_slotIn hslot hi htaken hfree
  · rw [htable, Function.update_self]
    simp [handleOf]
  · intro m hm
    rw [htable, Function.update_of_ne hm]

/-- Without a handle in slot `i` there is a free slot. -/
theorem noSlot_iff : NoSlot s ↔ ¬ ∃ i < MAX_OPEN_FILES, st.handle i = none := by
  have hnone : ∀ i < MAX_OPEN_FILES, st.handle i = none ↔ s.free_open_file_entries i = .FREE := by
    intro i hi
    have h : (slotOf s i).isNone = decide (s.free_open_file_entries i = .FREE) := slotIn_isNone hi
    rw [← Option.isNone_iff_eq_none, hslot i, h, decide_eq_true_eq]
  unfold NoSlot
  rw [not_exists]
  constructor
  · rintro hno i ⟨hi, he⟩
    exact hno i hi ((hnone i hi).mp he)
  · intro hno i hi he
    exact hno i ⟨hi, (hnone i hi).mpr he⟩

theorem addToOpenFileTable_shown (k o : Nat) (a : Bool) :
    let r := addToOpenFileTable s (k + 1 : Nat) o a
    let r' := st.addHandle limits ⟨k, o, a⟩
    r.1 = returned r'.1.ret ∧ r'.1.bytes = [] ∧ r'.2.names = st.names ∧ r'.2.bytes = st.bytes ∧
      ∀ i, r'.2.handle i = slotOf r.2 i := by
  unfold addToOpenFileTable claimEntry
  simp only [addHandle_slotIn hslot limits rfl]
  rcases hf : (List.range MAX_OPEN_FILES).find? fun i =>
    decide (s.free_open_file_entries i = .FREE) with _ | i
  · exact ⟨rfl, rfl, rfl, rfl, hslot⟩
  · obtain ⟨_, hi, _⟩ := List.find?_range_eq_some.mp hf
    refine ⟨rfl, rfl, rfl, rfl, ?_⟩
    apply setHandle_shown hslot (List.mem_range.mp hi)
    · rfl
    · simp [fillEntry]
    · intro j hji
      simp [fillEntry, hji]

end

section
variable {s : State} {st : Store CString UInt8} (h : Shows s st)
include h

/-- The slot of a handle of the store, and its file. -/
theorem Shows.handle {fhandle : Int} {i : Nat} {e : Handle}
    (hget : st.get fhandle.toNat? = some (i, e)) :
    fhandle = i ∧ getOpenFileEntry s i = some i ∧ i < MAX_OPEN_FILES ∧
      s.free_open_file_entries i = .TAKEN ∧ e.file < st.names.length ∧
      s.open_file_table i = ⟨(e.file + 1 : Nat), e.offset, e.appends⟩ := by
  obtain ⟨rfl, hi, ht, rfl⟩ := (get_slotIn h.slot).mp hget
  obtain ⟨_, hst⟩ := (get_eq_some st).mp hget
  obtain ⟨f, hnum, hf, _⟩ := h.inv.handle i hi ht
  have hne := hf.ne_root h.inv.disk
  refine ⟨rfl, getOpenFileEntry_eq_some.mpr ⟨rfl, hi, ht⟩, hi, ht, h.ok.file i _ hst, ?_⟩
  have hself : ((((s.open_file_table i).of_inumber - 1).toNat + 1 : Nat) : Int) =
      (s.open_file_table i).of_inumber := by
    simp only [ROOT_DIR_INUM] at hne
    omega
  simp only [handleOf, hself]

theorem Shows.no_handle {fhandle : Int} (hget : st.get fhandle.toNat? = none) :
    getOpenFileEntry s fhandle = none := by
  rcases hopen : getOpenFileEntry s fhandle with _ | i
  · rfl
  · obtain ⟨he, hi, ht⟩ := getOpenFileEntry_eq_some.mp hopen
    exact absurd he (get_none_slotIn h.slot hget hi ht)

/-! ## The calls -/

/-- A file that was found is truncated if the flags say so, and gets a handle. -/
theorem Shows.openFound {path : CString} {k : Nat} (hv : validPathname (some path) = true)
    (hl : tfsLookup s.disk path = (k + 1 : Nat)) (hk : k < st.names.length) (flags : BitVec 32) :
    let r := tfsOpen s (some path) flags
    let st' := st.truncated (modeOf flags) k
    let r' := st'.addHandle limits (st'.startHandle limits (modeOf flags) k)
    r.1 = returned r'.1.ret ∧ r'.1.bytes = [] ∧ HoldsFiles r.2.disk r'.2.names r'.2.bytes ∧
      ∀ i, r'.2.handle i = slotOf r.2 i := by
  have hf := h.files.fileInode hk
  have hnames : (st.truncated (modeOf flags) k).names = st.names := by
    unfold Store.truncated
    split <;> rfl
  have hbytes : (st.truncated (modeOf flags) k).bytes =
      if hasFlag flags TFS_O_TRUNC = true then Function.update st.bytes k [] else st.bytes := by
    unfold Store.truncated modeOf
    simp only
    split <;> rfl
  have hhandle : (st.truncated (modeOf flags) k).handle = st.handle := by
    unfold Store.truncated
    split <;> rfl
  have hfiles : HoldsFiles (afterTrunc s.disk flags (k + 1)) (st.truncated (modeOf flags) k).names
      (st.truncated (modeOf flags) k).bytes := by
    rw [hnames, hbytes]
    exact h.files.afterTrunc h.inv.disk hk flags
  have hstart : (st.truncated (modeOf flags) k).startHandle limits (modeOf flags) k =
      ⟨k, (initialOffset (afterTrunc s.disk flags (k + 1)) flags (k + 1)).1,
        (initialOffset (afterTrunc s.disk flags (k + 1)) flags (k + 1)).2⟩ := by
    have hsize := (hfiles.holds k (hnames ▸ hk)).size
    unfold Store.startHandle initialOffset modeOf
    simp only
    split
    · rw [hsize]
      rfl
    · rfl
  have hslot : ∀ i, (st.truncated (modeOf flags) k).handle i =
      slotOf { s with disk := afterTrunc s.disk flags (k + 1) } i := by
    rw [hhandle]
    exact h.slot
  rw [tfsOpen_found h.inv.disk flags hv hl hf]
  simp only [hstart]
  obtain ⟨hret, hnone, hn, hb, hs⟩ := addToOpenFileTable_shown hslot k
    (initialOffset (afterTrunc s.disk flags (k + 1)) flags (k + 1)).1
    (initialOffset (afterTrunc s.disk flags (k + 1)) flags (k + 1)).2
  refine ⟨hret, hnone, ?_, hs⟩
  rw [addToOpenFileTable_disk, hn, hb]
  exact hfiles

/-- A file that is not there is created if the flags say so and there is an entry for it. -/
theorem Shows.openAbsent {path : CString} (hv : validPathname (some path) = true)
    (hl : tfsLookup s.disk path = -1) {flags : BitVec 32} (hname : NameFits (some path) flags) :
    let r := tfsOpen s (some path) flags
    let r' := if (modeOf flags).create = true ∧ st.names.length < limits.maxFiles then
        (st.created path.skip).addHandle limits ⟨st.names.length, 0, false⟩
      else (.failed, st)
    r.1 = returned r'.1.ret ∧ r'.1.bytes = [] ∧ HoldsFiles r.2.disk r'.2.names r'.2.bytes ∧
      ∀ i, r'.2.handle i = slotOf r.2 i := by
  rw [h.files.filled.tfsOpen_absent rfl h.inv.disk hv hl flags]
  by_cases hc : hasFlag flags TFS_O_CREAT = true
  · rw [if_pos hc]
    by_cases hroom : st.names.length < MAX_DIR_ENTRIES
    · obtain ⟨p, hp, _, hshort⟩ := hname hc
      obtain rfl := Option.some.inj hp
      rw [if_pos hroom, if_pos ⟨hc, hroom⟩]
      have hslot : ∀ i, (st.created path.skip).handle i = slotOf { s with
          disk := createdFile s.disk (st.names.length + 1) st.names.length path } i := h.slot
      obtain ⟨hret, hnone, hn, hb, hs⟩ := addToOpenFileTable_shown hslot st.names.length 0 false
      refine ⟨hret, hnone, ?_, hs⟩
      rw [addToOpenFileTable_disk, hn, hb]
      exact h.files.createdFile h.inv.disk hroom hshort
    · rw [if_neg hroom, if_neg fun hmode => hroom hmode.2]
      exact ⟨rfl, rfl, h.files.undone h.inv.disk, h.slot⟩
  · rw [if_neg hc, if_neg fun hmode => hc hmode.1]
    exact ⟨rfl, rfl, h.files, h.slot⟩

theorem Shows.lookup (path : CString) :
    tfsLookup s.disk path = returned ((st.find path.skip).map fun k => k + 1) := by
  rw [h.files.lookup h.inv.disk path]
  unfold Store.find
  rcases st.names.findIdx? fun n => decide (n = path.skip) with _ | k
  · rfl
  · rfl

theorem Shows.openFile {name : Option CString} {flags : BitVec 32} (hname : NameFits name flags) :
    let r := tfsOpen s name flags
    let r' := st.openFile limits (nameOf name) (modeOf flags)
    r.1 = returned r'.1.ret ∧ r'.1.bytes = [] ∧ HoldsFiles r.2.disk r'.2.names r'.2.bytes ∧
      ∀ i, r'.2.handle i = slotOf r.2 i := by
  cases name with
  | none => exact ⟨rfl, rfl, h.files, h.slot⟩
  | some path =>
    by_cases hv : validPathname (some path) = true
    · have hl := h.lookup path
      rw [nameOf_valid hv]
      unfold Store.openFile
      rcases hfind : st.find path.skip with _ | k
      · rw [hfind] at hl
        simp only [hfind]
        exact h.openAbsent hv hl hname
      · rw [hfind] at hl
        simp only [hfind]
        exact h.openFound hv hl (find_eq_some st hfind).1 flags
    · rw [Bool.not_eq_true] at hv
      rw [nameOf_not_valid hv, tfsOpen_invalid hv]
      exact ⟨rfl, rfl, h.files, h.slot⟩

theorem Shows.close (fhandle : Int) :
    let r := tfsClose s fhandle
    let r' := st.close fhandle.toNat?
    r.1 = returned r'.1.ret ∧ r'.1.bytes = [] ∧ HoldsFiles r.2.disk r'.2.names r'.2.bytes ∧
      ∀ i, r'.2.handle i = slotOf r.2 i := by
  unfold Store.close
  rcases hget : st.get fhandle.toNat? with _ | ⟨i, e⟩
  · have hno := h.no_handle hget
    rcases tfsClose_cases s fhandle with he | ⟨i, hi, rfl, ht, _⟩
    · rw [he]
      exact ⟨rfl, rfl, h.files, h.slot⟩
    · rw [getOpenFileEntry_eq_some.mpr ⟨rfl, hi, ht⟩] at hno
      cases hno
  · obtain ⟨rfl, _, hi, ht, _⟩ := h.handle hget
    rw [tfsClose_nat s hi, if_pos ht]
    exact ⟨rfl, rfl, h.files, clearHandle_slotIn h.slot i⟩

theorem Shows.read (fhandle : Int) (len : Nat) :
    let r := tfsRead s fhandle len
    let r' := st.read fhandle.toNat? len
    r.1.1 = returned r'.1.ret ∧ r'.1.bytes = r.1.2 ∧ HoldsFiles r.2.disk r'.2.names r'.2.bytes ∧
      ∀ i, r'.2.handle i = slotOf r.2 i := by
  unfold Store.read
  rcases hget : st.get fhandle.toNat? with _ | ⟨i, e⟩
  · unfold tfsRead
    rw [h.no_handle hget]
    exact ⟨rfl, rfl, h.files, h.slot⟩
  · obtain ⟨rfl, hentry, hi, ht, hk, htable⟩ := h.handle hget
    have hb := h.files.holds e.file hk
    have hin : (s.open_file_table i).of_inumber = (e.file + 1 : Nat) := by rw [htable]
    by_cases happ : e.appends = true
    · have hread : tfsRead s i len = ((0, []), s) := by
        unfold tfsRead
        simp only [hentry, htable, inodeGet_file hb.file, happ, if_true]
      rw [hread]
      simp only [happ, if_true]
      exact ⟨rfl, trivial, h.files, h.slot⟩
    · rw [Bool.not_eq_true] at happ
      simp only [happ, Bool.false_eq_true, if_false]
      have ho := h.ok.offset i e ((get_eq_some st).mp hget).2 happ
      have hroom := hb.room_le
      have hread : ReadsFile s i (e.file + 1) len := by
        apply readsFile_of_insideBlocks h.inv hentry hin
        · rw [htable]
          exact happ
        · unfold InsideBlocks
          rw [htable, hb.size]
          simp only
          omega
      unfold ReadsFile at hread
      rw [htable, hb.size] at hread
      simp only [readCount, ho, if_true, hb.load] at hread
      have hlen : ((List.drop e.offset (st.bytes e.file)).take len).length =
          min len ((st.bytes e.file).length - e.offset) := by
        rw [List.length_take, List.length_drop]
      rw [hread]
      refine ⟨by rw [hlen]; rfl, rfl, h.files, ?_⟩
      rw [hlen]
      apply setHandle_shown h.slot hi
      · rw [happ]
        rfl
      · exact ht
      · exact fun _ _ => rfl

theorem Shows.write {fhandle : Int} {buffer : List UInt8} (hlen : buffer.length < 2 ^ 63)
    (hfits : FitsDisk (st.write limits fhandle.toNat? buffer).2) :
    let r := tfsWrite s fhandle buffer
    let r' := st.write limits fhandle.toNat? buffer
    r.1 = returned r'.1.ret ∧ r'.1.bytes = [] ∧ HoldsFiles r.2.disk r'.2.names r'.2.bytes ∧
      (∀ i, r'.2.handle i = slotOf r.2 i) ∧ BlocksMatch r.2.disk := by
  unfold Store.write at hfits ⊢
  rcases hget : st.get fhandle.toNat? with _ | ⟨i, e⟩
  · unfold tfsWrite
    rw [h.no_handle hget]
    exact ⟨rfl, rfl, h.files, h.slot, h.blocks⟩
  · rw [hget] at hfits
    obtain ⟨rfl, hentry, hi, ht, hk, htable⟩ := h.handle hget
    have hb := h.files.holds e.file hk
    have hin : (s.open_file_table i).of_inumber = (e.file + 1 : Nat) := by rw [htable]
    have hpos : offsetAt s.disk (s.open_file_table i) (e.file + 1) = st.position e := by
      rw [htable]
      unfold offsetAt Store.position
      rw [hb.size]
    have ho := h.ok.position_le ((get_eq_some st).mp hget).2
    have hall := h.files.copied_all h.inv.disk h.blocks hk ho hlen hfits
    have hcount : (buffer.take (limits.maxSize - st.position e)).length =
        copied s.disk (e.file + 1) buffer.length (st.position e) := by
      rw [hall, List.length_take, Nat.min_comm]
      rfl
    have hmatch : BlocksMatch (tfsWrite s i buffer).2.disk := by
      apply (h.blocks.tfsWrite_iff h.inv i buffer).mpr
      intro j f hj hf
      obtain rfl : i = j := by simpa [hentry] using hj
      obtain rfl : f = e.file + 1 := by omega
      rw [hpos]
      exact hb.writeBacked h.inv.disk ho hlen
    rw [tfsWrite_written h.inv hentry hin hlen] at hmatch ⊢
    rw [hpos] at hmatch ⊢
    simp only [hcount]
    refine ⟨rfl, trivial, ?_, ?_, hmatch⟩
    · exact h.files.writtenDisk h.inv.disk hk ho hlen hall
    · have hslot : ∀ bytes j, (st.setBytes e.file bytes).handle j = slotOf s j := fun _ => h.slot
      apply setHandle_shown (hslot _) hi
      · rw [htable]
        rfl
      · exact ht
      · exact fun _ _ => rfl

/-- A copy that leaves the disk and the open handles as they were. -/
theorem Shows.untouched {t : State} (hinv : Inv t) (hdisk : Quiet s.disk t.disk)
    (hsame : ∀ g, FileInode s.disk g → FileSame g s.disk t.disk) (hblocks : BlocksMatch t.disk)
    (hslots : ∀ i < MAX_OPEN_FILES,
      t.free_open_file_entries i = .TAKEN ↔ s.free_open_file_entries i = .TAKEN)
    (hopen : ∀ keep e, OpenAs s keep e → OpenAs t keep e) : Shows t st where
  inv := hinv
  blocks := hblocks
  ok := h.ok
  files := h.files.quiet hdisk fun k hk => (h.files.holds k hk).of_same (hsame _ (h.files.fileInode hk))
  slot := fun i => by
    rw [h.slot i]
    unfold slotOf slotIn
    by_cases hi : i < MAX_OPEN_FILES ∧ s.free_open_file_entries i = .TAKEN
    · obtain ⟨j, hj, he⟩ := hopen i _ ⟨i, getOpenFileEntry_eq_some.mpr ⟨rfl, hi⟩, rfl⟩
      obtain ⟨hij, _⟩ := getOpenFileEntry_eq_some.mp hj
      obtain rfl : i = j := by omega
      rw [if_pos hi, if_pos ⟨hi.1, (hslots i hi.1).mpr hi.2⟩]
      exact congrArg (fun e => some (handleOf e)) he.symm
    · rw [if_neg hi, if_neg fun ht => hi ⟨ht.1, (hslots i ht.1).mp ht.2⟩]

/-- A copy of a short text gives its bytes if there is a slot, and changes nothing. -/
theorem Shows.copyFound {path : CString} {k : Nat} (hv : validPathname (some path) = true)
    (hl : tfsLookup s.disk path = (k + 1 : Nat)) (hk : k < st.names.length) (destOpens : Bool)
    (hlen : (st.bytes k).length < BUFFER_SIZE) (h0 : 0 ∉ st.bytes k) :
    let r := tfsCopyToExternalFs s (some path) destOpens
    let r' : Seen := if destOpens = true ∧ ∃ i < MAX_OPEN_FILES, st.handle i = none then
        ⟨0, [], some (st.bytes k)⟩
      else ⟨-1, [], none⟩
    r.1.ret = r'.ret ∧ r'.bytes = [] ∧ r.1.dest = r'.dest ∧ r.1.overread = false ∧ Shows r.2 st := by
  have hb := h.files.holds k hk
  rcases tfsOpen_copy h.inv hv hl hb.file with ⟨hno, ho⟩ | ⟨i, hi, hfree, ho⟩
  · rw [tfsCopy_refused destOpens (Or.inr (Or.inr ho)),
      if_neg fun hslot => (noSlot_iff h.slot).mp hno hslot.2]
    exact ⟨rfl, rfl, rfl, rfl, h⟩
  · have hslot : ¬ NoSlot s := fun hno => hno i hi hfree
    have hroom := hb.room_le
    have htrace : NoTrace s (tfsCopyToExternalFs s (some path) destOpens).2 := by
      apply (tfsCopy_noTrace h.inv destOpens hv hl hb.file hi hfree ho).mpr
      rw [hb.size]
      omega
    have hshows : Shows (tfsCopyToExternalFs s (some path) destOpens).2 st := by
      apply h.untouched
      · exact h.inv.tfsCopyToExternalFs (some path) destOpens
      · exact tfsCopy_quiet h.inv (some path) destOpens
      · exact htrace.files
      · exact h.blocks.tfsCopyToExternalFs h.inv (some path) destOpens
      · exact htrace.slots
      · exact (tfsCopy_elsewhere h.inv hb.file (some path) destOpens).2
    cases destOpens with
    | false =>
      have hr := tfsCopy_opened false hv hl ho
      simp only [if_true] at hr
      rw [if_neg (by simp)]
      refine ⟨?_, rfl, ?_, ?_, hshows⟩ <;> rw [hr]
    | true =>
      obtain ⟨hret, hdest, hover⟩ := copiesAll_of_short h.inv hv hl hb hslot hlen h0
      have hfound : ∃ i < MAX_OPEN_FILES, st.handle i = none := by
        by_contra hnone
        exact hslot ((noSlot_iff h.slot).mpr hnone)
      rw [if_pos ⟨rfl, hfound⟩]
      exact ⟨hret, rfl, hdest, hover, hshows⟩

theorem Shows.copy {source_path : Option CString} (destOpens : Bool)
    (hc : ∀ k, (nameOf source_path).bind st.find = some k →
      (st.bytes k).length < BUFFER_SIZE ∧ 0 ∉ st.bytes k) :
    let r := tfsCopyToExternalFs s source_path destOpens
    let r' := storeCopy st (nameOf source_path) destOpens
    r.1.ret = r'.ret ∧ r'.bytes = [] ∧ r.1.dest = r'.dest ∧ r.1.overread = false ∧ Shows r.2 st := by
  cases source_path with
  | none => exact ⟨rfl, rfl, rfl, rfl, h⟩
  | some path =>
    by_cases hv : validPathname (some path) = true
    · have hl := h.lookup path
      rw [nameOf_valid hv, Option.bind_some] at hc
      rw [nameOf_valid hv]
      unfold storeCopy
      rw [Option.bind_some]
      rcases hfind : st.find path.skip with _ | k
      · rw [hfind] at hl
        rw [tfsCopy_refused destOpens (Or.inr (Or.inl hl))]
        exact ⟨rfl, rfl, rfl, rfl, h⟩
      · rw [hfind] at hl
        obtain ⟨hlen, h0⟩ := hc k hfind
        exact h.copyFound hv hl (find_eq_some st hfind).1 destOpens hlen h0
    · rw [Bool.not_eq_true] at hv
      rw [nameOf_not_valid hv, tfsCopy_refused destOpens (Or.inl hv)]
      exact ⟨rfl, rfl, rfl, rfl, h⟩

omit h in
/-- What a careful call does to the store keeps the laws of the store. -/
theorem storeExec_ok (hok : Ok limits st) {op : Op} (hc : Careful st op) :
    Ok limits (storeExec st op).2 := by
  cases op with
  | tfsOpen name flags => exact hok.openFile hc.2
  | tfsClose fhandle => exact hok.close _
  | tfsRead fhandle len => exact hok.read _ len
  | tfsWrite fhandle buffer => exact hok.write _ buffer
  | tfsCopyToExternalFs source_path destOpens => exact hok

/-- One careful call, in the library and on the store. -/
theorem Shows.exec {op : Op} (hc : Careful st op) :
    ∃ r s', seenExec s op = some (r, s') ∧ r = (storeExec st op).1 ∧
      Shows s' (storeExec st op).2 := by
  have hinv := h.inv.exec op
  have hok := storeExec_ok h.ok hc
  unfold seenExec
  cases op with
  | tfsOpen name flags =>
    obtain ⟨hret, hbytes, hfiles, hslot⟩ := h.openFile hc.1
    refine ⟨_, _, rfl, ?_, hinv, h.blocks.tfsOpen h.inv name flags, hok, hfiles, hslot⟩
    simp only [parte1.exec, outside, storeExec, seenReply, hret, hbytes]
  | tfsClose fhandle =>
    obtain ⟨hret, hbytes, hfiles, hslot⟩ := h.close fhandle
    refine ⟨_, _, rfl, ?_, hinv, ?_, hok, hfiles, hslot⟩
    · simp only [parte1.exec, outside, storeExec, seenReply, hret, hbytes]
    · simp only [parte1.exec, tfsClose_disk]
      exact h.blocks
  | tfsRead fhandle len =>
    obtain ⟨hret, hbytes, hfiles, hslot⟩ := h.read fhandle len
    refine ⟨_, _, rfl, ?_, hinv, ?_, hok, hfiles, hslot⟩
    · simp only [parte1.exec, outside, storeExec, seenReply, hret, hbytes]
    · simp only [parte1.exec, tfsRead_disk h.inv]
      exact h.blocks
  | tfsWrite fhandle buffer =>
    obtain ⟨hret, hbytes, hfiles, hslot, hblocks⟩ := h.write hc.1 hc.2
    refine ⟨_, _, rfl, ?_, hinv, hblocks, hok, hfiles, hslot⟩
    simp only [parte1.exec, outside, storeExec, seenReply, hret, hbytes]
  | tfsCopyToExternalFs source_path destOpens =>
    obtain ⟨hret, hbytes, hdest, hover, hshows⟩ := h.copy destOpens hc
    refine ⟨_, _, ?_, rfl, hshows⟩
    simp only [parte1.exec, outside, storeExec, hret, hdest, hover, ← hbytes]
    rfl

end

/-! ## Runs -/

theorem seenExec_refines : refinement.Refines seenExec storeExec Careful id id Shows :=
  ⟨fun h hc => h.exec hc⟩

theorem Initial.shows {s : State} (h : Initial s) : Shows s empty := by
  have hinv := h.inv
  obtain ⟨raw, rfl⟩ := h
  rw [tfsInit_eq] at *
  refine ⟨hinv, firstDisk_blocksMatch raw.disk, empty_ok limits,
    ⟨firstDisk_filledUpTo raw.disk, ?_, fun _ hk => ?_⟩, fun i => ?_⟩
  · have haddr : rootAddr (firstDisk raw.disk) = 0 := by simp [rootAddr, rootBlock, firstDisk]
    rw [haddr]
    exact clearDir_lists raw.disk.fs_data 0
  · exact absurd hk (Nat.not_lt_zero _)
  · unfold slotOf slotIn
    rw [if_neg]
    · rfl
    · rintro ⟨_, ht⟩
      cases ht

/-- Every run of careful calls stays inside the transfer buffer, each call answers like the store
of files, and in the end the disk holds the files of the store, and the table its handles. -/
theorem the_library_is_a_file_store {s : State} (hs : Initial s) {ops : List Op}
    (hops : runs.Meets storeExec Careful empty ops) :
    ∃ t, refinement.run seenExec s ops = some ((runs.run storeExec empty ops).1, t) ∧
      Shows t (runs.run storeExec empty ops).2 := by
  obtain ⟨answers, t, hrun, hsame, hshows⟩ := seenExec_refines.run hs.shows hops
  rw [List.map_id, List.map_id] at hsame
  exact ⟨t, hsame ▸ hrun, hshows⟩

/-- What is appended through one handle is read through another one, and gets to the copy. -/
theorem an_append_is_read_and_copied_out : ∃ t,
    refinement.run seenExec (tfsInit zeroed).2
      [.tfsOpen (some pathF) TFS_O_CREAT, .tfsWrite 0 [104, 105], .tfsOpen (some pathF) TFS_O_APPEND,
        .tfsWrite 1 [33], .tfsRead 0 8, .tfsCopyToExternalFs (some pathF) true] =
      some ([⟨0, [], none⟩, ⟨2, [], none⟩, ⟨1, [], none⟩, ⟨1, [], none⟩, ⟨1, [33], none⟩,
        ⟨0, [], some [104, 105, 33]⟩], t) := by
  have hops : runs.Meets storeExec Careful empty
      [.tfsOpen (some pathF) TFS_O_CREAT, .tfsWrite 0 [104, 105], .tfsOpen (some pathF) TFS_O_APPEND,
        .tfsWrite 1 [33], .tfsRead 0 8, .tfsCopyToExternalFs (some pathF) true] := by
    refine ⟨⟨fun _ => ⟨pathF, rfl, by decide, by decide⟩, fun h => by cases h⟩,
      ⟨by decide, by decide +kernel⟩, ⟨fun h => ?_, fun h => ?_⟩, ⟨by decide, by decide +kernel⟩,
      trivial, fun k hk => ?_, trivial⟩
    · exact absurd h (by decide)
    · exact absurd h (by decide)
    · obtain rfl : 0 = k := Option.some.inj hk
      decide +kernel
  obtain ⟨t, hrun, _⟩ := the_library_is_a_file_store ⟨zeroed, rfl⟩ hops
  refine ⟨t, hrun.trans ?_⟩
  congr 2

end tecnicofs.parte1
