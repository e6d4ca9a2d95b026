-- An open that fails: what it may leave behind, and the one way in which it destroys a
-- file.
import TecnicoFS.Parte1.Entries
import TecnicoFS.Parte1.Slots

open byte_memory

namespace tecnicofs.parte1

/-! ## What a failed open may do -/

/-- Every file is as before, with its bytes, its size and its blocks, the same blocks are taken,
and so is the open file table. -/
structure NothingLost (s s' : State) : Prop where
  files : ∀ g, FileInode s.disk g → FileSame g s.disk s'.disk
  blocks : s'.disk.free_blocks = s.disk.free_blocks
  table : s'.open_file_table = s.open_file_table
  slots : s'.free_open_file_entries = s.free_open_file_entries

/-- No open file entry is free. -/
def NoSlot (s : State) : Prop := ∀ i < MAX_OPEN_FILES, s.free_open_file_entries i ≠ .FREE

instance (s : State) : Decidable (NoSlot s) :=
  inferInstanceAs (Decidable (∀ i < MAX_OPEN_FILES, _))

/-- There is one new file, which is empty and has the name. -/
def NewEmptyFile (d d' : Disk) (name : Option CString) : Prop :=
  ∃ path i j, name = some path ∧ Creates d path i j ∧ d' = createdFile d i j path ∧
    (d'.inode_table i).i_size = 0 ∧ (d'.inode_table i).blocksAlloc = 0

/-- If the open fails, it has destroyed nothing. A new, empty file stays when there was no slot
for it. -/
def FailsSafely (s : State) (name : Option CString) (flags : BitVec 32) : Prop :=
  let r := tfsOpen s name flags
  r.1 = -1 → NothingLost s r.2 ∧
    (Quiet s.disk r.2.disk ∨ (NoSlot s ∧ NewEmptyFile s.disk r.2.disk name))

/-- The open is to truncate a file that has a size, and there will be no slot for it. -/
def TruncatesInVain (s : State) (name : Option CString) (flags : BitVec 32) : Prop :=
  hasFlag flags TFS_O_TRUNC = true ∧ NoSlot s ∧
    ∃ path, ∃ f : Nat, name = some path ∧ validPathname (some path) = true ∧
      tfsLookup s.disk path = f ∧ 0 < (s.disk.inode_table f).i_size

/-! ## The ways in which an open fails -/

theorem NothingLost.refl (s : State) : NothingLost s s :=
  ⟨fun _ hg => .refl hg, rfl, rfl, rfl⟩

theorem addToOpenFileTable_refused {s : State} {inumber : Int} {offset : Nat} {a : Bool}
    (hr : (addToOpenFileTable s inumber offset a).1 = -1) :
    NoSlot s ∧ addToOpenFileTable s inumber offset a = (-1, s) := by
  rcases addEntry_cases s ⟨inumber, offset, a⟩ with ⟨he, hno⟩ | ⟨i, _, _, _, he⟩
  · exact ⟨hno, he⟩
  · have hi : (i : Int) = -1 := (congrArg Prod.fst he).symm.trans hr
    omega

/-- An open of a file that is there. -/
theorem tfsOpen_found {s : State} (h : DiskInv s.disk) (flags : BitVec 32) {path : CString}
    {f : Nat} (hv : validPathname (some path) = true) (hl : tfsLookup s.disk path = f)
    (hf : FileInode s.disk f) :
    tfsOpen s (some path) flags =
      addToOpenFileTable { s with disk := afterTrunc s.disk flags f } f
        (initialOffset (afterTrunc s.disk flags f) flags f).1
        (initialOffset (afterTrunc s.disk flags f) flags f).2 := by
  unfold tfsOpen
  simp only [hv, Bool.true_eq_false, if_false, hl, Int.natCast_nonneg, if_true]
  exact openFound_eq h hf flags

theorem tfsOpen_invalid {s : State} {path : CString} {flags : BitVec 32}
    (hv : validPathname (some path) = false) : tfsOpen s (some path) flags = (-1, s) := by
  unfold tfsOpen
  simp only [hv, if_true]

theorem createdFile_empty (d : Disk) (i j : Nat) (path : CString) :
    ((createdFile d i j path).inode_table i).i_size = 0 ∧
      ((createdFile d i j path).inode_table i).blocksAlloc = 0 := by
  simp [createdFile, freshFile]

/-- A truncation in vain empties the file, and the open fails. -/
theorem TruncatesInVain.not_safe {s : State} (h : Inv s) {name : Option CString}
    {flags : BitVec 32} (hvain : TruncatesInVain s name flags) : ¬ FailsSafely s name flags := by
  obtain ⟨hflag, hno, path, f, rfl, hv, hl, hpos⟩ := hvain
  have hf : FileInode s.disk f := by
    rcases tfsLookup_cases h.disk path with hn | ⟨g, hg, hgf⟩
    · omega
    · obtain rfl : g = f := by omega
      exact hgf
  have hr : tfsOpen s (some path) flags = (-1, { s with disk := truncated s.disk f }) := by
    have hdisk : afterTrunc s.disk flags f = truncated s.disk f := if_pos ⟨hflag, hpos⟩
    rw [tfsOpen_found h.disk flags hv hl hf, hdisk]
    exact @addEntry_full { s with disk := truncated s.disk f } hno
      ⟨f, (initialOffset (truncated s.disk f) flags f).1,
        (initialOffset (truncated s.disk f) flags f).2⟩
  intro hsafe
  obtain ⟨hlost, _⟩ := hsafe (by rw [hr])
  have hsame := (hlost.files f hf).inode
  rw [hr] at hsame
  have hsize : 0 = (s.disk.inode_table f).i_size := by
    rw [← hsame]
    simp [truncated]
  omega

/-- Any other open that fails has destroyed nothing. -/
theorem failsSafely {s : State} (h : Inv s) {name : Option CString} {flags : BitVec 32}
    (hvain : ¬ TruncatesInVain s name flags) : FailsSafely s name flags := by
  intro hfail
  rcases tfsOpen_cases h.disk name flags with hr | ⟨i, hi, hr⟩ | ⟨path, f, rfl, hl, hf, hr⟩ |
    ⟨path, i, j, rfl, hv, hl, hi, hj, hr⟩
  · -- refused before anything was done
    rw [hr]
    exact ⟨.refl s, Or.inl (.refl s.disk)⟩
  · -- the new inode was given back
    rw [hr]
    exact ⟨⟨fun g hg => undone_fileSame hi hg, rfl, rfl, rfl⟩, Or.inl (undone_quiet h.disk hi)⟩
  · -- there was no slot for the file that was found
    by_cases hv : validPathname (some path) = true
    · rw [hr] at hfail
      obtain ⟨hno, hfull⟩ := addToOpenFileTable_refused hfail
      have hdisk : afterTrunc s.disk flags f = s.disk := by
        refine if_neg fun htrunc => hvain ⟨htrunc.1, hno, path, f, rfl, hv, hl, ?_⟩
        exact htrunc.2
      rw [hr, hfull, hdisk]
      exact ⟨.refl s, Or.inl (.refl s.disk)⟩
    · rw [tfsOpen_invalid (by simpa using hv)]
      exact ⟨.refl s, Or.inl (.refl s.disk)⟩
  · -- there was no slot for the file that was created
    rw [hr] at hfail
    obtain ⟨hno, hfull⟩ := addToOpenFileTable_refused hfail
    have hjlt := List.mem_range.mp (List.find?_range_eq_some.mp hj).2.1
    rw [hr, hfull]
    refine ⟨⟨fun g hg => createdFile_fileSame h.disk hi hjlt hg path, rfl, rfl, rfl⟩,
      Or.inr ⟨hno, path, i, j, rfl, ⟨hv, hl, hi, hj⟩, rfl, ?_⟩⟩
    exact createdFile_empty s.disk i j path

/-! ## The law -/

/-- An open that fails has destroyed nothing, unless it was to truncate a file and there was no
slot for the handle. -/
theorem a_failed_open_destroys_nothing_unless_it_truncates (s : State) (h : Reachable s)
    (name : Option CString) (flags : BitVec 32) :
    FailsSafely s name flags ↔ ¬ TruncatesInVain s name flags :=
  ⟨fun hsafe hvain => hvain.not_safe h.inv hsafe, failsSafely h.inv⟩

/-- Every handle is open, on the one byte of `/f`. -/
def handlesFull : State :=
  (runs.run exec oneByteWritten (List.replicate 19 (.tfsOpen (some pathF) 0))).2

theorem handlesFull_reachable : Reachable handlesFull := by
  rw [handlesFull]
  exact runs.Reachable.run oneByteWritten_reachable _

theorem handlesFull_truncated : FileInode handlesFull.disk 1 ∧
    (tfsOpen handlesFull (some pathF) TFS_O_TRUNC).1 = -1 ∧
    ((tfsOpen handlesFull (some pathF) TFS_O_TRUNC).2.disk.inode_table 1).i_size ≠
      (handlesFull.disk.inode_table 1).i_size := by
  decide +kernel

theorem an_open_without_a_slot_is_safe : FailsSafely handlesFull (some pathF) 0 :=
  (a_failed_open_destroys_nothing_unless_it_truncates handlesFull handlesFull_reachable
    (some pathF) 0).mpr fun hvain => absurd hvain.1 (by decide)

theorem a_truncation_without_a_slot_destroys_the_file :
    Reachable handlesFull ∧ FileInode handlesFull.disk 1 ∧
      (tfsOpen handlesFull (some pathF) TFS_O_TRUNC).1 = -1 ∧
      ¬ FailsSafely handlesFull (some pathF) TFS_O_TRUNC := by
  obtain ⟨hfile, hfail, hsize⟩ := handlesFull_truncated
  refine ⟨handlesFull_reachable, hfile, hfail, fun hsafe => ?_⟩
  exact hsize (congrArg Inode.i_size ((hsafe hfail).1.files 1 hfile).inode)

end tecnicofs.parte1
