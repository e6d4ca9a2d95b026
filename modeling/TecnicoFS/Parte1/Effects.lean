-- What each step of an open has to do with the whole call: an open that takes
-- effect on the disk and gets its slot later gives what the call gives alone.
import TecnicoFS.Parte1.Frames
import TecnicoFS.Parte1.Slots
import TecnicoFS.Parte1.Threads

namespace tecnicofs.parte1

/-- On the disk `d`, the call leaves the disk `d'` and puts the entry `e` into the first free
slot. -/
def Opens (d : Disk) (op : Op) (e : OpenFileEntry) (d' : Disk) : Prop :=
  ∀ s : State, s.disk = d →
    exec s op = (⟨(addEntry { s with disk := d' } e).1, []⟩, (addEntry { s with disk := d' } e).2)

/-- The call is an open, and its file is on the disk. -/
def Found (d : Disk) (op : Op) (flags : BitVec 32) (inum : Int) : Prop :=
  ∃ path, op = .tfsOpen (some path) flags ∧ validPathname (some path) = true ∧
    tfsLookup d path = inum ∧ 0 ≤ inum

theorem Found.exec {d : Disk} {op : Op} {flags : BitVec 32} {inum : Int} (h : Found d op flags inum)
    {s : State} (hs : s.disk = d) :
    exec s op = (⟨(openFound s flags inum).1, []⟩, (openFound s flags inum).2) := by
  obtain ⟨path, rfl, hv, rfl, h0⟩ := h
  subst hs
  simp only [parte1.exec, tfsOpen, hv, Bool.true_eq_false, if_false, h0, if_true]

theorem Found.mono {d d' : Disk} {op : Op} {flags : BitVec 32} {inum : Int}
    (h : Found d op flags inum)
    (hl : ∀ path n, 0 ≤ n → tfsLookup d path = n → tfsLookup d' path = n) :
    Found d' op flags inum := by
  obtain ⟨path, hop, hv, hlook, h0⟩ := h
  exact ⟨path, hop, hv, hl path inum h0 hlook, h0⟩

section
variable {d : Disk} {op : Op} {flags : BitVec 32} {inum : Int} {inode : Nat}

/-- An open of a file that is neither truncated nor appended to has no effect on the disk. -/
theorem Found.opens_plain (h : Found d op flags inum) (hi : inodeGet inum = some inode)
    (ht : hasFlag flags TFS_O_TRUNC = false) (ha : hasFlag flags TFS_O_APPEND = false) :
    Opens d op ⟨inum, 0, false⟩ d := by
  intro s hs
  subst hs
  rw [h.exec rfl]
  simp [openFound, openExistingFile, hi, ht, initialOffset, ha, addEntry]

theorem Found.opens_append (h : Found d op flags inum) (hi : inodeGet inum = some inode)
    (ht : hasFlag flags TFS_O_TRUNC = false) (ha : hasFlag flags TFS_O_APPEND = true) :
    Opens d op ⟨inum, (d.inode_table inode).i_size, true⟩ d := by
  intro s hs
  subst hs
  rw [h.exec rfl]
  simp [openFound, openExistingFile, hi, ht, initialOffset, ha, addEntry]

theorem truncateInode_size (d : Disk) (inode : Nat) (h : (truncateInode d inode).1 ≠ -1) :
    ((truncateInode d inode).2.inode_table inode).i_size = 0 := by
  unfold truncateInode at *
  split at h
  · rename_i hpos
    simp only [hpos, if_true] at h ⊢
    split at h
    · exact absurd rfl h
    · rename_i hr
      simp only [hr, if_false, Disk.modInode_self]
  · rename_i hpos
    simp only [hpos, if_false]
    omega

/-- The entry of an open with a truncation: an appending one begins at 0, too. -/
theorem Found.opens_truncate (h : Found d op flags inum) (hi : inodeGet inum = some inode)
    (ht : hasFlag flags TFS_O_TRUNC = true) (hr : (truncateInode d inode).1 ≠ -1) :
    Opens d op ⟨inum, 0, hasFlag flags TFS_O_APPEND⟩ (truncateInode d inode).2 := by
  intro s hs
  subst hs
  rw [h.exec rfl]
  have hsize := truncateInode_size s.disk inode hr
  cases ha : hasFlag flags TFS_O_APPEND <;>
    simp [openFound, openExistingFile, hi, ht, hr, initialOffset, ha, addEntry, hsize]

theorem Found.exec_truncate_fails (h : Found d op flags inum) (hi : inodeGet inum = some inode)
    (ht : hasFlag flags TFS_O_TRUNC = true) (hr : (truncateInode d inode).1 = -1) {s : State}
    (hs : s.disk = d) : parte1.exec s op = (⟨-1, []⟩, { s with disk := (truncateInode d inode).2 }) := by
  subst hs
  rw [h.exec rfl]
  simp [openFound, openExistingFile, hi, ht, hr]

theorem Found.exec_no_inode (h : Found d op flags inum) (hi : inodeGet inum = none) {s : State}
    (hs : s.disk = d) : parte1.exec s op = (⟨-1, []⟩, s) := by
  subst hs
  rw [h.exec rfl]
  simp [openFound, openExistingFile, hi]

end

/-! ## The section under `newFileMutex` -/

section
variable {d d' : Disk} {path : CString} {inum : Int}

theorem createCritical_found (h : createCritical d path = (.found inum, d')) :
    tfsLookup d path = inum ∧ 0 ≤ inum ∧ d' = d := by
  unfold createCritical at h
  simp only at h
  split at h
  · cases h
    exact ⟨rfl, by assumption, rfl⟩
  · split at h
    · cases h
    · split at h <;> cases h

theorem createCritical_not_found {r : CreateResult} (h : createCritical d path = (r, d'))
    (hr : ∀ inum, r ≠ .found inum) : ¬ 0 ≤ tfsLookup d path := by
  intro h0
  unfold createCritical at h
  simp only [h0, if_true] at h
  cases h
  exact hr _ rfl

variable {flags : BitVec 32} (hv : validPathname (some path) = true)
  (hc : hasFlag flags TFS_O_CREAT = true)
include hv hc

theorem exec_create_fails (h : createCritical d path = (.failed, d')) {s : State}
    (hs : s.disk = d) :
    exec s (.tfsOpen (some path) flags) = (⟨-1, []⟩, { s with disk := d' }) := by
  subst hs
  have hno := createCritical_not_found h (by simp)
  simp only [exec, tfsOpen, hv, Bool.true_eq_false, if_false, hno, hc, if_true, h]

theorem opens_created (h : createCritical d path = (.created inum, d')) :
    Opens d (.tfsOpen (some path) flags) ⟨inum, 0, false⟩ d' := by
  intro s hs
  subst hs
  have hno := createCritical_not_found h (by simp)
  simp only [exec, tfsOpen, hv, Bool.true_eq_false, if_false, hno, hc, if_true, h, addEntry]

end

end tecnicofs.parte1
