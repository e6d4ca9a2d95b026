-- Threads that open, close, read and write at the same time. Each section under a
-- lock is one step, and so is each read without a lock. The steps share their
-- bodies with the sequential operations.
import TecnicoFS.Lib.Linearizability
import TecnicoFS.Lib.Steps
import TecnicoFS.Parte1.Operations

open linearizability

namespace tecnicofs.parte1

/-! ## Places of a thread -/

/-- What a thread does next. A pointer to an open file entry is its index, and a pointer to an
inode is the index of the inode. -/
inductive Place
  /-- Between two calls. -/
  | idle
  /-- `tfs_open`, at the first `tfs_lookup`. -/
  | openLookup (name : Option CString) (flags : BitVec 32)
  /-- At the section under `newFileMutex`. -/
  | openCreate (path : CString) (flags : BitVec 32)
  /-- `open_existing_file`, at the truncation under the lock of the inode. -/
  | openTruncate (flags : BitVec 32) (inum : Int) (inode : Nat)
  /-- `open_existing_file`, at the read of `i_size` for the initial offset. -/
  | openSize (flags : BitVec 32) (inum : Int) (inode : Nat)
  /-- `add_to_open_file_table`, at the section under `addFileEntryMutex`. The file was created or
  truncated, or its size was read, if `effect` says so. -/
  | openClaim (inum : Int) (offset : Nat) (isAppending effect : Bool)
  /-- `add_to_open_file_table`, at the section under the mutex of entry `i`. -/
  | openFill (i : Nat) (e : OpenFileEntry)
  /-- `tfs_close`, at the section under the mutex of the entry. -/
  | close (fhandle : Int)
  /-- `tfs_write`, at the check in `get_open_file_entry`. -/
  | writeCheck (fhandle : Int) (buffer : List UInt8)
  /-- `tfs_write`, at the read of `of_inumber`. -/
  | writeInumber (i : Nat) (buffer : List UInt8)
  /-- `tfs_write`, at the section under the locks of the inode and of the entry. -/
  | writeLocked (i inode : Nat) (buffer : List UInt8)
  /-- `tfs_read`, at the check in `get_open_file_entry`. -/
  | readCheck (fhandle : Int) (len : Nat)
  /-- `tfs_read`, at the read of `of_inumber`. -/
  | readInumber (i len : Nat)
  /-- `tfs_read`, at the read of `isAppending`. -/
  | readIsAppending (i inode len : Nat)
  /-- `tfs_read`, at the section under the locks of the inode and of the entry. -/
  | readLocked (i inode len : Nat)

/-- Where a thread goes in one step: to another place, or back to the caller. -/
inductive Next
  | goTo (p : Place)
  | ret (b : Answer)

/-- `open_existing_file` begins. -/
def found (flags : BitVec 32) (inum : Int) : Next :=
  match inodeGet inum with
  | none => .ret ⟨-1, []⟩
  | some inode =>
    if hasFlag flags TFS_O_TRUNC then .goTo (.openTruncate flags inum inode)
    else if hasFlag flags TFS_O_APPEND then .goTo (.openSize flags inum inode)
    else .goTo (.openClaim inum 0 false false)

/-- One step of a thread, by the place where it is. -/
def advance (s : State) : Place → Next × State
  | .idle => (.goTo .idle, s)
  | .openLookup none _ => (.ret ⟨-1, []⟩, s)
  | .openLookup (some path) flags =>
    if validPathname (some path) = false then (.ret ⟨-1, []⟩, s)
    else if 0 ≤ tfsLookup s.disk path then (found flags (tfsLookup s.disk path), s)
    else if hasFlag flags TFS_O_CREAT then (.goTo (.openCreate path flags), s)
    else (.ret ⟨-1, []⟩, s)
  | .openCreate path flags =>
    match createCritical s.disk path with
    | (.found inum, d) => (found flags inum, { s with disk := d })
    | (.failed, d) => (.ret ⟨-1, []⟩, { s with disk := d })
    | (.created inum, d) => (.goTo (.openClaim inum 0 false true), { s with disk := d })
  | .openTruncate flags inum inode =>
    let t := truncateInode s.disk inode
    if t.1 = -1 then (.ret ⟨-1, []⟩, { s with disk := t.2 })
    else if hasFlag flags TFS_O_APPEND then (.goTo (.openSize flags inum inode), { s with disk := t.2 })
    else (.goTo (.openClaim inum 0 false true), { s with disk := t.2 })
  | .openSize _ inum inode =>
    (.goTo (.openClaim inum (s.disk.inode_table inode).i_size true true), s)
  | .openClaim inum offset isAppending _ =>
    match claimEntry s with
    | (some i, s) => (.goTo (.openFill i ⟨inum, offset, isAppending⟩), s)
    | (none, s) => (.ret ⟨-1, []⟩, s)
  | .openFill i e => (.ret ⟨i, []⟩, fillEntry s i e)
  | .close fhandle => (.ret ⟨(tfsClose s fhandle).1, []⟩, (tfsClose s fhandle).2)
  | .writeCheck fhandle buffer =>
    match getOpenFileEntry s fhandle with
    | none => (.ret ⟨-1, []⟩, s)
    | some i => (.goTo (.writeInumber i buffer), s)
  | .writeInumber i buffer =>
    match inodeGet (s.open_file_table i).of_inumber with
    | none => (.ret ⟨-1, []⟩, s)
    | some inode => (.goTo (.writeLocked i inode buffer), s)
  | .writeLocked i inode buffer =>
    let r := writeCritical s.disk (s.open_file_table i) inode buffer
    (.ret ⟨r.1, []⟩, fillEntry { s with disk := r.2.1 } i r.2.2)
  | .readCheck fhandle len =>
    match getOpenFileEntry s fhandle with
    | none => (.ret ⟨-1, []⟩, s)
    | some i => (.goTo (.readInumber i len), s)
  | .readInumber i len =>
    match inodeGet (s.open_file_table i).of_inumber with
    | none => (.ret ⟨-1, []⟩, s)
    | some inode => (.goTo (.readIsAppending i inode len), s)
  | .readIsAppending i inode len =>
    if (s.open_file_table i).isAppending then (.ret ⟨0, []⟩, s)
    else (.goTo (.readLocked i inode len), s)
  | .readLocked i inode len =>
    let r := readCritical s.disk (s.open_file_table i) inode len
    (.ret ⟨r.1.1, r.1.2⟩, fillEntry s i r.2)

attribute [grind =] advance

/-- The first place of a call. -/
def firstPlace : Op → Option Place
  | .tfsOpen name flags => some (.openLookup name flags)
  | .tfsClose fhandle => some (.close fhandle)
  | .tfsRead fhandle len => some (.readCheck fhandle len)
  | .tfsWrite fhandle buffer => some (.writeCheck fhandle buffer)
  | .tfsCopyToExternalFs _ _ => none

/-! ## All threads -/

/-- The threads share one file system. The rest of the fields is for `Linearizable` and `Careless`:
the number of the last call of each thread, the history, the thread whose open has had the last
effect on the disk, if nobody else has accessed the disk since and it has claimed no slot, and the
threads whose open has had its effect, before another access to the disk, and has claimed no
slot, in the order of the effects. -/
structure Threads where
  fs : State
  place : Nat → Place
  callOf : Nat → Nat
  history : History Op Answer
  unseen : Option Nat
  waiting : List Nat

/-- No thread has called anything. -/
def atRest (fs : State) : Threads where
  fs := fs
  place := fun _ => .idle
  callOf := fun _ => 0
  history := .first
  unseen := none
  waiting := []

/-- The step reads or writes the disk. -/
def Place.accesses : Place → Bool
  | .openLookup _ _ => true
  | .openCreate _ _ => true
  | .openTruncate _ _ _ => true
  | .openSize _ _ _ => true
  | .writeLocked _ _ _ => true
  | .readLocked _ _ _ => true
  | _ => false

/-- The open has had its effect and has claimed no slot. -/
def Place.waits : Place → Bool
  | .openSize flags _ _ => hasFlag flags TFS_O_TRUNC
  | .openClaim _ _ _ effect => effect
  | _ => false

/-- The slot that a read or a write has found taken. -/
def Place.uses : Place → Option Nat
  | .writeInumber i _ => some i
  | .writeLocked i _ _ => some i
  | .readInumber i _ => some i
  | .readIsAppending i _ _ => some i
  | .readLocked i _ _ => some i
  | _ => none

/-- The slot that an open has claimed and not filled. -/
def Place.fills : Place → Option Nat
  | .openFill i _ => some i
  | _ => none

/-- The effect on the disk that nobody has seen may be seen now. -/
def Threads.see (s : Threads) : Threads :=
  { s with unseen := none, waiting := s.waiting ++ s.unseen.toList }

/-- Thread `t` comes to `p`, and leaves `fs` behind. -/
def Threads.move (s : Threads) (t : Nat) (p : Place) (fs : State) : Threads :=
  { s with
    fs := fs
    place := Function.update s.place t p
    unseen :=
      if p.waits ∧ t ∉ s.waiting then some t
      else if s.unseen = some t then none
      else s.unseen
    waiting := if p.waits then s.waiting else s.waiting.erase t }

/-- Thread `t` has made a step. -/
def Threads.after (s : Threads) (t : Nat) : Next × State → Threads
  | (.goTo p, fs) => s.move t p fs
  | (.ret b, fs) => { s.move t .idle fs with history := s.history.ret (s.callOf t) b }

/-- One step of thread `t` from place `p`. -/
def Threads.go (s : Threads) (t : Nat) (p : Place) : Threads :=
  let s := if p.accesses ∧ s.unseen ≠ some t then s.see else s
  s.after t (advance s.fs p)

inductive ThreadStep
  /-- Thread `t` calls an operation. -/
  | call (t : Nat) (op : Op)
  /-- Thread `t` goes one step on in its call. -/
  | go (t : Nat)

def threadStep (s : Threads) : ThreadStep → Option Threads
  | .call t op =>
    match s.place t, firstPlace op with
    | .idle, some p =>
      some { s.move t p s.fs with
        callOf := Function.update s.callOf t s.history.calls.length
        history := s.history.call op }
    | _, _ => none
  | .go t =>
    match s.place t with
    | .idle => none
    | p => some (s.go t p)

end tecnicofs.parte1
