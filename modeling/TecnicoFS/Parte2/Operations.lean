-- The operations of the server's file system (`fs/operations.c` of the second
-- part). Each one is a section under `single_global_lock`; its answer says
-- how it leaves the section.
import TecnicoFS.Lib.Steps
import TecnicoFS.Parte2.State

open byte_memory

namespace tecnicofs.parte2

/-- How a section under `single_global_lock` ends: with `pthread_mutex_unlock`, with a return
that leaves the lock held, or in `pthread_cond_wait`. -/
inductive Exit
  | unlocks
  | keeps
  | waits
  deriving DecidableEq, Repr

/-- The return value, the bytes that reached the caller's buffer, the end of the section, and
whether `condVar` was signalled in it. -/
structure Answer where
  ret : Int
  bytes : List UInt8
  exit : Exit
  signals : Bool
  deriving DecidableEq

/-- The answer of an operation that ends its section in the usual way. -/
abbrev Answer.of (ret : Int) : Answer := ⟨ret, [], .unlocks, false⟩

def tfsInit (s : State) : Int × State :=
  let s := { stateInit s with openFiles := 0 }
  let root := inodeCreate s.disk .T_DIRECTORY
  (if root.1 ≠ ROOT_DIR_INUM then -1 else 0, { s with disk := root.2 })

def tfsLookupUnsynchronized (d : Disk) : Option CString → Int
  | none => -1
  | some name =>
    if validPathname (some name) = false then -1 else findInDir d ROOT_DIR_INUM name.skip

/-! ## Open and close -/

/-- The truncation in `_tfs_open_unsynchronized`. -/
def truncateInode (d : Disk) (inode : Nat) : Int × Disk :=
  if 0 < (d.inode_table inode).i_size then
    let r := dataBlockFree d (d.inode_table inode).i_data_block
    if r.1 = -1 then (-1, r.2) else (0, r.2.modInode inode fun i => { i with i_size := 0 })
  else (0, d)

def initialOffset (d : Disk) (flags : BitVec 32) (inode : Nat) : Nat :=
  if hasFlag flags TFS_O_APPEND then (d.inode_table inode).i_size else 0

/-- The branch of `_tfs_open_unsynchronized` for a file that exists. -/
def openExisting (s : State) (flags : BitVec 32) (inum : Int) : Int × State :=
  match inodeGet inum with
  | none => (-1, s)
  | some inode =>
    let t := if hasFlag flags TFS_O_TRUNC then truncateInode s.disk inode else (0, s.disk)
    if t.1 = -1 then (-1, { s with disk := t.2 })
    else addToOpenFileTable { s with disk := t.2 } inum (initialOffset t.2 flags inode)

/-- `name + 1`. It is not defined for NULL, and behind the terminator of an empty name. -/
def nameSkip : Option CString → Option CString
  | none => none
  | some name => if name.strlen = 0 then none else some name.skip

/-- The branch of `_tfs_open_unsynchronized` for a file that is created. The name is not checked
here, so a name without a slash loses its first character. -/
def openNew (s : State) (name : Option CString) : Option (Int × State) :=
  let c := inodeCreate s.disk .T_FILE
  if c.1 = -1 then some (-1, { s with disk := c.2 })
  else
    (nameSkip name).map fun sub_name =>
      let a := addDirEntry c.2 ROOT_DIR_INUM c.1 sub_name
      if a.1 = -1 then (-1, { s with disk := (inodeDelete a.2 c.1).2 })
      else addToOpenFileTable { s with disk := a.2 } c.1 0

def tfsOpenUnsynchronized (s : State) (name : Option CString) (flags : BitVec 32) :
    Option (Int × State) :=
  let inum := tfsLookupUnsynchronized s.disk name
  if 0 ≤ inum then some (openExisting s flags inum)
  else if hasFlag flags TFS_O_CREAT then openNew s name
  else some (-1, s)

/-- The early return keeps the lock. -/
def tfsOpen (s : State) (name : Option CString) (flags : BitVec 32) : Option (Answer × State) :=
  if s.openFiles < 0 then some (⟨-1, [], .keeps, false⟩, s)
  else
    (tfsOpenUnsynchronized s name flags).map fun r =>
      (.of r.1, if r.1 ≠ -1 then { r.2 with openFiles := r.2.openFiles + 1 } else r.2)

def tfsClose (s : State) (fhandle : Int) : Answer × State :=
  let r := removeFromOpenFileTable s fhandle
  if r.1 ≠ -1 then
    let openFiles := r.2.openFiles + if 0 < r.2.openFiles then -1 else 1
    (⟨r.1, [], .unlocks, decide (openFiles = -1)⟩, { r.2 with openFiles })
  else (.of r.1, r.2)

/-! ## Write and read -/

/-- `BLOCK_SIZE - of_offset`, when the bytes do not fit in the block. -/
def bytesToWrite (of_offset to_write : Nat) : Nat :=
  if sizeT ((to_write : Int) + of_offset) > BLOCK_SIZE then sizeT ((BLOCK_SIZE : Int) - of_offset)
  else to_write

/-- The disk in which the inode has its block: an empty file gets a new one. -/
def withDataBlock (d : Disk) (inode : Nat) : Disk :=
  if (d.inode_table inode).i_size = 0 then
    let a := dataBlockAlloc d
    a.2.modInode inode fun i => { i with i_data_block := a.1 }
  else d

def tfsWriteUnsynchronized (s : State) (fhandle : Int) (buffer : List UInt8) :
    Option (Int × State) :=
  match getOpenFileEntry fhandle with
  | none => some (-1, s)
  | some i =>
    let file := s.open_file_table i
    match inodeGet file.of_inumber with
    | none => some (-1, s)
    | some inode =>
      let to_write := bytesToWrite file.of_offset buffer.length
      if 0 < to_write then
        let d := withDataBlock s.disk inode
        match dataBlockGet (d.inode_table inode).i_data_block with
        | none => some (-1, { s with disk := d })
        | some block =>
          (memcpyIn d.fs_data (block + file.of_offset) buffer to_write).map fun fs_data =>
            let of_offset := file.of_offset + to_write
            (ssizeT to_write,
              { s with
                disk := { d with fs_data }.modInode inode fun i =>
                  if i.i_size < of_offset then { i with i_size := of_offset } else i
                open_file_table := Function.update s.open_file_table i { file with of_offset } })
      else some (ssizeT to_write, s)

def tfsWrite (s : State) (fhandle : Int) (buffer : List UInt8) : Option (Answer × State) :=
  (tfsWriteUnsynchronized s fhandle buffer).map fun r => (.of r.1, r.2)

/-- `i_size - of_offset`, and `len` at most. -/
def bytesToRead (i_size of_offset len : Nat) : Nat :=
  if sizeT ((i_size : Int) - of_offset) > len then len else sizeT ((i_size : Int) - of_offset)

/-- The return value and the bytes in the buffer. -/
def tfsReadUnsynchronized (s : State) (fhandle : Int) (len : Nat) :
    Option ((Int × List UInt8) × State) :=
  match getOpenFileEntry fhandle with
  | none => some ((-1, []), s)
  | some i =>
    let file := s.open_file_table i
    match inodeGet file.of_inumber with
    | none => some ((-1, []), s)
    | some inode =>
      let to_read := bytesToRead (s.disk.inode_table inode).i_size file.of_offset len
      if 0 < to_read then
        match dataBlockGet (s.disk.inode_table inode).i_data_block with
        | none => some ((-1, []), s)
        | some block =>
          (memcpyOut s.disk.fs_data (block + file.of_offset) to_read).map fun bytes =>
            let file := { file with of_offset := file.of_offset + to_read }
            ((ssizeT to_read, bytes),
              { s with open_file_table := Function.update s.open_file_table i file })
      else some ((ssizeT to_read, []), s)

def tfsRead (s : State) (fhandle : Int) (len : Nat) : Option (Answer × State) :=
  (tfsReadUnsynchronized s fhandle len).map fun r => (⟨r.1.1, r.1.2, .unlocks, false⟩, r.2)

/-! ## Lookup and shutdown -/

def tfsLookup (s : State) (name : Option CString) : Answer × State :=
  (.of (tfsLookupUnsynchronized s.disk name), s)

/-- The section up to the wait, or to the end when no file is open. `tfs_destroy` does nothing. -/
def tfsDestroyAfterAllClosed (s : State) : Answer × State :=
  let openFiles := (s.openFiles + 1) * -1
  (⟨0, [], if openFiles ≠ -1 then .waits else .unlocks, false⟩, { s with openFiles })

/-! ## Runs of operations -/

/-- A call with its arguments. A write passes the bytes of its buffer, and its length is their
number. -/
inductive Op
  | tfsLookup (name : Option CString)
  | tfsOpen (name : Option CString) (flags : BitVec 32)
  | tfsClose (fhandle : Int)
  | tfsRead (fhandle : Int) (len : Nat)
  | tfsWrite (fhandle : Int) (buffer : List UInt8)
  | tfsDestroyAfterAllClosed
  deriving DecidableEq

/-- The section of a call under the lock, or none where the behaviour is not defined. -/
def exec (s : State) : Op → Option (Answer × State)
  | .tfsLookup name => some (tfsLookup s name)
  | .tfsOpen name flags => tfsOpen s name flags
  | .tfsClose fhandle => some (tfsClose s fhandle)
  | .tfsRead fhandle len => tfsRead s fhandle len
  | .tfsWrite fhandle buffer => tfsWrite s fhandle buffer
  | .tfsDestroyAfterAllClosed => some (tfsDestroyAfterAllClosed s)

/-- The state after the section of a call. -/
def next (s : State) (op : Op) : Option State := (exec s op).map Prod.snd

/-- Every open file entry, taken or not, names an inode. -/
def EntriesNamed (s : State) : Prop :=
  ∀ i < MAX_OPEN_FILES, validInumber (s.open_file_table i).of_inumber = true

/-- A state that `tfs_init` left, whatever lay in the tables and blocks before it. The open file
entries named inodes: they do in the zeroed memory of the program, and after every call. -/
def Initial (s : State) : Prop := ∃ raw, EntriesNamed raw ∧ s = (tfsInit raw).2

/-- A state after any finite sequence of calls. -/
abbrev Reachable : State → Prop := steps.Reachable next Initial

end tecnicofs.parte2
