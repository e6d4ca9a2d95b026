-- The operations with each `lock` and `unlock` as a step of its own (`fs/operations.c`,
-- `fs/state.c`), and so is each entry that a lookup scans and each store to a new entry. The
-- initialisation of the lock of a new inode is left out: no thread can name the inode before.
import TecnicoFS.Lib.LockOrder
import TecnicoFS.Parte1.Operations

open byte_memory lock_order

namespace tecnicofs.parte1

inductive Lock
  | newFileMutex
  | addFileEntryMutex
  | allocBlock
  /-- `rwlock` of an inode. -/
  | rwlock (inode : Nat)
  /-- `file_entry_mutex` of an open file entry. -/
  | fileEntryMutex (i : Nat)
  deriving DecidableEq

/-- What a call of `tfs_lookup` is for. -/
inductive LookupUse
  /-- It is a call of its own. -/
  | answer
  /-- The first one of `tfs_open`. -/
  | open (flags : BitVec 32)
  /-- The one under `newFileMutex`. -/
  | create (flags : BitVec 32)

/-- What a call of `get_open_file_entry` is for. -/
inductive Access
  | write (buffer : List UInt8)
  | read (len : Nat)

/-- `pthread_rwlock_wrlock` or `pthread_rwlock_rdlock`. -/
def Access.mode : Access → Mode
  | .write _ => .exclusive
  | .read _ => .shared

/-- The local variables of `tfs_write` that outlive its allocation of blocks. -/
structure WriteVars where
  i : Nat
  inode : Nat
  buffer : List UInt8
  saveToWrite : Nat

/-! ## Places in an operation -/

/-- What comes next in an operation. -/
inductive OpPlace
  /-- `find_in_dir`, for `path + 1`. -/
  | find (path : CString) (use : LookupUse)
  /-- `find_in_dir`, at entry `i`. -/
  | scan (path : CString) (dir_entry i : Nat) (use : LookupUse)
  /-- `tfs_open`, at its check of the name. -/
  | openCheck (name : Option CString) (flags : BitVec 32)
  /-- At the lock of `newFileMutex`. -/
  | createLock (path : CString) (flags : BitVec 32)
  /-- At `inode_create`. -/
  | newInode (path : CString)
  /-- `add_dir_entry`, and its three stores to entry `i`. -/
  | addEntry (path : CString) (inum : Int)
  | storeName (path : CString) (inum : Int) (dir_entry i : Nat)
  | storeInumber (inum : Int) (dir_entry i : Nat)
  | storeEnd (inum : Int) (dir_entry i : Nat)
  /-- At `inode_delete`. -/
  | undo (inum : Int)
  /-- `open_existing_file`, at the lock of the inode. -/
  | truncLock (flags : BitVec 32) (inum : Int) (inode : Nat)
  | truncRun (flags : BitVec 32) (inum : Int) (inode : Nat)
  /-- `open_existing_file`, at the read of `i_size`. -/
  | openSize (inum : Int) (inode : Nat)
  /-- `add_to_open_file_table`, at the lock of `addFileEntryMutex`. -/
  | claimLock (e : OpenFileEntry)
  | claimRun (e : OpenFileEntry)
  /-- `add_to_open_file_table`, at the lock of the entry. -/
  | fillLock (i : Nat) (e : OpenFileEntry)
  | fillRun (i : Nat) (e : OpenFileEntry)
  /-- `remove_from_open_file_table`. -/
  | close (fhandle : Int)
  | closeLock (i : Nat)
  | closeRun (i : Nat)
  /-- `get_open_file_entry`. -/
  | get (fhandle : Int) (use : Access)
  | getLock (i : Nat) (use : Access)
  | getRun (i : Nat) (use : Access)
  /-- `tfs_write` and `tfs_read`, at the read of `of_inumber`. -/
  | inumber (i : Nat) (use : Access)
  /-- `tfs_read`, at the read of `isAppending`. -/
  | readIsAppending (i inode len : Nat)
  /-- At the lock of the inode, and then of the entry. -/
  | inodeLock (i inode : Nat) (use : Access)
  | entryLock (i inode : Nat) (use : Access)
  | accessRun (i inode : Nat) (use : Access)
  /-- `data_block_alloc` for block `blockOcc + 1`, with `todo` blocks behind it. The block for the
  numbers of the indirect ones is there already in the `second` call. -/
  | allocLock (w : WriteVars) (blockOcc todo : Nat) (second : Bool)
  | allocRun (w : WriteVars) (blockOcc todo : Nat) (second : Bool)
  /-- `allocNthDataBlock`, behind `data_block_alloc`. -/
  | allocated (w : WriteVars) (blockOcc todo : Nat) (second : Bool) (b : Int)
  /-- `tfs_write`, behind `allocNecessaryBlocks`. -/
  | copyRun (w : WriteVars)
  /-- At the release of a lock, which is held in mode `m`. -/
  | unlock (l : Lock) (m : Mode) (next : OpPlace)
  /-- At the end of the operation. -/
  | ret (a : Answer)

/-- `open_existing_file` begins. -/
def openExisting (flags : BitVec 32) (inum : Int) : OpPlace :=
  match inodeGet inum with
  | none => .ret ⟨-1, []⟩
  | some inode =>
    if hasFlag flags TFS_O_TRUNC then .truncLock flags inum inode
    else if hasFlag flags TFS_O_APPEND then .openSize inum inode
    else .claimLock ⟨inum, 0, false⟩

def unlockNewFile (next : OpPlace) : OpPlace := .unlock .newFileMutex .exclusive next

/-- The end of `tfs_write` and `tfs_read`. -/
def unlockBoth (i inode : Nat) (m : Mode) (a : Answer) : OpPlace :=
  .unlock (.fileEntryMutex i) .exclusive (.unlock (.rwlock inode) m (.ret a))

/-- A lookup has ended. -/
def looked (path : CString) (inum : Int) : LookupUse → OpPlace
  | .answer => .ret ⟨inum, []⟩
  | .open flags =>
    if 0 ≤ inum then openExisting flags inum
    else if hasFlag flags TFS_O_CREAT then .createLock path flags
    else .ret ⟨-1, []⟩
  | .create flags => if 0 ≤ inum then unlockNewFile (openExisting flags inum) else .newInode path

/-- `find_in_dir` up to its loop. -/
def findRun (d : Disk) (path : CString) (use : LookupUse) : OpPlace :=
  if validInumber ROOT_DIR_INUM = false ∨
      (d.inode_table ROOT_DIR_INUM).i_node_type ≠ .T_DIRECTORY then
    looked path (-1) use
  else
    match dataBlockGet ((d.inode_table ROOT_DIR_INUM).i_data_block 0) with
    | none => looked path (-1) use
    | some dir_entry => .scan path dir_entry 0 use

/-- A round of its loop. -/
def scanRun (d : Disk) (path : CString) (dir_entry i : Nat) (use : LookupUse) : OpPlace :=
  if i < MAX_DIR_ENTRIES then
    if entryMatches d.fs_data dir_entry path.skip i then
      looked path (dInumber d.fs_data dir_entry i) use
    else .scan path dir_entry (i + 1) use
  else looked path (-1) use

def openCheckRun (name : Option CString) (flags : BitVec 32) : OpPlace :=
  match name with
  | none => .ret ⟨-1, []⟩
  | some path =>
    if validPathname (some path) = false then .ret ⟨-1, []⟩ else .find path (.open flags)

def newInodeRun (s : State) (path : CString) : OpPlace × State :=
  let c := inodeCreate s.disk .T_FILE
  (if c.1 = -1 then unlockNewFile (.ret ⟨-1, []⟩) else .addEntry path c.1, { s with disk := c.2 })

/-- `add_dir_entry` up to its stores. -/
def addEntryRun (d : Disk) (path : CString) (inum : Int) : OpPlace :=
  if validInumber ROOT_DIR_INUM = false ∨ validInumber inum = false then .undo inum
  else if (d.inode_table ROOT_DIR_INUM).i_node_type ≠ .T_DIRECTORY then .undo inum
  else if path.skip.strlen = 0 then .undo inum
  else
    match dataBlockGet ((d.inode_table ROOT_DIR_INUM).i_data_block 0) with
    | none => .undo inum
    | some dir_entry =>
      match firstEmptyEntry d.fs_data dir_entry with
      | none => .undo inum
      | some i => .storeName path inum dir_entry i

def setData (s : State) (fs_data : Memory) : State := { s with disk := { s.disk with fs_data } }

/-- The truncation, under the lock of the inode. -/
def truncSection (s : State) (flags : BitVec 32) (inum : Int) (inode : Nat) : OpPlace × State :=
  let t := truncateInode s.disk inode
  let next :=
    if t.1 = -1 then .ret ⟨-1, []⟩
    else if hasFlag flags TFS_O_APPEND then .openSize inum inode
    else .claimLock ⟨inum, 0, false⟩
  (.unlock (.rwlock inode) .exclusive next, { s with disk := t.2 })

def claimSection (s : State) (e : OpenFileEntry) : OpPlace × State :=
  match claimEntry s with
  | (some i, s) => (.unlock .addFileEntryMutex .exclusive (.fillLock i e), s)
  | (none, s) => (.unlock .addFileEntryMutex .exclusive (.ret ⟨-1, []⟩), s)

/-! ## Write, with its allocation -/

/-- The loop of `allocNecessaryBlocks`, up to the lock of `allocBlock`. -/
def allocNext (w : WriteVars) (blockOcc : Nat) : Nat → OpPlace
  | 0 => .copyRun w
  | todo + 1 =>
    if validInodeBlockNumber (blockOcc + 1) = false then
      unlockBoth w.i w.inode .exclusive ⟨-1, []⟩
    else .allocLock w blockOcc todo false

/-- The rest of a round of the loop, after `allocNthDataBlock` has returned `control`. -/
def allocEnd (w : WriteVars) (blockOcc todo : Nat) (control : Int) : OpPlace :=
  if control = -1 then unlockBoth w.i w.inode .exclusive ⟨-1, []⟩
  else if control = 1 then .copyRun w
  else allocNext w (blockOcc + 1) todo

/-- `allocNthDataBlock`, behind a `data_block_alloc` that returned `b`. -/
def allocatedRun (d : Disk) (w : WriteVars) (blockOcc todo : Nat) (second : Bool) (b : Int) :
    OpPlace × Disk :=
  if b = -1 then
    if second then
      let f := dataBlockFree d (d.inode_table w.inode).indirect_data_block
      (allocEnd w blockOcc todo (if f.1 = -1 then -1 else 1), f.2)
    else (allocEnd w blockOcc todo 1, d)
  else if 9 < blockOcc then
    if blockOcc = 10 ∧ second = false then
      (.allocLock w blockOcc todo true,
        d.modInode w.inode fun i => { i with indirect_data_block := b })
    else
      let r := appendIndirect d w.inode (blockOcc - 10) b
      (allocEnd w blockOcc todo r.1, r.2)
  else
    (allocEnd w blockOcc todo 0, d.modInode w.inode fun i =>
      { i with
        i_data_block := Function.update i.i_data_block blockOcc b
        blocksAlloc := i.blocksAlloc + 1 })

/-- `tfs_write` under both locks, up to its allocation. -/
def writeSection (s : State) (i inode : Nat) (buffer : List UInt8) : OpPlace × State :=
  let file := s.open_file_table i
  let file :=
    if file.isAppending then { file with of_offset := (s.disk.inode_table inode).i_size } else file
  let sizeNeeded := sizeT ((buffer.length : Int) + file.of_offset)
  let sizeNeeded := if sizeNeeded > MAX_FILE_SIZE then MAX_FILE_SIZE else sizeNeeded
  let saveToWrite := sizeT ((sizeNeeded : Int) - file.of_offset)
  let blockOcc := (s.disk.inode_table inode).blocksAlloc
  let next :=
    if 0 < saveToWrite then
      allocNext ⟨i, inode, buffer, saveToWrite⟩ blockOcc (divCeil sizeNeeded BLOCK_SIZE - blockOcc)
    else unlockBoth i inode .exclusive ⟨ssizeT 0, []⟩
  (next, fillEntry s i file)

/-- The copy loop and the rest of `tfs_write`. -/
def copySection (s : State) (w : WriteVars) : OpPlace × State :=
  let file := s.open_file_table w.i
  let blockWriting := divCeilRW file.of_offset BLOCK_SIZE
  let blockOffset := file.of_offset - (blockWriting - 1) * BLOCK_SIZE
  let writingSpace := BLOCK_SIZE - blockOffset
  let toWriteInBlock := if writingSpace < w.saveToWrite then writingSpace else w.saveToWrite
  let e := writeLoop w.inode w.buffer w.saveToWrite s.disk blockWriting blockOffset toWriteInBlock 0
    w.saveToWrite
  if e.null then
    (unlockBoth w.i w.inode .exclusive ⟨-1, []⟩, { s with disk := e.disk })
  else
    let file := { file with of_offset := file.of_offset + (w.saveToWrite - e.to_write) }
    let d := e.disk.modInode w.inode fun i =>
      if i.i_size < file.of_offset then { i with i_size := file.of_offset } else i
    (unlockBoth w.i w.inode .exclusive ⟨ssizeT (w.saveToWrite - e.to_write), []⟩,
      fillEntry { s with disk := d } w.i file)

/-- `tfs_read` under both locks. -/
def readSection (s : State) (i inode len : Nat) : OpPlace × State :=
  let r := readCritical s.disk (s.open_file_table i) inode len
  (unlockBoth i inode .shared ⟨r.1.1, r.1.2⟩, fillEntry s i r.2)

/-! ## The program -/

/-- `get_open_file_entry`, under the mutex of the entry. -/
def getSection (s : State) (i : Nat) (use : Access) : OpPlace :=
  .unlock (.fileEntryMutex i) .exclusive
    (if s.free_open_file_entries i = .FREE then .ret ⟨-1, []⟩ else .inumber i use)

/-- `remove_from_open_file_table`, under the mutex of the entry. -/
def closeSection (s : State) (i : Nat) : OpPlace × State :=
  let r := removeFromOpenFileTable s i
  (.unlock (.fileEntryMutex i) .exclusive (.ret ⟨r.1, []⟩), r.2)

/-- Behind the read of `of_inumber`. -/
def inumberRun (s : State) (i : Nat) (use : Access) : OpPlace :=
  match inodeGet (s.open_file_table i).of_inumber, use with
  | none, _ => .ret ⟨-1, []⟩
  | some inode, .write buffer => .inodeLock i inode (.write buffer)
  | some inode, .read len => .readIsAppending i inode len

/-- The instruction at each place of an operation, none at its end. -/
def OpPlace.code : OpPlace → Option (Instr Lock State OpPlace)
  | .find path use => some (.run fun s => (findRun s.disk path use, s))
  | .scan path dir_entry i use => some (.run fun s => (scanRun s.disk path dir_entry i use, s))
  | .openCheck name flags => some (.run fun s => (openCheckRun name flags, s))
  | .createLock path flags => some (.lock .newFileMutex .exclusive (.find path (.create flags)))
  | .newInode path => some (.run fun s => newInodeRun s path)
  | .addEntry path inum => some (.run fun s => (addEntryRun s.disk path inum, s))
  | .storeName path inum dir_entry i =>
    some (.run fun s => (.storeInumber inum dir_entry i,
      setData s (copyDName s.disk.fs_data dir_entry i path.skip)))
  | .storeInumber inum dir_entry i =>
    some (.run fun s => (.storeEnd inum dir_entry i,
      setData s (setDInumber s.disk.fs_data dir_entry i inum)))
  | .storeEnd inum dir_entry i =>
    some (.run fun s => (unlockNewFile (.claimLock ⟨inum, 0, false⟩),
      setData s (endDName s.disk.fs_data dir_entry i)))
  | .undo inum =>
    some (.run fun s => (unlockNewFile (.ret ⟨-1, []⟩),
      { s with disk := (inodeDelete s.disk inum).2 }))
  | .truncLock flags inum inode =>
    some (.lock (.rwlock inode) .exclusive (.truncRun flags inum inode))
  | .truncRun flags inum inode => some (.run fun s => truncSection s flags inum inode)
  | .openSize inum inode =>
    some (.run fun s => (.claimLock ⟨inum, (s.disk.inode_table inode).i_size, true⟩, s))
  | .claimLock e => some (.lock .addFileEntryMutex .exclusive (.claimRun e))
  | .claimRun e => some (.run fun s => claimSection s e)
  | .fillLock i e => some (.lock (.fileEntryMutex i) .exclusive (.fillRun i e))
  | .fillRun i e =>
    some (.run fun s => (.unlock (.fileEntryMutex i) .exclusive (.ret ⟨i, []⟩), fillEntry s i e))
  | .close fhandle =>
    some (.run fun s =>
      (if validFileHandle fhandle then .closeLock fhandle.toNat else .ret ⟨-1, []⟩, s))
  | .closeLock i => some (.lock (.fileEntryMutex i) .exclusive (.closeRun i))
  | .closeRun i => some (.run fun s => closeSection s i)
  | .get fhandle use =>
    some (.run fun s =>
      (if validFileHandle fhandle then .getLock fhandle.toNat use else .ret ⟨-1, []⟩, s))
  | .getLock i use => some (.lock (.fileEntryMutex i) .exclusive (.getRun i use))
  | .getRun i use => some (.run fun s => (getSection s i use, s))
  | .inumber i use => some (.run fun s => (inumberRun s i use, s))
  | .readIsAppending i inode len =>
    some (.run fun s =>
      (if (s.open_file_table i).isAppending then .ret ⟨0, []⟩
        else .inodeLock i inode (.read len), s))
  | .inodeLock i inode use => some (.lock (.rwlock inode) use.mode (.entryLock i inode use))
  | .entryLock i inode use => some (.lock (.fileEntryMutex i) .exclusive (.accessRun i inode use))
  | .accessRun i inode (.write buffer) => some (.run fun s => writeSection s i inode buffer)
  | .accessRun i inode (.read len) => some (.run fun s => readSection s i inode len)
  | .allocLock w blockOcc todo second =>
    some (.lock .allocBlock .exclusive (.allocRun w blockOcc todo second))
  | .allocRun w blockOcc todo second =>
    some (.run fun s =>
      let a := dataBlockAlloc s.disk
      (.unlock .allocBlock .exclusive (.allocated w blockOcc todo second a.1),
        { s with disk := a.2 }))
  | .allocated w blockOcc todo second b =>
    some (.run fun s =>
      let r := allocatedRun s.disk w blockOcc todo second b
      (r.1, { s with disk := r.2 }))
  | .copyRun w => some (.run fun s => copySection s w)
  | .unlock l _ next => some (.unlock l next)
  | .ret _ => none

/-! ## Calls, and the copy to the file system outside -/

/-- A call of a thread. -/
inductive ThreadCall
  | op (op : Op)
  | tfsLookup (path : CString)

/-- Where an operation returns to: to the program, or to `tfs_copy_to_external_fs` behind one of
its calls. -/
inductive Caller
  | program
  | copyLookup (path : CString) (destOpens : Bool)
  | copyOpen (destOpens : Bool)
  | copyRead (fhandle : Int)
  /-- The last call, before the return of `ret`. -/
  | copyClose (ret : Int)

/-- What comes next in a thread. -/
inductive LockPlace
  /-- Between two calls, with the last one and its answer. -/
  | outside (last : Option (ThreadCall × Answer))
  /-- `tfs_copy_to_external_fs`, at its check of the path. -/
  | copyCheck (source_path : Option CString) (destOpens : Bool)
  | inside (call : ThreadCall) (caller : Caller) (p : OpPlace)

def copyCheckRun (source_path : Option CString) (destOpens : Bool) : LockPlace :=
  let call := .op (.tfsCopyToExternalFs source_path destOpens)
  match source_path with
  | none => .outside (some (call, ⟨-1, []⟩))
  | some path =>
    if validPathname (some path) = false then .outside (some (call, ⟨-1, []⟩))
    else .inside call (.copyLookup path destOpens) (.find path .answer)

/-- Behind an operation that answered `a`. What `fputs` writes to the destination is left out, also
where it is not defined: a chunk of 256 bytes without a NUL has no end in the buffer. -/
def back (call : ThreadCall) : Caller → Answer → LockPlace
  | .program, a => .outside (some (call, a))
  | .copyLookup path destOpens, a =>
    if a.ret = -1 then .outside (some (call, ⟨-1, []⟩))
    else .inside call (.copyOpen destOpens) (.openCheck (some path) TFS_O_CREAT)
  | .copyOpen destOpens, a =>
    if a.ret < 0 then .outside (some (call, ⟨-1, []⟩))
    else if destOpens = false then .inside call (.copyClose (-1)) (.close a.ret)
    else .inside call (.copyRead a.ret) (.get a.ret (.read BUFFER_SIZE))
  | .copyRead fhandle, a =>
    if 0 < a.ret then .inside call (.copyRead fhandle) (.get fhandle (.read BUFFER_SIZE))
    else if a.ret < 0 then .outside (some (call, ⟨-1, []⟩))
    else .inside call (.copyClose 0) (.close fhandle)
  | .copyClose ret, _ => .outside (some (call, ⟨ret, []⟩))

def LockPlace.code : LockPlace → Option (Instr Lock State LockPlace)
  | .outside _ => none
  | .copyCheck source_path destOpens =>
    some (.run fun s => (copyCheckRun source_path destOpens, s))
  | .inside call caller (.ret a) => some (.run fun s => (back call caller a, s))
  | .inside call caller p => p.code.map (Instr.map (.inside call caller))

/-- The first place of a call. -/
def entry : ThreadCall → LockPlace
  | .op (.tfsOpen name flags) =>
    .inside (.op (.tfsOpen name flags)) .program (.openCheck name flags)
  | .op (.tfsClose fhandle) => .inside (.op (.tfsClose fhandle)) .program (.close fhandle)
  | .op (.tfsRead fhandle len) =>
    .inside (.op (.tfsRead fhandle len)) .program (.get fhandle (.read len))
  | .op (.tfsWrite fhandle buffer) =>
    .inside (.op (.tfsWrite fhandle buffer)) .program (.get fhandle (.write buffer))
  | .op (.tfsCopyToExternalFs source_path destOpens) => .copyCheck source_path destOpens
  | .tfsLookup path => .inside (.tfsLookup path) .program (.find path .answer)

def operations : Program Lock State LockPlace ThreadCall := ⟨LockPlace.code, entry⟩

/-- Any number of threads, each of them with its own number. -/
abbrev LockThreads := Machine Nat Lock State LockPlace

/-- A state after any steps of any threads, from any file system. -/
abbrev LockReachable : LockThreads → Prop :=
  steps.Reachable (turn operations) (Machine.AtRest operations)

end tecnicofs.parte1
