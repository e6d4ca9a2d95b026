-- The operations of the first part (`fs/operations.c`). What runs under one
-- lock is a function of its own, so that the sequential operations here and
-- the threads of `Threads.lean` share the same bodies.
import TecnicoFS.Lib.Runs
import TecnicoFS.Parte1.State

open byte_memory

namespace tecnicofs.parte1

abbrev BUFFER_SIZE : Nat := 256

def tfsInit (s : State) : Int × State :=
  let s := stateInit s
  let r := inodeCreate s.disk .T_DIRECTORY
  (if r.1 ≠ ROOT_DIR_INUM then -1 else 0, { s with disk := r.2 })

/-- The caller has checked the name. -/
def tfsLookup (d : Disk) (name : CString) : Int := findInDir d ROOT_DIR_INUM name.skip

/-! ## Open and close -/

/-- The truncation in `open_existing_file`, under the lock of the inode. -/
def truncateInode (d : Disk) (inode : Nat) : Int × Disk :=
  if 0 < (d.inode_table inode).i_size then
    let r := deleteInodeDataBlocks d inode
    if r.1 = -1 then (-1, r.2)
    else (0, r.2.modInode inode fun i => { i with i_size := 0, blocksAlloc := 0 })
  else (0, d)

/-- The initial offset and the mode. `offset = 0` in the source sets the pointer, so the offset
stays the 0 of the caller. -/
def initialOffset (d : Disk) (flags : BitVec 32) (inode : Nat) : Nat × Bool :=
  if hasFlag flags TFS_O_APPEND then ((d.inode_table inode).i_size, true) else (0, false)

structure OpenResult where
  ret : Int
  isAppending : Bool
  offset : Nat

def openExistingFile (d : Disk) (flags : BitVec 32) (inum : Int) : OpenResult × Disk :=
  match inodeGet inum with
  | none => (⟨-1, false, 0⟩, d)
  | some inode =>
    let t := if hasFlag flags TFS_O_TRUNC then truncateInode d inode else (0, d)
    if t.1 = -1 then (⟨-1, false, 0⟩, t.2)
    else
      let o := initialOffset t.2 flags inode
      (⟨0, o.2, o.1⟩, t.2)

/-- How the section of `tfs_open` under `newFileMutex` ends. -/
inductive CreateResult
  | found (inum : Int)
  | failed
  | created (inum : Int)

/-- The section under `newFileMutex`: the second lookup, the new inode and its entry. -/
def createCritical (d : Disk) (name : CString) : CreateResult × Disk :=
  let inum := tfsLookup d name
  if 0 ≤ inum then (.found inum, d)
  else
    let c := inodeCreate d .T_FILE
    if c.1 = -1 then (.failed, c.2)
    else
      let a := addDirEntry c.2 ROOT_DIR_INUM c.1 name.skip
      if a.1 = -1 then (.failed, (inodeDelete a.2 c.1).2) else (.created c.1, a.2)

/-- The end of `tfs_open` for a file that was found. -/
def openFound (s : State) (flags : BitVec 32) (inum : Int) : Int × State :=
  let r := openExistingFile s.disk flags inum
  if r.1.ret = -1 then (-1, { s with disk := r.2 })
  else addToOpenFileTable { s with disk := r.2 } inum r.1.offset r.1.isAppending

def tfsOpen (s : State) (name : Option CString) (flags : BitVec 32) : Int × State :=
  match name with
  | none => (-1, s)
  | some path =>
    if validPathname (some path) = false then (-1, s)
    else
      let inum := tfsLookup s.disk path
      if 0 ≤ inum then openFound s flags inum
      else if hasFlag flags TFS_O_CREAT then
        match createCritical s.disk path with
        | (.found inum, d) => openFound { s with disk := d } flags inum
        | (.failed, d) => (-1, { s with disk := d })
        | (.created inum, d) => addToOpenFileTable { s with disk := d } inum 0 false
      else (-1, s)

def tfsClose (s : State) (fhandle : Int) : Int × State := removeFromOpenFileTable s fhandle

/-! ## Write -/

/-- How the copy loop of `tfs_write` ends: `null` when a block was NULL. -/
structure WriteEnd where
  disk : Disk
  to_write : Nat
  null : Bool

/-- The copy loop of `tfs_write`. Each round copies a byte or more, so `to_write` rounds are
enough. -/
def writeLoop (inode : Nat) (buffer : List UInt8) : Nat → Disk → Nat → Nat → Nat → Nat → Nat → WriteEnd
  | 0, d, _, _, _, _, to_write => ⟨d, to_write, false⟩
  | rounds + 1, d, blockWriting, blockOffset, toWriteInBlock, bufferOffset, to_write =>
    if to_write = 0 then ⟨d, to_write, false⟩
    else
      match getNthDataBlock d inode blockWriting with
      | (true, _) => ⟨d, to_write, false⟩
      | (false, none) => ⟨d, to_write, true⟩
      | (false, some block) =>
        let chunk := (buffer.drop bufferOffset).take toWriteInBlock
        let to_write := to_write - toWriteInBlock
        writeLoop inode buffer rounds
          { d with fs_data := store d.fs_data (block + blockOffset) chunk }
          (blockWriting + 1) 0 (if BLOCK_SIZE < to_write then BLOCK_SIZE else to_write)
          (bufferOffset + toWriteInBlock) to_write

/-- The part of `tfs_write` under the locks of the inode and of the entry. -/
def writeCritical (d : Disk) (file : OpenFileEntry) (inode : Nat) (buffer : List UInt8) :
    Int × Disk × OpenFileEntry :=
  let file := if file.isAppending then { file with of_offset := (d.inode_table inode).i_size } else file
  let sizeNeeded := sizeT ((buffer.length : Int) + file.of_offset)
  let sizeNeeded := if sizeNeeded > MAX_FILE_SIZE then MAX_FILE_SIZE else sizeNeeded
  let saveToWrite := sizeT ((sizeNeeded : Int) - file.of_offset)
  if 0 < saveToWrite then
    let a := allocNecessaryBlocks d inode sizeNeeded
    if a.1 = -1 then (-1, a.2, file)
    else
      let blockWriting := divCeilRW file.of_offset BLOCK_SIZE
      let blockOffset := file.of_offset - (blockWriting - 1) * BLOCK_SIZE
      let writingSpace := BLOCK_SIZE - blockOffset
      let toWriteInBlock := if writingSpace < saveToWrite then writingSpace else saveToWrite
      let w := writeLoop inode buffer saveToWrite a.2 blockWriting blockOffset toWriteInBlock 0 saveToWrite
      if w.null then (-1, w.disk, file)
      else
        let file := { file with of_offset := file.of_offset + (saveToWrite - w.to_write) }
        let d := w.disk.modInode inode fun i =>
          if i.i_size < file.of_offset then { i with i_size := file.of_offset } else i
        (ssizeT (saveToWrite - w.to_write), d, file)
  else (ssizeT 0, d, file)

def tfsWrite (s : State) (fhandle : Int) (buffer : List UInt8) : Int × State :=
  match getOpenFileEntry s fhandle with
  | none => (-1, s)
  | some i =>
    match inodeGet (s.open_file_table i).of_inumber with
    | none => (-1, s)
    | some inode =>
      let r := writeCritical s.disk (s.open_file_table i) inode buffer
      (r.1, fillEntry { s with disk := r.2.1 } i r.2.2)

/-! ## Read -/

/-- How the copy loop of `tfs_read` ends: `failed` when a block was missing. -/
structure ReadEnd where
  bytes : List UInt8
  to_read : Nat
  failed : Bool

/-- The copy loop of `tfs_read`. Each round copies a byte or more, so `to_read` rounds are
enough. -/
def readLoop (d : Disk) (inode : Nat) : Nat → Nat → Nat → Nat → Nat → ReadEnd
  | 0, _, _, _, to_read => ⟨[], to_read, false⟩
  | rounds + 1, blockReading, blockOffset, toReadInBlock, to_read =>
    if to_read = 0 then ⟨[], to_read, false⟩
    else
      match getNthDataBlock d inode blockReading with
      | (true, _) => ⟨[], to_read, true⟩
      | (false, none) => ⟨[], to_read, true⟩
      | (false, some block) =>
        let to_read := to_read - toReadInBlock
        let rest := readLoop d inode rounds (blockReading + 1) 0
          (if BLOCK_SIZE < to_read then BLOCK_SIZE else to_read) to_read
        { rest with bytes := load d.fs_data (block + blockOffset) toReadInBlock ++ rest.bytes }

/-- The part of `tfs_read` under the locks of the inode and of the entry: the return value, the
bytes that reached the buffer, and the entry. -/
def readCritical (d : Disk) (file : OpenFileEntry) (inode len : Nat) :
    (Int × List UInt8) × OpenFileEntry :=
  let to_read := sizeT (((d.inode_table inode).i_size : Int) - file.of_offset)
  let toReadSave := if to_read > len then len else to_read
  if 0 < toReadSave then
    let blockReading := divCeilRW file.of_offset BLOCK_SIZE
    let blockOffset := file.of_offset - (blockReading - 1) * BLOCK_SIZE
    let readingSpace := BLOCK_SIZE - blockOffset
    let toReadInBlock := if readingSpace < toReadSave then readingSpace else toReadSave
    let r := readLoop d inode toReadSave blockReading blockOffset toReadInBlock toReadSave
    if r.failed then ((-1, r.bytes), file)
    else
      ((ssizeT (toReadSave - r.to_read), r.bytes),
        { file with of_offset := file.of_offset + (toReadSave - r.to_read) })
  else ((ssizeT 0, []), file)

def tfsRead (s : State) (fhandle : Int) (len : Nat) : (Int × List UInt8) × State :=
  match getOpenFileEntry s fhandle with
  | none => ((-1, []), s)
  | some i =>
    match inodeGet (s.open_file_table i).of_inumber with
    | none => ((-1, []), s)
    | some inode =>
      if (s.open_file_table i).isAppending then ((0, []), s)
      else
        let r := readCritical s.disk (s.open_file_table i) inode len
        (r.1, fillEntry s i r.2)

/-! ## Copy to the file system outside -/

/-- `fputs`: the bytes it writes, and whether it ran past the end of the buffer in search of a
NUL. -/
def fputs (buffer : List UInt8) : List UInt8 × Bool :=
  (buffer.takeWhile (· ≠ 0), decide (0 ∉ buffer))

/-- The last return value of `tfs_read`, what `fputs` wrote, and whether it left the buffer. -/
structure CopyEnd where
  bytesRead : Int
  written : List UInt8
  overread : Bool
  state : State

/-- The loop of `tfs_copy_to_external_fs`. A round moves the offset of the handle on, so one
round for each byte that a file can have, and one more, are enough. -/
def copyLoop (fhandle : Int) : Nat → State → CopyEnd
  | 0, s => ⟨0, [], false, s⟩
  | rounds + 1, s =>
    let r := tfsRead s fhandle BUFFER_SIZE
    if 0 < r.1.1 then
      let buffer := if r.1.1 < BUFFER_SIZE then r.1.2 ++ [0] else r.1.2
      let rest := copyLoop fhandle rounds r.2
      { rest with
        written := (fputs buffer).1 ++ rest.written
        overread := (fputs buffer).2 || rest.overread }
    else ⟨r.1.1, [], false, r.2⟩

/-- The return value, what the destination holds after the call (none if `fopen` was not
reached or failed), and whether `fputs` left the transfer buffer. -/
structure CopyResult where
  ret : Int
  dest : Option (List UInt8)
  overread : Bool

/-- `destOpens` is the outcome of `fopen(dest_path, "w")`. -/
def tfsCopyToExternalFs (s : State) (source_path : Option CString) (destOpens : Bool) :
    CopyResult × State :=
  match source_path with
  | none => (⟨-1, none, false⟩, s)
  | some path =>
    if validPathname (some path) = false ∨ tfsLookup s.disk path = -1 then (⟨-1, none, false⟩, s)
    else
      let o := tfsOpen s (some path) TFS_O_CREAT
      if o.1 < 0 then (⟨-1, none, false⟩, o.2)
      else if destOpens = false then (⟨-1, none, false⟩, (tfsClose o.2 o.1).2)
      else
        let c := copyLoop o.1 (MAX_FILE_SIZE + 1) o.2
        if c.bytesRead < 0 then (⟨-1, some c.written, c.overread⟩, c.state)
        else (⟨0, some c.written, c.overread⟩, (tfsClose c.state o.1).2)

/-! ## Runs of operations -/

/-- A call with its arguments. A write passes the bytes of its buffer, and its length is their
number. -/
inductive Op
  | tfsOpen (name : Option CString) (flags : BitVec 32)
  | tfsClose (fhandle : Int)
  | tfsRead (fhandle : Int) (len : Nat)
  | tfsWrite (fhandle : Int) (buffer : List UInt8)
  | tfsCopyToExternalFs (source_path : Option CString) (destOpens : Bool)
  deriving DecidableEq

/-- The return value of a call, and the bytes it gave to the caller. -/
structure Answer where
  ret : Int
  bytes : List UInt8
  deriving DecidableEq

def exec (s : State) : Op → Answer × State
  | .tfsOpen name flags => let r := tfsOpen s name flags; (⟨r.1, []⟩, r.2)
  | .tfsClose fhandle => let r := tfsClose s fhandle; (⟨r.1, []⟩, r.2)
  | .tfsRead fhandle len => let r := tfsRead s fhandle len; (⟨r.1.1, r.1.2⟩, r.2)
  | .tfsWrite fhandle buffer => let r := tfsWrite s fhandle buffer; (⟨r.1, []⟩, r.2)
  | .tfsCopyToExternalFs source_path destOpens =>
    let r := tfsCopyToExternalFs s source_path destOpens
    (⟨r.1.ret, []⟩, r.2)

/-- A state that `tfs_init` left, whatever lay in the memory before it. -/
def Initial (s : State) : Prop := ∃ raw, s = (tfsInit raw).2

/-- A state after any finite sequence of calls. -/
abbrev Reachable : State → Prop := runs.Reachable exec Initial

end tecnicofs.parte1
