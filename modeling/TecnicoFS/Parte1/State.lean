-- The state of the first part (`fs/state.c`): the persistent tables and
-- blocks, the open file table, and the functions that allocate, free and find
-- inodes, blocks, directory entries and open file entries.
import TecnicoFS.Common.Directory

open byte_memory

namespace tecnicofs.parte1

abbrev DIRECT_BLOCK_COUNT : Nat := 10

/-- `DIRECT_BLOCK_COUNT + BLOCK_SIZE / sizeof(int)`. -/
abbrev MAX_INODE_BLOCKS : Nat := 266

/-- `BLOCK_SIZE * MAX_INODE_BLOCKS`. -/
abbrev MAX_FILE_SIZE : Nat := 272384

structure Inode where
  i_node_type : InodeType
  i_size : Nat
  i_data_block : Nat → Int
  indirect_data_block : Int
  blocksAlloc : Nat

structure OpenFileEntry where
  of_inumber : Int
  of_offset : Nat
  isAppending : Bool
  deriving DecidableEq

/-- The persistent state. A pointer to an inode is its index in `inode_table`, and a pointer
into `fs_data` is the address. -/
structure Disk where
  inode_table : Nat → Inode
  freeinode_ts : Nat → AllocationState
  fs_data : Memory
  free_blocks : Nat → AllocationState

/-- The persistent and the volatile state. -/
@[ext]
structure State where
  disk : Disk
  open_file_table : Nat → OpenFileEntry
  free_open_file_entries : Nat → AllocationState

def Disk.modInode (d : Disk) (inode : Nat) (f : Inode → Inode) : Disk :=
  { d with inode_table := Function.update d.inode_table inode (f (d.inode_table inode)) }

def Disk.setFreeinode (d : Disk) (inumber : Nat) (a : AllocationState) : Disk :=
  { d with freeinode_ts := Function.update d.freeinode_ts inumber a }

def Disk.setFreeBlock (d : Disk) (block : Nat) (a : AllocationState) : Disk :=
  { d with free_blocks := Function.update d.free_blocks block a }

section
variable (d : Disk) (i : Nat) (f : Inode → Inode) (a : AllocationState)

@[simp] theorem Disk.modInode_self : (d.modInode i f).inode_table i = f (d.inode_table i) :=
  Function.update_self ..

@[simp] theorem Disk.modInode_of_ne {g : Nat} (h : g ≠ i) :
    (d.modInode i f).inode_table g = d.inode_table g := Function.update_of_ne h ..

@[simp] theorem Disk.modInode_freeinode : (d.modInode i f).freeinode_ts = d.freeinode_ts := rfl
@[simp] theorem Disk.modInode_data : (d.modInode i f).fs_data = d.fs_data := rfl
@[simp] theorem Disk.modInode_free : (d.modInode i f).free_blocks = d.free_blocks := rfl
@[simp] theorem Disk.setFreeBlock_inode : (d.setFreeBlock i a).inode_table = d.inode_table := rfl
@[simp] theorem Disk.setFreeBlock_data : (d.setFreeBlock i a).fs_data = d.fs_data := rfl

@[simp] theorem Disk.setFreeBlock_free :
    (d.setFreeBlock i a).free_blocks = Function.update d.free_blocks i a := rfl

@[simp] theorem Disk.setFreeBlock_freeinode :
    (d.setFreeBlock i a).freeinode_ts = d.freeinode_ts := rfl

@[simp] theorem Disk.setFreeinode_inode : (d.setFreeinode i a).inode_table = d.inode_table := rfl
@[simp] theorem Disk.setFreeinode_data : (d.setFreeinode i a).fs_data = d.fs_data := rfl
@[simp] theorem Disk.setFreeinode_free : (d.setFreeinode i a).free_blocks = d.free_blocks := rfl

end

/-- The static variables of the program when it starts: every byte is zero. -/
def zeroed : State where
  disk :=
    { inode_table := fun _ => ⟨.T_FILE, 0, fun _ => 0, 0, 0⟩
      freeinode_ts := fun _ => .FREE
      fs_data := fun _ => 0
      free_blocks := fun _ => .FREE }
  open_file_table := fun _ => ⟨0, 0, false⟩
  free_open_file_entries := fun _ => .FREE

/-! ## Checks and divisions -/

def validInumber (inumber : Int) : Bool := decide (0 ≤ inumber ∧ inumber < INODE_TABLE_SIZE)

def validBlockNumber (block_number : Int) : Bool :=
  decide (0 ≤ block_number ∧ block_number < DATA_BLOCKS)

def validFileHandle (file_handle : Int) : Bool :=
  decide (0 ≤ file_handle ∧ file_handle < MAX_OPEN_FILES)

def validInodeBlockNumber (nthBlock : Nat) : Bool :=
  decide (1 ≤ nthBlock ∧ nthBlock ≤ MAX_INODE_BLOCKS)

def divCeil (i1 i2 : Nat) : Nat := if i1 % i2 = 0 then i1 / i2 else i1 / i2 + 1

def divCeilRW (i1 i2 : Nat) : Nat := i1 / i2 + 1

/-- Everything is free. What lies in the tables and blocks stays. -/
def stateInit (s : State) : State where
  disk :=
    { s.disk with
      freeinode_ts := fun _ => .FREE
      free_blocks := fun _ => .FREE }
  open_file_table := s.open_file_table
  free_open_file_entries := fun _ => .FREE

/-! ## Data blocks -/

/-- The first free block becomes taken. -/
def dataBlockAlloc (d : Disk) : Int × Disk :=
  match (List.range DATA_BLOCKS).find? fun i => decide (d.free_blocks i = .FREE) with
  | some i => (i, d.setFreeBlock i .TAKEN)
  | none => (-1, d)

def dataBlockFree (d : Disk) (block_number : Int) : Int × Disk :=
  if validBlockNumber block_number then (0, d.setFreeBlock block_number.toNat .FREE) else (-1, d)

def dataBlockGet (block_number : Int) : Option Nat :=
  if validBlockNumber block_number then some (block_number.toNat * BLOCK_SIZE) else none

/-- The loops that free one block number after the other and stop at the first that fails. -/
def freeEach (d : Disk) : List Int → Int × Disk
  | [] => (0, d)
  | b :: bs =>
    let r := dataBlockFree d b
    if r.1 = -1 then (-1, r.2) else freeEach r.2 bs

/-- The numbers in the first `n` places of the indirect block at `indirectionBlock`. -/
def indirectEntries (d : Disk) (indirectionBlock n : Nat) : List Int :=
  (List.range n).map fun i => loadInt d.fs_data (indirectionBlock + 4 * i)

def freeIndirectBlocks (d : Disk) (inode j : Nat) : Int × Disk :=
  match dataBlockGet (d.inode_table inode).indirect_data_block with
  | none => (-1, d)
  | some indirectionBlock =>
    let r := freeEach d (indirectEntries d indirectionBlock (j - 10))
    if r.1 = -1 then (-1, r.2)
    else
      let r' := dataBlockFree r.2 (r.2.inode_table inode).indirect_data_block
      if r'.1 = -1 then (-1, r'.2) else (0, r'.2)

def deleteInodeDataBlocks (d : Disk) (inode : Nat) : Int × Disk :=
  let j := (d.inode_table inode).blocksAlloc
  let r := if 10 < j then freeIndirectBlocks d inode j else (0, d)
  if r.1 = -1 then (-1, r.2)
  else
    let j := if 10 < j then 10 else j
    freeEach r.2 ((List.range j).map (r.2.inode_table inode).i_data_block)

/-! ## The blocks of one inode -/

/-- The error flag and the address of the block, or none for NULL. Callers count the blocks
of an inode from 1. -/
def getNthDataBlock (d : Disk) (inode nthBlock : Nat) : Bool × Option Nat :=
  if (d.inode_table inode).blocksAlloc < nthBlock then (validInodeBlockNumber nthBlock, none)
  else
    let nthBlock := nthBlock - 1
    if 9 < nthBlock then
      match dataBlockGet (d.inode_table inode).indirect_data_block with
      | none => (false, none)
      | some indirectionBlock =>
        (false, dataBlockGet (loadInt d.fs_data (indirectionBlock + 4 * (nthBlock - 10))))
    else (false, dataBlockGet ((d.inode_table inode).i_data_block nthBlock))

/-- `indirectionBlock[n] = b` and `blocksAlloc++`. -/
def appendIndirect (d : Disk) (inode n : Nat) (b : Int) : Int × Disk :=
  match dataBlockGet (d.inode_table inode).indirect_data_block with
  | none => (-1, d)
  | some indirectionBlock =>
    (0, { d with fs_data := storeInt d.fs_data (indirectionBlock + 4 * n) b }.modInode inode
      fun i => { i with blocksAlloc := i.blocksAlloc + 1 })

/-- -1 for an error, 1 when the blocks ran out, 0 for a new block. -/
def allocNthDataBlock (d : Disk) (inode blockNumber : Nat) : Int × Disk :=
  if validInodeBlockNumber blockNumber = false then (-1, d)
  else
    let a := dataBlockAlloc d
    if a.1 = -1 then (1, a.2)
    else
      let blockNumber := blockNumber - 1
      if 9 < blockNumber then
        if blockNumber = 10 then
          -- the first of these two blocks holds the numbers of the others
          let d1 := a.2.modInode inode fun i => { i with indirect_data_block := a.1 }
          let a' := dataBlockAlloc d1
          if a'.1 = -1 then
            let f := dataBlockFree a'.2 (a'.2.inode_table inode).indirect_data_block
            if f.1 = -1 then (-1, f.2) else (1, f.2)
          else appendIndirect a'.2 inode (blockNumber - 10) a'.1
        else appendIndirect a.2 inode (blockNumber - 10) a.1
      else
        (0, a.2.modInode inode fun i =>
          { i with
            i_data_block := Function.update i.i_data_block blockNumber a.1
            blocksAlloc := i.blocksAlloc + 1 })

/-- The loop of `allocNecessaryBlocks`: `todo` is `blockNeeded - blockOcc`. -/
def allocBlocksLoop (d : Disk) (inode blockOcc : Nat) : Nat → Int × Disk
  | 0 => (0, d)
  | todo + 1 =>
    let r := allocNthDataBlock d inode (blockOcc + 1)
    if r.1 = -1 then (-1, r.2)
    else if r.1 = 1 then (0, r.2)
    else allocBlocksLoop r.2 inode (blockOcc + 1) todo

def allocNecessaryBlocks (d : Disk) (inode sizeNeeded : Nat) : Int × Disk :=
  let blockOcc := (d.inode_table inode).blocksAlloc
  allocBlocksLoop d inode blockOcc (divCeil sizeNeeded BLOCK_SIZE - blockOcc)

/-! ## Inodes -/

def inodeGet (inumber : Int) : Option Nat :=
  if validInumber inumber then some inumber.toNat else none

def inodeCreate (d : Disk) (n_type : InodeType) : Int × Disk :=
  match (List.range INODE_TABLE_SIZE).find? fun i => decide (d.freeinode_ts i = .FREE) with
  | none => (-1, d)
  | some inumber =>
    let d := (d.setFreeinode inumber .TAKEN).modInode inumber fun i => { i with i_node_type := n_type }
    match n_type with
    | .T_DIRECTORY =>
      let a := dataBlockAlloc d
      if a.1 = -1 then (-1, a.2.setFreeinode inumber .FREE)
      else
        let d := a.2.modInode inumber fun i =>
          { i with
            i_size := BLOCK_SIZE
            i_data_block := Function.update i.i_data_block 0 a.1
            blocksAlloc := 1 }
        match dataBlockGet a.1 with
        | none => (-1, d.setFreeinode inumber .FREE)
        | some dir_entry => (inumber, { d with fs_data := clearDir d.fs_data dir_entry MAX_DIR_ENTRIES })
    | .T_FILE => (inumber, d.modInode inumber fun i => { i with i_size := 0, blocksAlloc := 0 })

def inodeDelete (d : Disk) (inumber : Int) : Int × Disk :=
  if validInumber inumber = false ∨ d.freeinode_ts inumber.toNat = .FREE then (-1, d)
  else
    let d := d.setFreeinode inumber.toNat .FREE
    if 0 < (d.inode_table inumber.toNat).i_size then
      let r := deleteInodeDataBlocks d inumber.toNat
      if r.1 = -1 then (-1, r.2) else (0, r.2)
    else (0, d)

/-! ## The directory -/

def addDirEntry (d : Disk) (inumber sub_inumber : Int) (sub_name : CString) : Int × Disk :=
  if validInumber inumber = false ∨ validInumber sub_inumber = false then (-1, d)
  else if (d.inode_table inumber.toNat).i_node_type ≠ .T_DIRECTORY then (-1, d)
  else if sub_name.strlen = 0 then (-1, d)
  else
    match dataBlockGet ((d.inode_table inumber.toNat).i_data_block 0) with
    | none => (-1, d)
    | some dir_entry =>
      match firstEmptyEntry d.fs_data dir_entry with
      | none => (-1, d)
      | some i =>
        (0, { d with fs_data := fillDirEntry d.fs_data dir_entry i sub_inumber sub_name })

def findInDir (d : Disk) (inumber : Int) (sub_name : CString) : Int :=
  if validInumber inumber = false ∨ (d.inode_table inumber.toNat).i_node_type ≠ .T_DIRECTORY then -1
  else
    match dataBlockGet ((d.inode_table inumber.toNat).i_data_block 0) with
    | none => -1
    | some dir_entry => scanDir d.fs_data dir_entry sub_name

/-! ## Open file entries -/

/-- The part of `add_to_open_file_table` under `addFileEntryMutex`: the first free entry
becomes taken. -/
def claimEntry (s : State) : Option Nat × State :=
  match (List.range MAX_OPEN_FILES).find? fun i => decide (s.free_open_file_entries i = .FREE) with
  | some i =>
    (some i, { s with free_open_file_entries := Function.update s.free_open_file_entries i .TAKEN })
  | none => (none, s)

/-- The part of `add_to_open_file_table` under the mutex of the entry. -/
def fillEntry (s : State) (i : Nat) (e : OpenFileEntry) : State :=
  { s with open_file_table := Function.update s.open_file_table i e }

def addToOpenFileTable (s : State) (inumber : Int) (offset : Nat) (isAppending : Bool) :
    Int × State :=
  match claimEntry s with
  | (some i, s) => (i, fillEntry s i ⟨inumber, offset, isAppending⟩)
  | (none, s) => (-1, s)

def removeFromOpenFileTable (s : State) (fhandle : Int) : Int × State :=
  if validFileHandle fhandle = false then (-1, s)
  else if s.free_open_file_entries fhandle.toNat ≠ .TAKEN then (-1, s)
  else
    (0, { s with
      free_open_file_entries := Function.update s.free_open_file_entries fhandle.toNat .FREE })

/-- The index of the entry, or none for NULL. -/
def getOpenFileEntry (s : State) (fhandle : Int) : Option Nat :=
  if validFileHandle fhandle = false then none
  else if s.free_open_file_entries fhandle.toNat = .FREE then none
  else some fhandle.toNat

end tecnicofs.parte1
