-- The state of the server's file system (`fs/state.c` of the second part):
-- one block for each file, and one lock for everything.
import TecnicoFS.Common.Directory

open byte_memory

namespace tecnicofs.parte2

structure Inode where
  i_node_type : InodeType
  i_size : Nat
  i_data_block : Int

structure OpenFileEntry where
  of_inumber : Int
  of_offset : Nat
  deriving DecidableEq

/-- The persistent state. A pointer to an inode is its index in `inode_table`, and a pointer
into `fs_data` is the address. -/
structure Disk where
  inode_table : Nat → Inode
  freeinode_ts : Nat → AllocationState
  fs_data : Memory
  free_blocks : Nat → AllocationState

/-- The persistent and the volatile state, with the counter of `operations.c`. -/
structure State where
  disk : Disk
  open_file_table : Nat → OpenFileEntry
  free_open_file_entries : Nat → AllocationState
  openFiles : Int

def Disk.modInode (d : Disk) (inode : Nat) (f : Inode → Inode) : Disk :=
  { d with inode_table := Function.update d.inode_table inode (f (d.inode_table inode)) }

def Disk.setFreeinode (d : Disk) (inumber : Nat) (a : AllocationState) : Disk :=
  { d with freeinode_ts := Function.update d.freeinode_ts inumber a }

def Disk.setFreeBlock (d : Disk) (block : Nat) (a : AllocationState) : Disk :=
  { d with free_blocks := Function.update d.free_blocks block a }

section
variable (d : Disk) (i : Nat) (f : Inode → Inode) (a : AllocationState)

@[simp] theorem Disk.modInode_self : (d.modInode i f).inode_table i = f (d.inode_table i) :=
  Function.update_self ..

@[simp] theorem Disk.modInode_of_ne {g : Nat} (h : g ≠ i) :
    (d.modInode i f).inode_table g = d.inode_table g := Function.update_of_ne h ..

@[simp] theorem Disk.modInode_freeinode : (d.modInode i f).freeinode_ts = d.freeinode_ts := rfl
@[simp] theorem Disk.modInode_data : (d.modInode i f).fs_data = d.fs_data := rfl
@[simp] theorem Disk.modInode_free : (d.modInode i f).free_blocks = d.free_blocks := rfl
@[simp] theorem Disk.setFreeBlock_inode : (d.setFreeBlock i a).inode_table = d.inode_table := rfl
@[simp] theorem Disk.setFreeBlock_data : (d.setFreeBlock i a).fs_data = d.fs_data := rfl

@[simp] theorem Disk.setFreeBlock_free :
    (d.setFreeBlock i a).free_blocks = Function.update d.free_blocks i a := rfl

@[simp] theorem Disk.setFreeBlock_freeinode :
    (d.setFreeBlock i a).freeinode_ts = d.freeinode_ts := rfl

@[simp] theorem Disk.setFreeinode_inode : (d.setFreeinode i a).inode_table = d.inode_table := rfl
@[simp] theorem Disk.setFreeinode_data : (d.setFreeinode i a).fs_data = d.fs_data := rfl
@[simp] theorem Disk.setFreeinode_free : (d.setFreeinode i a).free_blocks = d.free_blocks := rfl

@[simp] theorem Disk.setFreeinode_freeinode :
    (d.setFreeinode i a).freeinode_ts = Function.update d.freeinode_ts i a := rfl

end

/-- The static variables of the server when it starts: every byte is zero. -/
def zeroed : State where
  disk :=
    { inode_table := fun _ => ⟨.T_FILE, 0, 0⟩
      freeinode_ts := fun _ => .FREE
      fs_data := fun _ => 0
      free_blocks := fun _ => .FREE }
  open_file_table := fun _ => ⟨0, 0⟩
  free_open_file_entries := fun _ => .FREE
  openFiles := 0

/-! ## Checks -/

def validInumber (inumber : Int) : Bool := decide (0 ≤ inumber ∧ inumber < INODE_TABLE_SIZE)

def validBlockNumber (block_number : Int) : Bool :=
  decide (0 ≤ block_number ∧ block_number < DATA_BLOCKS)

def validFileHandle (file_handle : Int) : Bool :=
  decide (0 ≤ file_handle ∧ file_handle < MAX_OPEN_FILES)

/-- Everything is free. What lies in the tables and blocks stays. -/
def stateInit (s : State) : State :=
  { s with
    disk :=
      { s.disk with
        freeinode_ts := fun _ => .FREE
        free_blocks := fun _ => .FREE }
    free_open_file_entries := fun _ => .FREE }

/-! ## Data blocks -/

/-- The first free block becomes taken. -/
def dataBlockAlloc (d : Disk) : Int × Disk :=
  match (List.range DATA_BLOCKS).find? fun i => decide (d.free_blocks i = .FREE) with
  | some i => (i, d.setFreeBlock i .TAKEN)
  | none => (-1, d)

def dataBlockFree (d : Disk) (block_number : Int) : Int × Disk :=
  if validBlockNumber block_number then (0, d.setFreeBlock block_number.toNat .FREE) else (-1, d)

def dataBlockGet (block_number : Int) : Option Nat :=
  if validBlockNumber block_number then some (block_number.toNat * BLOCK_SIZE) else none

/-- `sizeof(fs_data)`. -/
abbrev FS_DATA_SIZE : Nat := 1048576

/-- `memcpy(&fs_data[a], buffer, n)`. It is not defined when it leaves `fs_data` or the buffer. -/
def memcpyIn (m : Memory) (a : Nat) (buffer : List UInt8) (n : Nat) : Option Memory :=
  if a + n ≤ FS_DATA_SIZE ∧ n ≤ buffer.length then some (store m a (buffer.take n)) else none

/-- `memcpy(buffer, &fs_data[a], n)`, for a buffer that is large enough. -/
def memcpyOut (m : Memory) (a n : Nat) : Option (List UInt8) :=
  if a + n ≤ FS_DATA_SIZE then some (load m a n) else none

/-! ## Inodes -/

def inodeGet (inumber : Int) : Option Nat :=
  if validInumber inumber then some inumber.toNat else none

def inodeCreate (d : Disk) (n_type : InodeType) : Int × Disk :=
  match (List.range INODE_TABLE_SIZE).find? fun i => decide (d.freeinode_ts i = .FREE) with
  | none => (-1, d)
  | some inumber =>
    let d := (d.setFreeinode inumber .TAKEN).modInode inumber fun i => { i with i_node_type := n_type }
    match n_type with
    | .T_DIRECTORY =>
      let b := dataBlockAlloc d
      if b.1 = -1 then (-1, b.2.setFreeinode inumber .FREE)
      else
        let d := b.2.modInode inumber fun i => { i with i_size := BLOCK_SIZE, i_data_block := b.1 }
        match dataBlockGet b.1 with
        | none => (-1, d.setFreeinode inumber .FREE)
        | some dir_entry => (inumber, { d with fs_data := clearDir d.fs_data dir_entry MAX_DIR_ENTRIES })
    | .T_FILE => (inumber, d.modInode inumber fun i => { i with i_size := 0, i_data_block := -1 })

def inodeDelete (d : Disk) (inumber : Int) : Int × Disk :=
  if validInumber inumber = false ∨ d.freeinode_ts inumber.toNat = .FREE then (-1, d)
  else
    let d := d.setFreeinode inumber.toNat .FREE
    if 0 < (d.inode_table inumber.toNat).i_size then
      let r := dataBlockFree d (d.inode_table inumber.toNat).i_data_block
      if r.1 = -1 then (-1, r.2) else (0, r.2)
    else (0, d)

/-! ## The directory -/

/-- The entry is filled in the order inode number, name, terminator. -/
def fillDirEntry (m : Memory) (base i : Nat) (sub_inumber : Int) (sub_name : CString) : Memory :=
  endDName (copyDName (setDInumber m base i sub_inumber) base i sub_name) base i

def addDirEntry (d : Disk) (inumber sub_inumber : Int) (sub_name : CString) : Int × Disk :=
  if validInumber inumber = false ∨ validInumber sub_inumber = false then (-1, d)
  else if (d.inode_table inumber.toNat).i_node_type ≠ .T_DIRECTORY then (-1, d)
  else if sub_name.strlen = 0 then (-1, d)
  else
    match dataBlockGet (d.inode_table inumber.toNat).i_data_block with
    | none => (-1, d)
    | some dir_entry =>
      match firstEmptyEntry d.fs_data dir_entry with
      | none => (-1, d)
      | some i =>
        (0, { d with fs_data := fillDirEntry d.fs_data dir_entry i sub_inumber sub_name })

def findInDir (d : Disk) (inumber : Int) (sub_name : CString) : Int :=
  if validInumber inumber = false ∨ (d.inode_table inumber.toNat).i_node_type ≠ .T_DIRECTORY then -1
  else
    match dataBlockGet (d.inode_table inumber.toNat).i_data_block with
    | none => -1
    | some dir_entry => scanDir d.fs_data dir_entry sub_name

/-! ## Open file entries -/

def addToOpenFileTable (s : State) (inumber : Int) (offset : Nat) : Int × State :=
  match (List.range MAX_OPEN_FILES).find? fun i => decide (s.free_open_file_entries i = .FREE) with
  | some i =>
    (i, { s with
      free_open_file_entries := Function.update s.free_open_file_entries i .TAKEN
      open_file_table := Function.update s.open_file_table i ⟨inumber, offset⟩ })
  | none => (-1, s)

def removeFromOpenFileTable (s : State) (fhandle : Int) : Int × State :=
  if validFileHandle fhandle = false ∨ s.free_open_file_entries fhandle.toNat ≠ .TAKEN then (-1, s)
  else
    (0, { s with
      free_open_file_entries := Function.update s.free_open_file_entries fhandle.toNat .FREE })

/-- The index of the entry, or none for NULL. -/
def getOpenFileEntry (fhandle : Int) : Option Nat :=
  if validFileHandle fhandle = false then none else some fhandle.toNat

end tecnicofs.parte2
