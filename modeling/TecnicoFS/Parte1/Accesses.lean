-- The places in the blocks that a call touches: the chunks that the copy loops move, and
-- the entries of the indirect blocks. All of them lie inside of their blocks, in every
-- state, because offsets, sizes and numbers of blocks stay in range.
import TecnicoFS.Parte1.Reads
import TecnicoFS.Parte1.Writes

open byte_memory

namespace tecnicofs.parte1

/-- `BLOCK_SIZE / sizeof(int)`. -/
abbrev INDIRECT_ENTRIES : Nat := 256

/-- A chunk of the block at an address that a loop copies, or an `int` of the indirect block at
an address. -/
inductive BlockAccess
  | chunk (block blockOffset len : Nat)
  | entry (indirectionBlock index : Nat)
  deriving DecidableEq

/-- The block is one of the data blocks, and the access does not leave it. -/
def BlockAccess.InBlock : BlockAccess → Prop
  | .chunk block blockOffset len =>
    (∃ b, dataBlockGet b = some block) ∧ blockOffset + len ≤ BLOCK_SIZE
  | .entry indirectionBlock index =>
    (∃ b, dataBlockGet b = some indirectionBlock) ∧ index < INDIRECT_ENTRIES

/-- The byte at `x` is among those accessed. -/
def BlockAccess.Covers (x : Nat) : BlockAccess → Prop
  | .chunk block blockOffset len => block + blockOffset ≤ x ∧ x < block + blockOffset + len
  | .entry indirectionBlock index =>
    indirectionBlock + 4 * index ≤ x ∧ x < indirectionBlock + 4 * index + 4

/-! ## The accesses of each function -/

def freeIndirectBlocksAccesses (d : Disk) (inode j : Nat) : List BlockAccess :=
  match dataBlockGet (d.inode_table inode).indirect_data_block with
  | none => []
  | some indirectionBlock => (List.range (j - 10)).map (.entry indirectionBlock)

def deleteInodeDataBlocksAccesses (d : Disk) (inode : Nat) : List BlockAccess :=
  let j := (d.inode_table inode).blocksAlloc
  if 10 < j then freeIndirectBlocksAccesses d inode j else []

def getNthDataBlockAccesses (d : Disk) (inode nthBlock : Nat) : List BlockAccess :=
  if (d.inode_table inode).blocksAlloc < nthBlock then []
  else
    let nthBlock := nthBlock - 1
    if 9 < nthBlock then
      match dataBlockGet (d.inode_table inode).indirect_data_block with
      | none => []
      | some indirectionBlock => [.entry indirectionBlock (nthBlock - 10)]
    else []

def appendIndirectAccesses (d : Disk) (inode n : Nat) : List BlockAccess :=
  match dataBlockGet (d.inode_table inode).indirect_data_block with
  | none => []
  | some indirectionBlock => [.entry indirectionBlock n]

def allocNthDataBlockAccesses (d : Disk) (inode blockNumber : Nat) : List BlockAccess :=
  if validInodeBlockNumber blockNumber = false then []
  else
    let a := dataBlockAlloc d
    if a.1 = -1 then []
    else
      let blockNumber := blockNumber - 1
      if 9 < blockNumber then
        if blockNumber = 10 then
          let d1 := a.2.modInode inode fun i => { i with indirect_data_block := a.1 }
          let a' := dataBlockAlloc d1
          if a'.1 = -1 then [] else appendIndirectAccesses a'.2 inode (blockNumber - 10)
        else appendIndirectAccesses a.2 inode (blockNumber - 10)
      else []

def allocBlocksLoopAccesses (d : Disk) (inode blockOcc : Nat) : Nat → List BlockAccess
  | 0 => []
  | todo + 1 =>
    let r := allocNthDataBlock d inode (blockOcc + 1)
    allocNthDataBlockAccesses d inode (blockOcc + 1) ++
      if r.1 = -1 then []
      else if r.1 = 1 then []
      else allocBlocksLoopAccesses r.2 inode (blockOcc + 1) todo

def allocNecessaryBlocksAccesses (d : Disk) (inode sizeNeeded : Nat) : List BlockAccess :=
  let blockOcc := (d.inode_table inode).blocksAlloc
  allocBlocksLoopAccesses d inode blockOcc (divCeil sizeNeeded BLOCK_SIZE - blockOcc)

def writeLoopAccesses (inode : Nat) (buffer : List UInt8) :
    Nat → Disk → Nat → Nat → Nat → Nat → Nat → List BlockAccess
  | 0, _, _, _, _, _, _ => []
  | rounds + 1, d, blockWriting, blockOffset, toWriteInBlock, bufferOffset, to_write =>
    if to_write = 0 then []
    else
      getNthDataBlockAccesses d inode blockWriting ++
        match getNthDataBlock d inode blockWriting with
        | (true, _) => []
        | (false, none) => []
        | (false, some block) =>
          let chunk := (buffer.drop bufferOffset).take toWriteInBlock
          let to_write := to_write - toWriteInBlock
          .chunk block blockOffset toWriteInBlock ::
            writeLoopAccesses inode buffer rounds
              { d with fs_data := store d.fs_data (block + blockOffset) chunk }
              (blockWriting + 1) 0 (if BLOCK_SIZE < to_write then BLOCK_SIZE else to_write)
              (bufferOffset + toWriteInBlock) to_write

def writeCriticalAccesses (d : Disk) (file : OpenFileEntry) (inode : Nat) (buffer : List UInt8) :
    List BlockAccess :=
  let of_offset := offsetAt d file inode
  let saveToWrite := saveToWrite buffer.length of_offset
  if 0 < saveToWrite then
    let a := allocNecessaryBlocks d inode (sizeNeeded buffer.length of_offset)
    allocNecessaryBlocksAccesses d inode (sizeNeeded buffer.length of_offset) ++
      if a.1 = -1 then []
      else
        let blockWriting := divCeilRW of_offset BLOCK_SIZE
        let blockOffset := of_offset - (blockWriting - 1) * BLOCK_SIZE
        let writingSpace := BLOCK_SIZE - blockOffset
        let toWriteInBlock := if writingSpace < saveToWrite then writingSpace else saveToWrite
        writeLoopAccesses inode buffer saveToWrite a.2 blockWriting blockOffset toWriteInBlock 0
          saveToWrite
  else []

def tfsWriteAccesses (s : State) (fhandle : Int) (buffer : List UInt8) : List BlockAccess :=
  match getOpenFileEntry s fhandle with
  | none => []
  | some i =>
    match inodeGet (s.open_file_table i).of_inumber with
    | none => []
    | some inode => writeCriticalAccesses s.disk (s.open_file_table i) inode buffer

def readLoopAccesses (d : Disk) (inode : Nat) : Nat → Nat → Nat → Nat → Nat → List BlockAccess
  | 0, _, _, _, _ => []
  | rounds + 1, blockReading, blockOffset, toReadInBlock, to_read =>
    if to_read = 0 then []
    else
      getNthDataBlockAccesses d inode blockReading ++
        match getNthDataBlock d inode blockReading with
        | (true, _) => []
        | (false, none) => []
        | (false, some block) =>
          let to_read := to_read - toReadInBlock
          .chunk block blockOffset toReadInBlock ::
            readLoopAccesses d inode rounds (blockReading + 1) 0
              (if BLOCK_SIZE < to_read then BLOCK_SIZE else to_read) to_read

def readCriticalAccesses (d : Disk) (file : OpenFileEntry) (inode len : Nat) : List BlockAccess :=
  let toReadSave := toReadSave d inode file.of_offset len
  if 0 < toReadSave then
    let blockReading := divCeilRW file.of_offset BLOCK_SIZE
    let blockOffset := file.of_offset - (blockReading - 1) * BLOCK_SIZE
    let readingSpace := BLOCK_SIZE - blockOffset
    let toReadInBlock := if readingSpace < toReadSave then readingSpace else toReadSave
    readLoopAccesses d inode toReadSave blockReading blockOffset toReadInBlock toReadSave
  else []

def tfsReadAccesses (s : State) (fhandle : Int) (len : Nat) : List BlockAccess :=
  match getOpenFileEntry s fhandle with
  | none => []
  | some i =>
    match inodeGet (s.open_file_table i).of_inumber with
    | none => []
    | some inode =>
      if (s.open_file_table i).isAppending then []
      else readCriticalAccesses s.disk (s.open_file_table i) inode len

def truncateInodeAccesses (d : Disk) (inode : Nat) : List BlockAccess :=
  if 0 < (d.inode_table inode).i_size then deleteInodeDataBlocksAccesses d inode else []

def openExistingFileAccesses (d : Disk) (flags : BitVec 32) (inum : Int) : List BlockAccess :=
  match inodeGet inum with
  | none => []
  | some inode => if hasFlag flags TFS_O_TRUNC then truncateInodeAccesses d inode else []

def inodeDeleteAccesses (d : Disk) (inumber : Int) : List BlockAccess :=
  if validInumber inumber = false ∨ d.freeinode_ts inumber.toNat = .FREE then []
  else if 0 < (d.inode_table inumber.toNat).i_size then
    deleteInodeDataBlocksAccesses d inumber.toNat
  else []

def createCriticalAccesses (d : Disk) (name : CString) : List BlockAccess :=
  if 0 ≤ tfsLookup d name then []
  else
    let c := inodeCreate d .T_FILE
    if c.1 = -1 then []
    else
      let a := addDirEntry c.2 ROOT_DIR_INUM c.1 name.skip
      if a.1 = -1 then inodeDeleteAccesses a.2 c.1 else []

def tfsOpenAccesses (s : State) (name : Option CString) (flags : BitVec 32) : List BlockAccess :=
  match name with
  | none => []
  | some path =>
    if validPathname (some path) = false then []
    else
      let inum := tfsLookup s.disk path
      if 0 ≤ inum then openExistingFileAccesses s.disk flags inum
      else if hasFlag flags TFS_O_CREAT then
        createCriticalAccesses s.disk path ++
          match createCritical s.disk path with
          | (.found inum, d) => openExistingFileAccesses d flags inum
          | (.failed, _) => []
          | (.created _, _) => []
      else []

def copyLoopAccesses (fhandle : Int) : Nat → State → List BlockAccess
  | 0, _ => []
  | rounds + 1, s =>
    let r := tfsRead s fhandle BUFFER_SIZE
    tfsReadAccesses s fhandle BUFFER_SIZE ++
      if 0 < r.1.1 then copyLoopAccesses fhandle rounds r.2 else []

def tfsCopyToExternalFsAccesses (s : State) (source_path : Option CString) (destOpens : Bool) :
    List BlockAccess :=
  match source_path with
  | none => []
  | some path =>
    if validPathname (some path) = false ∨ tfsLookup s.disk path = -1 then []
    else
      let o := tfsOpen s (some path) TFS_O_CREAT
      tfsOpenAccesses s (some path) TFS_O_CREAT ++
        if o.1 < 0 then []
        else if destOpens = false then []
        else copyLoopAccesses o.1 (MAX_FILE_SIZE + 1) o.2

/-- The accesses of a call. A close touches no block. -/
def accesses (s : State) : Op → List BlockAccess
  | .tfsOpen name flags => tfsOpenAccesses s name flags
  | .tfsClose _ => []
  | .tfsRead fhandle len => tfsReadAccesses s fhandle len
  | .tfsWrite fhandle buffer => tfsWriteAccesses s fhandle buffer
  | .tfsCopyToExternalFs source_path destOpens =>
    tfsCopyToExternalFsAccesses s source_path destOpens

/-! ## Only the accesses touch the blocks -/

theorem dataBlockAlloc_data (d : Disk) : (dataBlockAlloc d).2.fs_data = d.fs_data := by
  unfold dataBlockAlloc
  split <;> rfl

theorem dataBlockFree_data (d : Disk) (b : Int) : (dataBlockFree d b).2.fs_data = d.fs_data := by
  unfold dataBlockFree
  split <;> rfl

theorem appendIndirect_data {d : Disk} {f n x : Nat} (b : Int)
    (hx : ∀ a ∈ appendIndirectAccesses d f n, ¬ a.Covers x) :
    (appendIndirect d f n b).2.fs_data x = d.fs_data x := by
  unfold appendIndirectAccesses at hx
  unfold appendIndirect
  split
  · rfl
  · rename_i indirectionBlock hget
    have hout := hx (.entry indirectionBlock n) (by simp only [hget, List.mem_singleton])
    unfold BlockAccess.Covers at hout
    apply storeInt_outside
    omega

theorem allocNthDataBlock_data {d : Disk} {f n x : Nat}
    (hx : ∀ a ∈ allocNthDataBlockAccesses d f n, ¬ a.Covers x) :
    (allocNthDataBlock d f n).2.fs_data x = d.fs_data x := by
  have hfirst := congrFun (dataBlockAlloc_data d) x
  unfold allocNthDataBlockAccesses at hx
  unfold allocNthDataBlock
  by_cases hv : validInodeBlockNumber n = false
  · rw [if_pos hv]
  rw [Bool.not_eq_false] at hv
  by_cases ha : (dataBlockAlloc d).1 = -1
  · simp only [hv, Bool.true_eq_false, ha, if_true, if_false]
    exact hfirst
  generalize n - 1 = m at hx ⊢
  by_cases h9 : 9 < m
  · by_cases h10 : m = 10
    · -- two blocks, the first one for the entries
      generalize hd1 : ((dataBlockAlloc d).2.modInode f fun i =>
        { i with indirect_data_block := (dataBlockAlloc d).1 }) = d1
      have hsecond : (dataBlockAlloc d1).2.fs_data x = d.fs_data x := by
        rw [dataBlockAlloc_data, ← hd1, Disk.modInode_data]
        exact hfirst
      by_cases ha' : (dataBlockAlloc d1).1 = -1
      · simp only [hv, Bool.true_eq_false, ha, h9, if_pos h10, hd1, ha', if_true, if_false]
        split <;> simp only [dataBlockFree_data, hsecond]
      · simp only [hv, Bool.true_eq_false, ha, h9, if_pos h10, hd1, ha', if_true, if_false] at hx ⊢
        exact (appendIndirect_data _ hx).trans hsecond
    · simp only [hv, Bool.true_eq_false, ha, h9, h10, if_true, if_false] at hx ⊢
      exact (appendIndirect_data _ hx).trans hfirst
  · simp only [hv, Bool.true_eq_false, ha, h9, if_false, Disk.modInode_data]
    exact hfirst

theorem allocBlocksLoop_data {d : Disk} {f n todo x : Nat}
    (hx : ∀ a ∈ allocBlocksLoopAccesses d f n todo, ¬ a.Covers x) :
    (allocBlocksLoop d f n todo).2.fs_data x = d.fs_data x := by
  induction todo generalizing d n with
  | zero => rfl
  | succ todo ih =>
    simp only [allocBlocksLoopAccesses, List.mem_append] at hx
    have hone := allocNthDataBlock_data fun a ha => hx a (Or.inl ha)
    simp only [allocBlocksLoop]
    split
    · exact hone
    · rw [if_neg ‹_›] at hx
      split
      · exact hone
      · rw [if_neg ‹_›] at hx
        exact (ih fun a ha => hx a (Or.inr ha)).trans hone

theorem writeLoop_data {d : Disk} {f x : Nat} {buffer : List UInt8} {rounds b off c o n : Nat}
    (hx : ∀ a ∈ writeLoopAccesses f buffer rounds d b off c o n, ¬ a.Covers x) :
    (writeLoop f buffer rounds d b off c o n).disk.fs_data x = d.fs_data x := by
  induction rounds generalizing d b off c o n with
  | zero => rfl
  | succ rounds ih =>
    simp only [writeLoopAccesses] at hx
    simp only [writeLoop]
    split
    · rfl
    rw [if_neg ‹_›] at hx
    simp only [List.mem_append] at hx
    split
    · rfl
    · rfl
    · rename_i block hget
      simp only [hget, List.mem_cons] at hx
      have hchunk := hx (.chunk block off c) (Or.inr (Or.inl rfl))
      unfold BlockAccess.Covers at hchunk
      have hlen := List.length_take_le c (buffer.drop o)
      rw [ih fun a ha => hx a (Or.inr (Or.inr ha))]
      apply store_outside
      omega

theorem writeCritical_data {d : Disk} {file : OpenFileEntry} {f x : Nat} {buffer : List UInt8}
    (hx : ∀ a ∈ writeCriticalAccesses d file f buffer, ¬ a.Covers x) :
    (writeCritical d file f buffer).2.1.fs_data x = d.fs_data x := by
  unfold writeCriticalAccesses at hx
  rw [writeCritical_offsetAt]
  by_cases hn : 0 < saveToWrite buffer.length (offsetAt d file f)
  · simp only [hn, if_true, List.mem_append] at hx
    simp only [hn, if_true]
    have halloc := allocBlocksLoop_data fun a ha => hx a (Or.inl ha)
    split
    · exact halloc
    · rename_i ha
      rw [if_neg ha] at hx
      have hloop := (writeLoop_data fun a ha => hx a (Or.inr ha)).trans halloc
      generalize writeLoop f buffer _ _ _ _ _ _ _ = w at hloop ⊢
      split <;> exact hloop
  · simp only [hn, if_false]

/-- A write changes no byte outside of its accesses. -/
theorem tfsWrite_data {s : State} {fhandle : Int} {buffer : List UInt8} {x : Nat}
    (hx : ∀ a ∈ tfsWriteAccesses s fhandle buffer, ¬ a.Covers x) :
    (tfsWrite s fhandle buffer).2.disk.fs_data x = s.disk.fs_data x := by
  unfold tfsWriteAccesses at hx
  unfold tfsWrite
  split
  · rfl
  rename_i i hget
  split
  · rfl
  rename_i inode hinode
  simp only [hget, hinode] at hx
  exact writeCritical_data hx

/-- Two bytes follow the one in block 1. -/
example : tfsWriteAccesses oneByteWritten 0 [8, 9] = [.chunk 1024 1 2] := by decide +kernel

/-- The memory `m` has the bytes of the disk at all of the accesses. -/
def AgreesAt (d : Disk) (m : Memory) (as : List BlockAccess) : Prop :=
  ∀ a ∈ as, ∀ x, a.Covers x → m x = d.fs_data x

section
variable {d : Disk} {m : Memory} {f : Nat}

theorem AgreesAt.left {as bs : List BlockAccess} (h : AgreesAt d m (as ++ bs)) :
    AgreesAt d m as :=
  fun a ha => h a (List.mem_append_left bs ha)

theorem AgreesAt.right {as bs : List BlockAccess} (h : AgreesAt d m (as ++ bs)) :
    AgreesAt d m bs :=
  fun a ha => h a (List.mem_append_right as ha)

theorem AgreesAt.loadInt {as : List BlockAccess} (h : AgreesAt d m as) {block n : Nat}
    (ha : .entry block n ∈ as) :
    loadInt m (block + 4 * n) = loadInt d.fs_data (block + 4 * n) := by
  apply loadInt_congr
  intro i hi
  apply h _ ha
  unfold BlockAccess.Covers
  omega

theorem getNthDataBlock_agrees {n : Nat} (h : AgreesAt d m (getNthDataBlockAccesses d f n)) :
    getNthDataBlock { d with fs_data := m } f n = getNthDataBlock d f n := by
  unfold getNthDataBlockAccesses at h
  unfold getNthDataBlock
  by_cases hb : (d.inode_table f).blocksAlloc < n
  · simp only [hb, if_true]
  by_cases h9 : 9 < n - 1
  · simp only [hb, h9, if_false, if_true] at h ⊢
    rcases hget : dataBlockGet (d.inode_table f).indirect_data_block with _ | block
    · rfl
    · simp only [hget] at h ⊢
      rw [h.loadInt (List.mem_singleton.mpr rfl)]
  · simp only [hb, h9, if_false]

theorem readLoop_agrees {rounds b off c n : Nat}
    (h : AgreesAt d m (readLoopAccesses d f rounds b off c n)) :
    readLoop { d with fs_data := m } f rounds b off c n = readLoop d f rounds b off c n := by
  induction rounds generalizing b off c n with
  | zero => rfl
  | succ rounds ih =>
    simp only [readLoopAccesses] at h
    simp only [readLoop]
    by_cases hn : n = 0
    · simp only [hn, if_true]
    simp only [hn, if_false] at h ⊢
    rw [getNthDataBlock_agrees h.left]
    rcases hget : getNthDataBlock d f b with ⟨_ | _, _ | block⟩
    · rfl
    · simp only [hget] at h ⊢
      have hrest : AgreesAt d m (readLoopAccesses d f rounds (b + 1) 0
          (if BLOCK_SIZE < n - c then BLOCK_SIZE else n - c) (n - c)) :=
        fun a ha => h.right a (List.mem_cons_of_mem _ ha)
      have hchunk : load m (block + off) c = load d.fs_data (block + off) c := by
        apply load_congr
        intro i hi
        apply h.right _ List.mem_cons_self
        unfold BlockAccess.Covers
        omega
      rw [ih hrest, hchunk]
    · rfl
    · rfl

theorem readCritical_agrees {file : OpenFileEntry} {len : Nat}
    (h : AgreesAt d m (readCriticalAccesses d file f len)) :
    readCritical { d with fs_data := m } file f len = readCritical d file f len := by
  unfold readCriticalAccesses toReadSave at h
  unfold readCritical
  simp only at h ⊢
  generalize (if sizeT (((d.inode_table f).i_size : Int) - file.of_offset) > len then len
    else sizeT (((d.inode_table f).i_size : Int) - file.of_offset)) = n at h ⊢
  by_cases hn : 0 < n
  · simp only [hn, if_true] at h ⊢
    rw [readLoop_agrees h]
  · simp only [hn, if_false]

/-- A read gives the same answer whatever lies outside of its accesses. -/
theorem tfsRead_agrees {s : State} {fhandle : Int} {len : Nat}
    (h : AgreesAt s.disk m (tfsReadAccesses s fhandle len)) :
    (tfsRead { s with disk := { s.disk with fs_data := m } } fhandle len).1 =
      (tfsRead s fhandle len).1 := by
  have hget : getOpenFileEntry { s with disk := { s.disk with fs_data := m } } fhandle =
      getOpenFileEntry s fhandle := rfl
  unfold tfsReadAccesses at h
  unfold tfsRead
  rw [hget]
  rcases hi : getOpenFileEntry s fhandle with _ | i
  · rfl
  rcases hin : inodeGet (s.open_file_table i).of_inumber with _ | f
  · simp only [hin]
  by_cases happ : (s.open_file_table i).isAppending = true
  · simp only [hin, happ, if_true]
  · simp only [hi, hin, if_neg happ] at h ⊢
    rw [readCritical_agrees h]

theorem indirectEntries_agrees {block n : Nat}
    (h : AgreesAt d m ((List.range n).map (.entry block))) :
    indirectEntries { d with fs_data := m } block n = indirectEntries d block n := by
  unfold indirectEntries
  apply List.map_congr_left
  intro i hi
  exact h.loadInt (List.mem_map_of_mem hi)

theorem dataBlockFree_setData (d : Disk) (m : Memory) (b : Int) :
    dataBlockFree { d with fs_data := m } b =
      ((dataBlockFree d b).1, { (dataBlockFree d b).2 with fs_data := m }) := by
  unfold dataBlockFree
  split <;> rfl

theorem freeEach_setData (d : Disk) (m : Memory) (bs : List Int) :
    freeEach { d with fs_data := m } bs =
      ((freeEach d bs).1, { (freeEach d bs).2 with fs_data := m }) := by
  induction bs generalizing d with
  | nil => rfl
  | cons b bs ih =>
    simp only [freeEach, dataBlockFree_setData]
    split
    · rfl
    · exact ih _

theorem freeIndirectBlocks_agrees {j : Nat}
    (h : AgreesAt d m (freeIndirectBlocksAccesses d f j)) :
    freeIndirectBlocks { d with fs_data := m } f j =
      ((freeIndirectBlocks d f j).1, { (freeIndirectBlocks d f j).2 with fs_data := m }) := by
  unfold freeIndirectBlocksAccesses at h
  unfold freeIndirectBlocks
  rcases hget : dataBlockGet (d.inode_table f).indirect_data_block with _ | block
  · rfl
  · simp only [hget] at h ⊢
    simp only [indirectEntries_agrees h, freeEach_setData, dataBlockFree_setData]
    split
    · rfl
    · split <;> rfl

theorem deleteInodeDataBlocks_agrees
    (h : AgreesAt d m (deleteInodeDataBlocksAccesses d f)) :
    deleteInodeDataBlocks { d with fs_data := m } f =
      ((deleteInodeDataBlocks d f).1, { (deleteInodeDataBlocks d f).2 with fs_data := m }) := by
  unfold deleteInodeDataBlocksAccesses at h
  unfold deleteInodeDataBlocks
  by_cases hj : 10 < (d.inode_table f).blocksAlloc
  · simp only [hj, if_true] at h ⊢
    simp only [freeIndirectBlocks_agrees h, freeEach_setData]
    split <;> rfl
  · simp only [hj, if_false, zero_ne_neg_one, freeEach_setData]

/-- A truncation does the same whatever lies outside of its accesses. -/
theorem truncateInode_agrees (h : AgreesAt d m (truncateInodeAccesses d f)) :
    truncateInode { d with fs_data := m } f =
      ((truncateInode d f).1, { (truncateInode d f).2 with fs_data := m }) := by
  unfold truncateInodeAccesses at h
  unfold truncateInode
  by_cases hsize : 0 < (d.inode_table f).i_size
  · simp only [hsize, if_true] at h ⊢
    simp only [deleteInodeDataBlocks_agrees h]
    split <;> rfl
  · simp only [hsize, if_false]

end

/-! ## The accesses lie inside of their blocks -/

section
variable {d : Disk} {f : Nat}

theorem freeIndirectBlocksAccesses_inBlock {j : Nat} (hj : j ≤ MAX_INODE_BLOCKS) :
    ∀ a ∈ freeIndirectBlocksAccesses d f j, a.InBlock := by
  unfold freeIndirectBlocksAccesses
  rcases hget : dataBlockGet (d.inode_table f).indirect_data_block with _ | block
  · exact List.forall_mem_nil _
  · intro a ha
    obtain ⟨i, hi, rfl⟩ := List.mem_map.mp ha
    rw [List.mem_range] at hi
    refine ⟨⟨_, hget⟩, ?_⟩
    unfold MAX_INODE_BLOCKS at hj
    unfold INDIRECT_ENTRIES
    omega

theorem getNthDataBlockAccesses_inBlock (n : Nat)
    (hle : (d.inode_table f).blocksAlloc ≤ MAX_INODE_BLOCKS) :
    ∀ a ∈ getNthDataBlockAccesses d f n, a.InBlock := by
  unfold getNthDataBlockAccesses
  split
  · exact List.forall_mem_nil _
  rename_i hn
  simp only
  split
  · rcases hget : dataBlockGet (d.inode_table f).indirect_data_block with _ | block
    · exact List.forall_mem_nil _
    · rw [List.forall_mem_singleton]
      refine ⟨⟨_, hget⟩, ?_⟩
      unfold MAX_INODE_BLOCKS at hle
      unfold INDIRECT_ENTRIES
      omega
  · exact List.forall_mem_nil _

theorem appendIndirectAccesses_inBlock {n : Nat} (hn : n < INDIRECT_ENTRIES) :
    ∀ a ∈ appendIndirectAccesses d f n, a.InBlock := by
  unfold appendIndirectAccesses
  rcases hget : dataBlockGet (d.inode_table f).indirect_data_block with _ | block
  · exact List.forall_mem_nil _
  · rw [List.forall_mem_singleton]
    exact ⟨⟨_, hget⟩, hn⟩

/-- What is allocated is a block that a file can have, whatever the state. -/
theorem allocNthDataBlockAccesses_inBlock (n : Nat) :
    ∀ a ∈ allocNthDataBlockAccesses d f n, a.InBlock := by
  unfold allocNthDataBlockAccesses
  split
  · exact List.forall_mem_nil _
  rename_i hv
  rw [Bool.not_eq_false, validInodeBlockNumber, decide_eq_true_eq] at hv
  have hlt : n - 1 - 10 < INDIRECT_ENTRIES := by
    unfold MAX_INODE_BLOCKS at hv
    unfold INDIRECT_ENTRIES
    omega
  simp only
  split
  · exact List.forall_mem_nil _
  split
  · split
    · split
      · exact List.forall_mem_nil _
      · exact appendIndirectAccesses_inBlock hlt
    · exact appendIndirectAccesses_inBlock hlt
  · exact List.forall_mem_nil _

theorem allocBlocksLoopAccesses_inBlock (n todo : Nat) :
    ∀ a ∈ allocBlocksLoopAccesses d f n todo, a.InBlock := by
  induction todo generalizing d n with
  | zero => exact List.forall_mem_nil _
  | succ todo ih =>
    simp only [allocBlocksLoopAccesses]
    rw [List.forall_mem_append]
    refine ⟨allocNthDataBlockAccesses_inBlock _, ?_⟩
    split
    · exact List.forall_mem_nil _
    · split
      · exact List.forall_mem_nil _
      · exact ih _

theorem getNthDataBlock_some {n block : Nat} (h : getNthDataBlock d f n = (false, some block)) :
    ∃ b, dataBlockGet b = some block := by
  unfold getNthDataBlock at h
  split at h
  · simp only [Prod.mk.injEq, reduceCtorEq, and_false] at h
  simp only at h
  split at h
  · split at h
    · cases h
    · exact ⟨_, congrArg Prod.snd h⟩
  · exact ⟨_, congrArg Prod.snd h⟩

/-- Each round copies a chunk that ends in its block, and the next one starts at a block. -/
theorem writeLoopAccesses_inBlock {buffer : List UInt8} {rounds b off c o n : Nat}
    (hle : (d.inode_table f).blocksAlloc ≤ MAX_INODE_BLOCKS) (hc : off + c ≤ BLOCK_SIZE) :
    ∀ a ∈ writeLoopAccesses f buffer rounds d b off c o n, a.InBlock := by
  induction rounds generalizing d b off c o n with
  | zero => exact List.forall_mem_nil _
  | succ rounds ih =>
    simp only [writeLoopAccesses]
    split
    · exact List.forall_mem_nil _
    rw [List.forall_mem_append]
    refine ⟨getNthDataBlockAccesses_inBlock b hle, ?_⟩
    split
    · exact List.forall_mem_nil _
    · exact List.forall_mem_nil _
    · rename_i block hget
      rw [List.forall_mem_cons]
      refine ⟨⟨getNthDataBlock_some hget, hc⟩, ih hle ?_⟩
      split <;> omega

theorem readLoopAccesses_inBlock {rounds b off c n : Nat}
    (hle : (d.inode_table f).blocksAlloc ≤ MAX_INODE_BLOCKS) (hc : off + c ≤ BLOCK_SIZE) :
    ∀ a ∈ readLoopAccesses d f rounds b off c n, a.InBlock := by
  induction rounds generalizing b off c n with
  | zero => exact List.forall_mem_nil _
  | succ rounds ih =>
    simp only [readLoopAccesses]
    split
    · exact List.forall_mem_nil _
    rw [List.forall_mem_append]
    refine ⟨getNthDataBlockAccesses_inBlock b hle, ?_⟩
    split
    · exact List.forall_mem_nil _
    · exact List.forall_mem_nil _
    · rename_i block hget
      rw [List.forall_mem_cons]
      refine ⟨⟨getNthDataBlock_some hget, hc⟩, ih ?_⟩
      split <;> omega

/-- The first chunk of a copy from offset `o` on ends in the block of `o`. -/
theorem first_chunk_le (o n : Nat) :
    let blockOffset := o - (divCeilRW o BLOCK_SIZE - 1) * BLOCK_SIZE
    blockOffset + (if BLOCK_SIZE - blockOffset < n then BLOCK_SIZE - blockOffset else n) ≤
      BLOCK_SIZE := by
  simp only [(block_start o).1, (block_start o).2]
  exact (chunkLen_le o n).2

theorem deleteInodeDataBlocksAccesses_inBlock
    (hle : (d.inode_table f).blocksAlloc ≤ MAX_INODE_BLOCKS) :
    ∀ a ∈ deleteInodeDataBlocksAccesses d f, a.InBlock := by
  unfold deleteInodeDataBlocksAccesses
  simp only
  split
  · exact freeIndirectBlocksAccesses_inBlock hle
  · exact List.forall_mem_nil _

end

theorem writeCriticalAccesses_inBlock {d : Disk} {f : Nat} (h : DiskInv d) (hf : FileInode d f)
    (file : OpenFileEntry) (buffer : List UInt8) :
    ∀ a ∈ writeCriticalAccesses d file f buffer, a.InBlock := by
  obtain ⟨hinv, hg⟩ := grownFor_spec h hf buffer.length (offsetAt d file f)
  have hle := hinv.blocks_le f ((hg.fileInode f).mpr hf)
  unfold writeCriticalAccesses
  simp only
  split
  · rw [List.forall_mem_append]
    refine ⟨allocBlocksLoopAccesses_inBlock _ _, ?_⟩
    split
    · exact List.forall_mem_nil _
    · exact writeLoopAccesses_inBlock hle (first_chunk_le _ _)
  · exact List.forall_mem_nil _

theorem readCriticalAccesses_inBlock {d : Disk} {f : Nat} (h : DiskInv d) (hf : FileInode d f)
    (file : OpenFileEntry) (len : Nat) :
    ∀ a ∈ readCriticalAccesses d file f len, a.InBlock := by
  unfold readCriticalAccesses
  simp only
  split
  · exact readLoopAccesses_inBlock (h.blocks_le f hf) (first_chunk_le _ _)
  · exact List.forall_mem_nil _

theorem openExistingFileAccesses_inBlock {d : Disk} {f : Nat} (h : DiskInv d) (hf : FileInode d f)
    (flags : BitVec 32) : ∀ a ∈ openExistingFileAccesses d flags f, a.InBlock := by
  unfold openExistingFileAccesses
  rw [inodeGet_file hf]
  simp only
  split
  · unfold truncateInodeAccesses
    split
    · exact deleteInodeDataBlocksAccesses_inBlock (h.blocks_le f hf)
    · exact List.forall_mem_nil _
  · exact List.forall_mem_nil _

/-- The inode that is given back is a new file, which has no blocks. -/
theorem createCriticalAccesses_nil {d : Disk} {name : CString} (h : DiskInv d)
    (hname : validPathname (some name) = true) : createCriticalAccesses d name = [] := by
  unfold createCriticalAccesses
  split
  · rfl
  simp only
  rcases inodeCreate_cases d with ⟨hc, _⟩ | ⟨i, hi, hc⟩
  · rw [hc, if_pos rfl]
  · have hadd := addDirEntry_fresh h hi (skip_strlen hname)
    have hsize : ((freshFile d i).inode_table i).i_size = 0 := by simp [freshFile]
    rw [hc, if_neg (by omega), hadd]
    split
    · simp only [inodeDeleteAccesses, Int.toNat_natCast, hsize, Nat.lt_irrefl, if_false,
        ite_self]
    · simp only [zero_ne_neg_one, if_false]

section
variable {s : State} (h : Inv s)
include h

theorem tfsOpenAccesses_inBlock (name : Option CString) (flags : BitVec 32) :
    ∀ a ∈ tfsOpenAccesses s name flags, a.InBlock := by
  unfold tfsOpenAccesses
  cases name with
  | none => exact List.forall_mem_nil _
  | some path =>
    simp only
    split
    · exact List.forall_mem_nil _
    rename_i hname
    rw [Bool.not_eq_false] at hname
    rcases tfsLookup_cases h.disk path with hl | ⟨f, hl, hf⟩
    · simp only [hl, not_zero_le_neg_one, if_false, createCriticalAccesses_nil h.disk hname,
        List.nil_append]
      split
      · rcases createCritical_cases h.disk hname with ⟨f, hl', _, _⟩ | ⟨_, hc | ⟨i, _, hc⟩⟩ |
          ⟨_, i, j, _, _, hc⟩
        · omega
        · rw [hc]
          exact List.forall_mem_nil _
        · rw [hc]
          exact List.forall_mem_nil _
        · rw [hc]
          exact List.forall_mem_nil _
      · exact List.forall_mem_nil _
    · simp only [hl, Int.natCast_nonneg, if_true]
      exact openExistingFileAccesses_inBlock h.disk hf flags

theorem tfsWriteAccesses_inBlock (fhandle : Int) (buffer : List UInt8) :
    ∀ a ∈ tfsWriteAccesses s fhandle buffer, a.InBlock := by
  unfold tfsWriteAccesses
  rcases hget : getOpenFileEntry s fhandle with _ | i
  · exact List.forall_mem_nil _
  · obtain ⟨f, hin, hf, _⟩ := h.on_file hget
    simp only [hin, inodeGet_file hf]
    exact writeCriticalAccesses_inBlock h.disk hf _ buffer

theorem tfsReadAccesses_inBlock (fhandle : Int) (len : Nat) :
    ∀ a ∈ tfsReadAccesses s fhandle len, a.InBlock := by
  unfold tfsReadAccesses
  rcases hget : getOpenFileEntry s fhandle with _ | i
  · exact List.forall_mem_nil _
  · obtain ⟨f, hin, hf, _⟩ := h.on_file hget
    simp only [hin, inodeGet_file hf]
    split
    · exact List.forall_mem_nil _
    · exact readCriticalAccesses_inBlock h.disk hf _ len

omit h in
theorem copyLoopAccesses_inBlock (h : Inv s) (fhandle : Int) (rounds : Nat) :
    ∀ a ∈ copyLoopAccesses fhandle rounds s, a.InBlock := by
  induction rounds generalizing s with
  | zero => exact List.forall_mem_nil _
  | succ rounds ih =>
    simp only [copyLoopAccesses]
    rw [List.forall_mem_append]
    refine ⟨tfsReadAccesses_inBlock h fhandle BUFFER_SIZE, ?_⟩
    split
    · exact ih (h.tfsRead fhandle BUFFER_SIZE)
    · exact List.forall_mem_nil _

theorem tfsCopyToExternalFsAccesses_inBlock (source_path : Option CString) (destOpens : Bool) :
    ∀ a ∈ tfsCopyToExternalFsAccesses s source_path destOpens, a.InBlock := by
  unfold tfsCopyToExternalFsAccesses
  cases source_path with
  | none => exact List.forall_mem_nil _
  | some path =>
    simp only
    split
    · exact List.forall_mem_nil _
    rw [List.forall_mem_append]
    refine ⟨tfsOpenAccesses_inBlock h _ _, ?_⟩
    split
    · exact List.forall_mem_nil _
    · split
      · exact List.forall_mem_nil _
      · exact copyLoopAccesses_inBlock (h.tfsOpen _ _) _ _

/-- Every call stays inside of the blocks. -/
theorem accesses_inBlock (op : Op) : ∀ a ∈ accesses s op, a.InBlock := by
  cases op with
  | tfsOpen name flags => exact tfsOpenAccesses_inBlock h name flags
  | tfsClose fhandle => exact List.forall_mem_nil _
  | tfsRead fhandle len => exact tfsReadAccesses_inBlock h fhandle len
  | tfsWrite fhandle buffer => exact tfsWriteAccesses_inBlock h fhandle buffer
  | tfsCopyToExternalFs source_path destOpens =>
    exact tfsCopyToExternalFsAccesses_inBlock h source_path destOpens

end

/-! ## The bounds -/

/-- The numbers of a state that the accesses rest on, and the accesses of every next call. -/
structure InBounds (s : State) : Prop where
  offset_le : ∀ i < MAX_OPEN_FILES, s.free_open_file_entries i = .TAKEN →
    (s.open_file_table i).of_offset ≤ MAX_FILE_SIZE
  size_le : ∀ f, FileInode s.disk f → (s.disk.inode_table f).i_size ≤ MAX_FILE_SIZE
  blocks_le : ∀ f, FileInode s.disk f → (s.disk.inode_table f).blocksAlloc ≤ MAX_INODE_BLOCKS
  no_wrap : ∀ (fhandle : Int) (i f len : Nat), getOpenFileEntry s fhandle = some i →
    (s.open_file_table i).of_inumber = f →
    let o := offsetAt s.disk (s.open_file_table i) f
    len + o < 2 ^ 64 → o ≤ sizeNeeded len o ∧ saveToWrite len o = sizeNeeded len o - o
  inBlock : ∀ op, ∀ a ∈ accesses s op, a.InBlock

/-- Offsets, sizes and numbers of blocks stay in range, whatever was truncated under the open
handles. So no write subtracts more than it has, and no call leaves a block. -/
theorem offsets_and_indices_stay_in_bounds (s : State) (h : Reachable s) : InBounds s where
  offset_le := by
    intro i hi ht
    obtain ⟨_, _, _, ho⟩ := h.inv.handle i hi ht
    exact ho
  size_le := h.inv.size_le
  blocks_le := h.inv.disk.blocks_le
  no_wrap := by
    intro fhandle i f len hget hin o hlen
    have ho := (handle_on_file h.inv hget hin).2
    have hneeded := sizeNeeded_eq hlen ho
    have hsave := saveToWrite_eq hlen ho
    omega
  inBlock := accesses_inBlock h.inv

/-- The handle lies behind the end of a file that was truncated. -/
theorem the_bounds_hold_behind_the_end : InBounds offsetBehindEnd :=
  offsets_and_indices_stay_in_bounds offsetBehindEnd offsetBehindEnd_reachable

end tecnicofs.parte1
