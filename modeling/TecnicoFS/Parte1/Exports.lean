-- The copy to the file system outside, seen from this one: it opens, reads and closes,
-- and leaves no trace, with one exception.
import TecnicoFS.Parte1.FailedOpens
import TecnicoFS.Parte1.Names
import TecnicoFS.Parte1.Reads
import TecnicoFS.Parte1.RoundTrip
import TecnicoFS.Parte1.Sizes

open byte_memory block_map

namespace tecnicofs.parte1

/-! ## The loop -/

theorem tfsRead_slots {s : State} (h : Inv s) (fhandle : Int) (len : Nat) :
    (tfsRead s fhandle len).2.free_open_file_entries = s.free_open_file_entries := by
  rcases tfsRead_cases h fhandle len with ⟨_, hr⟩ | ⟨i, f, _, _, _, hr⟩ <;> rw [hr]
  split <;> rfl

theorem copyLoop_round {s : State} {fhandle : Int} (rounds : Nat)
    (hr : 0 < (tfsRead s fhandle BUFFER_SIZE).1.1) :
    copyLoop fhandle (rounds + 1) s =
      let r := tfsRead s fhandle BUFFER_SIZE
      let buffer := if r.1.1 < BUFFER_SIZE then r.1.2 ++ [0] else r.1.2
      let rest := copyLoop fhandle rounds r.2
      { rest with
        written := (fputs buffer).1 ++ rest.written
        overread := (fputs buffer).2 || rest.overread } := by
  simp only [copyLoop, hr, if_true]

theorem copyLoop_last {s : State} {fhandle : Int} (rounds : Nat)
    (hr : ¬ 0 < (tfsRead s fhandle BUFFER_SIZE).1.1) :
    copyLoop fhandle (rounds + 1) s =
      ⟨(tfsRead s fhandle BUFFER_SIZE).1.1, [], false, (tfsRead s fhandle BUFFER_SIZE).2⟩ := by
  simp only [copyLoop, hr, if_false]

theorem copyLoop_slots {s : State} (h : Inv s) (fhandle : Int) (rounds : Nat) :
    (copyLoop fhandle rounds s).state.free_open_file_entries = s.free_open_file_entries := by
  induction rounds generalizing s with
  | zero => rfl
  | succ rounds ih =>
    have hslots := tfsRead_slots h fhandle BUFFER_SIZE
    by_cases hr : 0 < (tfsRead s fhandle BUFFER_SIZE).1.1
    · rw [copyLoop_round rounds hr]
      exact (ih (h.tfsRead fhandle BUFFER_SIZE)).trans hslots
    · rw [copyLoop_last rounds hr]
      exact hslots

/-- The handle is open for reading on file `f`, at offset `o`. -/
structure ReadsAt (s : State) (i f o : Nat) : Prop where
  inv : Inv s
  get : getOpenFileEntry s i = some i
  entry : s.open_file_table i = ⟨f, o, false⟩

/-- One read of the loop, from inside the file: it fails, or moves on. -/
theorem ReadsAt.read {s : State} {i f o : Nat} (h : ReadsAt s i f o)
    (ho : o ≤ (s.disk.inode_table f).i_size) (len : Nat) :
    let n := min len ((s.disk.inode_table f).i_size - o)
    if room s.disk f - o < n then (tfsRead s i len).1.1 = -1
    else (tfsRead s i len).1.1 = n ∧ ReadsAt (tfsRead s i len).2 i f (o + n) := by
  have hin : (s.open_file_table i).of_inumber = f := by rw [h.entry]
  have hmode : (s.open_file_table i).isAppending = false := by rw [h.entry]
  have hinv := h.inv.tfsRead i len
  obtain ⟨hf, _⟩ := h.inv.open_on_file h.get hin
  rw [tfsRead_handle h.inv h.get hin hmode] at hinv ⊢
  rw [h.entry] at hinv ⊢
  simp only at hinv ⊢
  rw [toReadSave_inside len ho (h.inv.size_le f hf)] at hinv ⊢
  split
  · rfl
  · rename_i hfits
    rw [if_neg hfits] at hinv
    refine ⟨rfl, hinv, getOpenFileEntry_eq_some.mpr (getOpenFileEntry_eq_some.mp h.get), ?_⟩
    simp only [fillEntry, Function.update_self]

/-- From inside the file and its blocks the loop reads to the end, or fails, where the blocks end
before the file does. -/
theorem ReadsAt.copyLoop {s : State} {i f o rounds : Nat} (h : ReadsAt s i f o)
    (ho : o ≤ (s.disk.inode_table f).i_size) (hroom : o ≤ room s.disk f)
    (hrounds : (s.disk.inode_table f).i_size < o + rounds) :
    (copyLoop i rounds s).bytesRead < 0 ↔ room s.disk f < (s.disk.inode_table f).i_size := by
  induction rounds generalizing s o with
  | zero => omega
  | succ rounds ih =>
    have hread := h.read ho BUFFER_SIZE
    have hdisk := tfsRead_disk h.inv i BUFFER_SIZE
    simp only at hread
    split at hread
    · -- a read that goes behind the blocks
      have hneg : ¬ 0 < (tfsRead s i BUFFER_SIZE).1.1 := by omega
      rw [copyLoop_last rounds hneg]
      simp only
      omega
    · obtain ⟨hret, hnext⟩ := hread
      by_cases hr : 0 < (tfsRead s i BUFFER_SIZE).1.1
      · have hstep := ih hnext
        rw [hdisk] at hstep
        rw [copyLoop_round rounds hr]
        exact hstep (by omega) (by omega) (by omega)
      · -- the end of the file
        rw [copyLoop_last rounds hr]
        simp only [BUFFER_SIZE] at *
        omega

/-- One round for each byte, and one more, are enough: the loop has ended by then. -/
theorem ReadsAt.copyLoop_enough {s : State} {i f o rounds : Nat} (h : ReadsAt s i f o)
    (ho : o ≤ (s.disk.inode_table f).i_size)
    (hrounds : (s.disk.inode_table f).i_size < o + rounds) :
    parte1.copyLoop i (rounds + 1) s = parte1.copyLoop i rounds s := by
  induction rounds generalizing s o with
  | zero => omega
  | succ rounds ih =>
    have hread := h.read ho BUFFER_SIZE
    have hdisk := tfsRead_disk h.inv i BUFFER_SIZE
    by_cases hr : 0 < (tfsRead s i BUFFER_SIZE).1.1
    · rw [copyLoop_round (rounds + 1) hr, copyLoop_round rounds hr]
      simp only at hread
      split at hread
      · omega
      · obtain ⟨hret, hnext⟩ := hread
        have hstep := ih hnext
        rw [hdisk] at hstep
        simp only [hstep (by omega) (by omega)]
    · rw [copyLoop_last (rounds + 1) hr, copyLoop_last rounds hr]

/-! ## The open and the close of a copy -/

/-- The open of a copy changes nothing but the slot that it gets. -/
theorem tfsOpen_copy {s : State} (h : Inv s) {path : CString} {f : Nat}
    (hv : validPathname (some path) = true) (hl : tfsLookup s.disk path = f)
    (hf : FileInode s.disk f) :
    (NoSlot s ∧ tfsOpen s (some path) TFS_O_CREAT = (-1, s)) ∨
      ∃ i < MAX_OPEN_FILES, s.free_open_file_entries i = .FREE ∧
        tfsOpen s (some path) TFS_O_CREAT = ((i : Int), withHandle s i ⟨f, 0, false⟩) := by
  have hflag : ¬ hasFlag TFS_O_CREAT TFS_O_TRUNC = true := by decide
  have hdisk : afterTrunc s.disk TFS_O_CREAT f = s.disk := if_neg fun htrunc => hflag htrunc.1
  have hoff : initialOffset s.disk TFS_O_CREAT f = (0, false) := if_neg (by decide)
  have hr := tfsOpen_found h.disk TFS_O_CREAT hv hl hf
  rw [hdisk, hoff] at hr
  rw [hr]
  rcases addEntry_cases s ⟨f, 0, false⟩ with ⟨he, hno⟩ | ⟨i, hi, hfree, _, he⟩
  · exact Or.inl ⟨hno, he⟩
  · exact Or.inr ⟨i, hi, hfree, he⟩

theorem ReadsAt.opened {s : State} (h : Inv s) {f i : Nat} (hf : FileInode s.disk f)
    (hi : i < MAX_OPEN_FILES) : ReadsAt (withHandle s i ⟨f, 0, false⟩) i f 0 where
  inv := h.withHandle hf i (Nat.zero_le _) false
  get := getOpenFileEntry_eq_some.mpr ⟨rfl, hi, by simp only [withHandle, Function.update_self]⟩
  entry := by simp only [withHandle, Function.update_self]

/-- The close gives back the slot of the copy. -/
theorem tfsClose_copy {s t : State} {i : Nat} (hi : i < MAX_OPEN_FILES)
    (hfree : s.free_open_file_entries i = .FREE)
    (ht : t.free_open_file_entries = Function.update s.free_open_file_entries i .TAKEN) :
    (tfsClose t i).2.free_open_file_entries = s.free_open_file_entries := by
  rw [tfsClose_nat t hi, if_pos (by rw [ht, Function.update_self])]
  simp only [release, ht, Function.update_idem]
  rw [← hfree, Function.update_eq_self]

/-- A copy whose source is not there, or gets no slot. -/
theorem tfsCopy_refused {s : State} {path : CString} (destOpens : Bool)
    (hno : validPathname (some path) = false ∨ tfsLookup s.disk path = -1 ∨
      tfsOpen s (some path) TFS_O_CREAT = (-1, s)) :
    tfsCopyToExternalFs s (some path) destOpens = (⟨-1, none, false⟩, s) := by
  unfold tfsCopyToExternalFs
  simp only
  split
  · rfl
  · rename_i hfound
    rw [not_or] at hfound
    have ho := (hno.resolve_left hfound.1).resolve_left hfound.2
    simp only [ho]
    exact if_pos (by omega)

/-- A copy whose source was opened. -/
theorem tfsCopy_opened {s : State} {path : CString} {f i : Nat} (destOpens : Bool)
    (hv : validPathname (some path) = true) (hl : tfsLookup s.disk path = f)
    (ho : tfsOpen s (some path) TFS_O_CREAT = ((i : Int), withHandle s i ⟨f, 0, false⟩)) :
    tfsCopyToExternalFs s (some path) destOpens =
      let t := withHandle s i ⟨f, 0, false⟩
      let c := copyLoop i (MAX_FILE_SIZE + 1) t
      if destOpens = false then (⟨-1, none, false⟩, (tfsClose t i).2)
      else if c.bytesRead < 0 then (⟨-1, some c.written, c.overread⟩, c.state)
      else (⟨0, some c.written, c.overread⟩, (tfsClose c.state i).2) := by
  have hfound : ¬ (validPathname (some path) = false ∨ tfsLookup s.disk path = -1) := by
    rw [hv, hl]
    simp
  unfold tfsCopyToExternalFs
  simp only [hfound, if_false, ho]
  rw [if_neg (by omega)]

theorem tfsWrite_slots {s : State} (h : Inv s) (fhandle : Int) (buffer : List UInt8) :
    (tfsWrite s fhandle buffer).2.free_open_file_entries = s.free_open_file_entries := by
  rcases tfsWrite_cases h fhandle buffer with ⟨_, hr⟩ | ⟨i, f, _, _, _, hr⟩ <;> rw [hr]
  rfl

/-! ## What a copy leaves behind -/

/-- The same slots are taken, every file is as before, with its bytes, its size and its blocks, and
the same blocks are taken. -/
structure NoTrace (s s' : State) : Prop where
  slots : ∀ i < MAX_OPEN_FILES,
    s'.free_open_file_entries i = .TAKEN ↔ s.free_open_file_entries i = .TAKEN
  files : ∀ g, FileInode s.disk g → FileSame g s.disk s'.disk
  blocks : s'.disk.free_blocks = s.disk.free_blocks

/-- The copy gets to the end of the blocks of a file that is larger than they are. -/
def RunsOutOfBlocks (s : State) (source_path : Option CString) (destOpens : Bool) : Prop :=
  destOpens = true ∧ ¬ NoSlot s ∧ ∃ path, ∃ f : Nat, source_path = some path ∧
    validPathname (some path) = true ∧ tfsLookup s.disk path = f ∧
      room s.disk f < (s.disk.inode_table f).i_size

theorem NoTrace.of_eq {s s' : State} (hslots : s'.free_open_file_entries = s.free_open_file_entries)
    (hdisk : s'.disk = s.disk) : NoTrace s s' where
  slots := by simp only [hslots, implies_true]
  files := by
    intro g hg
    rw [hdisk]
    exact .refl hg
  blocks := congrArg Disk.free_blocks hdisk

/-- A copy whose source has a slot leaves no trace exactly if its loop does not fail. -/
theorem tfsCopy_noTrace {s : State} (h : Inv s) {path : CString} {f i : Nat} (destOpens : Bool)
    (hv : validPathname (some path) = true) (hl : tfsLookup s.disk path = f)
    (hf : FileInode s.disk f) (hi : i < MAX_OPEN_FILES)
    (hfree : s.free_open_file_entries i = .FREE)
    (ho : tfsOpen s (some path) TFS_O_CREAT = ((i : Int), withHandle s i ⟨f, 0, false⟩)) :
    NoTrace s (tfsCopyToExternalFs s (some path) destOpens).2 ↔
      ¬ (destOpens = true ∧ room s.disk f < (s.disk.inode_table f).i_size) := by
  have hat := ReadsAt.opened h hf hi
  have hslots := copyLoop_slots hat.inv i (MAX_FILE_SIZE + 1)
  have hdisk := copyLoop_disk hat.inv i (MAX_FILE_SIZE + 1)
  have hfails := hat.copyLoop (Nat.zero_le _) (Nat.zero_le _)
    (show _ < 0 + (MAX_FILE_SIZE + 1) by have := h.size_le f hf; simp only [withHandle]; omega)
  have hsame : (withHandle s i ⟨f, 0, false⟩).disk = s.disk := rfl
  rw [hsame] at hfails hdisk
  rw [tfsCopy_opened destOpens hv hl ho]
  simp only
  cases destOpens with
  | false =>
    simp only [if_true, Bool.false_eq_true, false_and, not_false_eq_true, iff_true]
    exact .of_eq (tfsClose_copy hi hfree rfl) (tfsClose_disk _ _)
  | true =>
    simp only [Bool.true_eq_false, if_false, true_and]
    by_cases hneg : (copyLoop i (MAX_FILE_SIZE + 1) (withHandle s i ⟨f, 0, false⟩)).bytesRead < 0
    · -- the read failed, and nobody closes the handle
      simp only [hneg, if_true, hfails.mp hneg, not_true_eq_false, iff_false]
      intro hno
      have htaken := (hno.slots i hi).mp (by rw [hslots]; simp only [withHandle, Function.update_self])
      rw [hfree] at htaken
      cases htaken
    · simp only [hneg, if_false, hfails.not.mp hneg, not_false_eq_true, iff_true]
      exact .of_eq (tfsClose_copy hi hfree hslots) ((tfsClose_disk _ _).trans hdisk)

/-- A copy leaves no trace in the file system, with one exception: where the blocks of the source
end before its size does, the read that fails leaves the handle open. -/
theorem a_copy_leaves_no_trace_unless_blocks_are_missing (s : State) (h : Reachable s)
    (source_path : Option CString) (destOpens : Bool) :
    NoTrace s (tfsCopyToExternalFs s source_path destOpens).2 ↔
      ¬ RunsOutOfBlocks s source_path destOpens := by
  have hsame : NoTrace s s := .of_eq rfl rfl
  cases source_path with
  | none =>
    refine iff_of_true hsame fun hout => ?_
    obtain ⟨_, _, path, f, hp, _⟩ := hout
    cases hp
  | some path =>
    by_cases hv : validPathname (some path) = false
    · rw [tfsCopy_refused destOpens (Or.inl hv)]
      refine iff_of_true hsame fun hout => ?_
      obtain ⟨_, _, q, f, hq, hvq, _⟩ := hout
      rw [← hq, hv] at hvq
      cases hvq
    rw [Bool.not_eq_false] at hv
    rcases tfsLookup_cases h.inv.disk path with hl | ⟨f, hl, hf⟩
    · rw [tfsCopy_refused destOpens (Or.inr (Or.inl hl))]
      refine iff_of_true hsame fun hout => ?_
      obtain ⟨_, _, q, f, hq, _, hlq, _⟩ := hout
      obtain rfl := Option.some.inj hq
      omega
    have hout : RunsOutOfBlocks s (some path) destOpens ↔
        destOpens = true ∧ ¬ NoSlot s ∧ room s.disk f < (s.disk.inode_table f).i_size := by
      refine and_congr_right fun _ => and_congr_right fun _ => ⟨?_, fun hlt => ?_⟩
      · rintro ⟨q, g, hq, _, hg, hlt⟩
        obtain rfl := Option.some.inj hq
        obtain rfl : g = f := by omega
        exact hlt
      · exact ⟨path, f, rfl, hv, hl, hlt⟩
    rw [hout]
    rcases tfsOpen_copy h.inv hv hl hf with ⟨hno, ho⟩ | ⟨i, hi, hfree, ho⟩
    · rw [tfsCopy_refused destOpens (Or.inr (Or.inr ho))]
      exact iff_of_true hsame fun hout => hout.2.1 hno
    · have hslot : ¬ NoSlot s := fun hno => hno i hi hfree
      simp only [hslot, not_false_eq_true, true_and]
      exact tfsCopy_noTrace h.inv destOpens hv hl hf hi hfree ho

theorem the_copy_of_one_byte_leaves_no_trace :
    NoTrace oneByteWritten (tfsCopyToExternalFs oneByteWritten (some pathF) true).2 := by
  apply (a_copy_leaves_no_trace_unless_blocks_are_missing oneByteWritten
    oneByteWritten_reachable (some pathF) true).mpr
  rintro ⟨_, _, path, f, hp, _, hl, hlt⟩
  obtain rfl := Option.some.inj hp
  obtain ⟨_, hone, hsize, hblocks⟩ := oneByteWritten_file
  obtain rfl : f = 1 := by omega
  unfold room BLOCK_SIZE at hlt
  omega

theorem filled_keeps {s : State} (h : Inv s) (is : List Nat) {path : CString} {f : Nat}
    (hl : tfsLookup s.disk path = f) :
    tfsLookup (is.foldl filled s).disk path = f ∧
      (is.foldl filled s).free_open_file_entries = s.free_open_file_entries := by
  induction is generalizing s with
  | nil => exact ⟨hl, rfl⟩
  | cons i is ih =>
    have hnext := ih (s := filled s i) (h.exec _) (exec_lookup h _ (by omega) hl)
    exact ⟨hnext.1, hnext.2.trans (tfsWrite_slots h _ _)⟩

/-- The file without blocks is still `/f`, and one more handle is free. -/
theorem sizeAboveBlocks_keeps :
    tfsLookup sizeAboveBlocks.disk pathF = (1 : Nat) ∧ ¬ NoSlot sizeAboveBlocks := by
  have hlook : tfsLookup fiveFiles.disk pathF = (1 : Nat) := by
    rw [fiveFiles, ← afterCalls]
    exact afterCalls_lookup oneByteWritten_reachable.inv _ oneByteWritten_file.2.1
  obtain ⟨_, _, _, hfree⟩ := fiveFiles_unwritten
  have hinv := fullDisk_spec.1.inv
  obtain ⟨hl, hslots⟩ := filled_keeps fiveFiles_reachable.inv [2, 3, 4, 5] hlook
  rw [← fullDisk] at hl hslots
  have hlast := exec_lookup hinv (.tfsWrite 0 [7]) (by omega) hl
  have hwritten := tfsWrite_slots hinv 0 [7]
  rw [← exec_tfsWrite, ← sizeAboveBlocks] at hwritten
  rw [← sizeAboveBlocks] at hlast
  refine ⟨hlast, fun hno => hno 6 (by decide) ?_⟩
  rw [hwritten, hslots]
  exact hfree

theorem room_lt_of_no_block {d : Disk} {f : Nat} (hb : (d.inode_table f).blocksAlloc = 0)
    (hs : (d.inode_table f).i_size = 1) : room d f < (d.inode_table f).i_size := by
  unfold room
  rw [hb, hs]
  decide

theorem a_copy_that_cannot_read_keeps_its_handle :
    Reachable sizeAboveBlocks ∧
      ¬ NoTrace sizeAboveBlocks (tfsCopyToExternalFs sizeAboveBlocks (some pathF) true).2 := by
  obtain ⟨hr, hfile, hblocks, hsize⟩ := sizeAboveBlocks_spec
  obtain ⟨hl, hslot⟩ := sizeAboveBlocks_keeps
  have hv : validPathname (some pathF) = true := by decide
  refine ⟨hr, ?_⟩
  rcases tfsOpen_copy hr.inv hv hl hfile with ⟨hno, _⟩ | ⟨i, hi, hfree, ho⟩
  · exact absurd hno hslot
  · have hlt := room_lt_of_no_block hblocks hsize
    exact fun hno => (tfsCopy_noTrace hr.inv true hv hl hfile hi hfree ho).mp hno ⟨rfl, hlt⟩

end tecnicofs.parte1
