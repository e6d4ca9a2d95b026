-- The open file table of the server: what each operation does to it, and what
-- happens to a read or a write through a handle that is not open.
import TecnicoFS.Parte2.Operations

open byte_memory

namespace tecnicofs.parte2

/-- The entry of the handle is taken. -/
def OpenHandle (s : State) (fhandle : Int) : Prop :=
  validFileHandle fhandle = true ∧ s.free_open_file_entries fhandle.toNat = .TAKEN

instance (s : State) (fhandle : Int) : Decidable (OpenHandle s fhandle) :=
  inferInstanceAs (Decidable (_ ∧ _))

/-- The state with a new open file entry in slot `i`. -/
def withHandle (s : State) (i : Nat) (e : OpenFileEntry) : State :=
  { s with
    free_open_file_entries := Function.update s.free_open_file_entries i .TAKEN
    open_file_table := Function.update s.open_file_table i e }

/-- The state after slot `i` was closed. -/
def withoutHandle (s : State) (i : Nat) : State :=
  { s with free_open_file_entries := Function.update s.free_open_file_entries i .FREE }

theorem validFileHandle_eq_true {fhandle : Int} :
    validFileHandle fhandle = true ↔ 0 ≤ fhandle ∧ fhandle < MAX_OPEN_FILES := by
  simp [validFileHandle]

theorem validInumber_nat {i : Nat} (h : i < INODE_TABLE_SIZE) : validInumber (i : Int) = true := by
  simp only [validInumber, decide_eq_true_eq]
  omega

/-! ## The table after each operation -/

theorem addToOpenFileTable_cases (s : State) (inumber : Int) (offset : Nat) :
    addToOpenFileTable s inumber offset = (-1, s) ∨
      ∃ i < MAX_OPEN_FILES, s.free_open_file_entries i = .FREE ∧
        addToOpenFileTable s inumber offset = ((i : Int), withHandle s i ⟨inumber, offset⟩) := by
  unfold addToOpenFileTable
  rcases hf : (List.range MAX_OPEN_FILES).find? fun i =>
    decide (s.free_open_file_entries i = .FREE) with _ | i
  · exact Or.inl rfl
  · obtain ⟨h1, h2, _⟩ := List.find?_range_eq_some.mp hf
    exact Or.inr ⟨i, List.mem_range.mp h2, by simpa using h1, rfl⟩

theorem tfsClose_cases (s : State) (fhandle : Int) :
    (¬ OpenHandle s fhandle ∧ tfsClose s fhandle = (.of (-1), s)) ∨
      ∃ i < MAX_OPEN_FILES, fhandle = i ∧ s.free_open_file_entries i = .TAKEN ∧
        tfsClose s fhandle =
          let openFiles := s.openFiles + if 0 < s.openFiles then -1 else 1
          (⟨0, [], .unlocks, decide (openFiles = -1)⟩, { withoutHandle s i with openFiles }) := by
  unfold tfsClose removeFromOpenFileTable
  by_cases hv : validFileHandle fhandle = false
  · refine Or.inl ⟨fun ho => ?_, by simp [hv]⟩
    rw [ho.1] at hv
    cases hv
  rw [Bool.not_eq_false] at hv
  by_cases ht : s.free_open_file_entries fhandle.toNat = .TAKEN
  · have := validFileHandle_eq_true.mp hv
    refine Or.inr ⟨fhandle.toNat, by omega, by omega, ht, ?_⟩
    simp only [hv, ht, Bool.true_eq_false, ne_eq, not_true_eq_false, or_self, if_false,
      zero_ne_neg_one, not_false_eq_true, if_true]
    rfl
  · exact Or.inl ⟨fun ho => ht ho.2, by simp [hv, ht]⟩

theorem openExisting_cases (s : State) (flags : BitVec 32) (inum : Int) :
    (∃ d, openExisting s flags inum = (-1, { s with disk := d })) ∨
      ∃ d, ∃ i < MAX_OPEN_FILES, ∃ offset, s.free_open_file_entries i = .FREE ∧
        validInumber inum = true ∧
        openExisting s flags inum = ((i : Int), withHandle { s with disk := d } i ⟨inum, offset⟩) := by
  unfold openExisting inodeGet
  by_cases hv : validInumber inum = true
  · simp only [hv, if_true]
    generalize (if hasFlag flags TFS_O_TRUNC = true then _ else (0, s.disk) : Int × Disk) = t
    split
    · exact Or.inl ⟨t.2, rfl⟩
    · rcases addToOpenFileTable_cases { s with disk := t.2 } inum
        (initialOffset t.2 flags inum.toNat) with hr | ⟨i, hi, hfree, hr⟩ <;> rw [hr]
      · exact Or.inl ⟨t.2, rfl⟩
      · exact Or.inr ⟨t.2, i, hi, _, hfree, trivial, rfl⟩
  · simp only [hv]
    exact Or.inl ⟨s.disk, rfl⟩

theorem inodeCreate_file_cases (d : Disk) :
    (inodeCreate d .T_FILE).1 = -1 ∨ validInumber (inodeCreate d .T_FILE).1 = true := by
  unfold inodeCreate
  rcases hf : (List.range INODE_TABLE_SIZE).find? fun i =>
    decide (d.freeinode_ts i = .FREE) with _ | i
  · exact Or.inl rfl
  · obtain ⟨_, h, _⟩ := List.find?_range_eq_some.mp hf
    exact Or.inr (validInumber_nat (List.mem_range.mp h))

theorem openNew_cases {s : State} {name : Option CString} {r : Int × State}
    (hr : openNew s name = some r) :
    (∃ d, r = (-1, { s with disk := d })) ∨
      ∃ d, ∃ i < MAX_OPEN_FILES, ∃ inum offset, s.free_open_file_entries i = .FREE ∧
        validInumber inum = true ∧
        r = ((i : Int), withHandle { s with disk := d } i ⟨inum, offset⟩) := by
  unfold openNew at hr
  have hc := inodeCreate_file_cases s.disk
  generalize inodeCreate s.disk .T_FILE = c at hr hc
  simp only at hr
  split at hr
  · cases hr
    exact Or.inl ⟨_, rfl⟩
  · rename_i hne
    have hv := hc.resolve_left hne
    obtain ⟨sub_name, _, rfl⟩ := Option.map_eq_some_iff.mp hr
    split
    · exact Or.inl ⟨_, rfl⟩
    · generalize (addDirEntry c.2 ROOT_DIR_INUM c.1 sub_name).2 = d
      rcases addToOpenFileTable_cases { s with disk := d } c.1 0 with hr | ⟨i, hi, hfree, hr⟩ <;>
        rw [hr]
      · exact Or.inl ⟨d, rfl⟩
      · exact Or.inr ⟨d, i, hi, c.1, 0, hfree, hv, rfl⟩

/-- A `tfs_open` fails and leaves the table as it was, or takes a free slot for an inode. -/
theorem tfsOpenUnsynchronized_cases {s : State} {name : Option CString} {flags : BitVec 32}
    {r : Int × State} (hr : tfsOpenUnsynchronized s name flags = some r) :
    (∃ d, r = (-1, { s with disk := d })) ∨
      ∃ d, ∃ i < MAX_OPEN_FILES, ∃ inum offset, s.free_open_file_entries i = .FREE ∧
        validInumber inum = true ∧
        r = ((i : Int), withHandle { s with disk := d } i ⟨inum, offset⟩) := by
  unfold tfsOpenUnsynchronized at hr
  simp only at hr
  split at hr
  · cases hr
    rcases openExisting_cases s flags (tfsLookupUnsynchronized s.disk name) with
      hd | ⟨d, i, hi, offset, hfree, hv, hd⟩
    · exact Or.inl hd
    · exact Or.inr ⟨d, i, hi, _, offset, hfree, hv, hd⟩
  · split at hr
    · exact openNew_cases hr
    · cases hr
      exact Or.inl ⟨s.disk, rfl⟩

/-- A `tfs_open` is refused because a shutdown is pending, fails, or takes a free slot. -/
theorem tfsOpen_cases {s : State} {name : Option CString} {flags : BitVec 32}
    {r : Answer × State} (hr : tfsOpen s name flags = some r) :
    (s.openFiles < 0 ∧ r = (⟨-1, [], .keeps, false⟩, s)) ∨
    (0 ≤ s.openFiles ∧ ∃ d, r = (.of (-1), { s with disk := d })) ∨
    (0 ≤ s.openFiles ∧ ∃ d, ∃ i < MAX_OPEN_FILES, ∃ inum offset,
      s.free_open_file_entries i = .FREE ∧ validInumber inum = true ∧
      r = (.of i, { withHandle { s with disk := d } i ⟨inum, offset⟩ with
        openFiles := s.openFiles + 1 })) := by
  unfold tfsOpen at hr
  split at hr
  · rename_i h
    cases hr
    exact Or.inl ⟨h, rfl⟩
  · rename_i h
    have h0 : 0 ≤ s.openFiles := by omega
    obtain ⟨q, hq, rfl⟩ := Option.map_eq_some_iff.mp hr
    rcases tfsOpenUnsynchronized_cases hq with ⟨d, rfl⟩ | ⟨d, i, hi, inum, offset, hfree, hv, rfl⟩
    · exact Or.inr (Or.inl ⟨h0, d, rfl⟩)
    · refine Or.inr (Or.inr ⟨h0, d, i, hi, inum, offset, hfree, hv, ?_⟩)
      have : (i : Int) ≠ -1 := by omega
      simp only [this, ne_eq, not_false_eq_true, if_true]
      rfl

/-- A change of the disk and of the offset in one slot. -/
def withOffset (s : State) (d : Disk) (i o : Nat) : State :=
  { s with
    disk := d
    open_file_table := Function.update s.open_file_table i
      { (s.open_file_table i) with of_offset := o } }

theorem withOffset_self (s : State) (d : Disk) :
    withOffset s d 0 (s.open_file_table 0).of_offset = { s with disk := d } := by
  simp [withOffset]

theorem withOffset_inumber (s : State) (d : Disk) (i o j : Nat) :
    ((withOffset s d i o).open_file_table j).of_inumber = (s.open_file_table j).of_inumber := by
  unfold withOffset
  by_cases hj : j = i
  · subst hj
    simp
  · simp [Function.update_of_ne hj]

/-- A write changes the disk and the offset of one slot, at most. -/
theorem tfsWrite_cases {s : State} {fhandle : Int} {buffer : List UInt8} {r : Answer × State}
    (hr : tfsWrite s fhandle buffer = some r) :
    ∃ ret d i o, r = (.of ret, withOffset s d i o) := by
  obtain ⟨q, hq, rfl⟩ := Option.map_eq_some_iff.mp hr
  suffices ∃ d i o, q.2 = withOffset s d i o by
    obtain ⟨d, i, o, he⟩ := this
    exact ⟨q.1, d, i, o, by rw [he]⟩
  unfold tfsWriteUnsynchronized at hq
  simp only at hq
  split at hq
  · cases hq
    exact ⟨_, _, _, (withOffset_self s s.disk).symm⟩
  · split at hq
    · cases hq
      exact ⟨_, _, _, (withOffset_self s s.disk).symm⟩
    · split at hq
      · split at hq
        · cases hq
          exact ⟨_, _, _, (withOffset_self s _).symm⟩
        · obtain ⟨m, _, rfl⟩ := Option.map_eq_some_iff.mp hq
          exact ⟨_, _, _, rfl⟩
      · cases hq
        exact ⟨_, _, _, (withOffset_self s s.disk).symm⟩

/-- A read changes the offset of one slot, at most. -/
theorem tfsRead_cases {s : State} {fhandle : Int} {len : Nat} {r : Answer × State}
    (hr : tfsRead s fhandle len = some r) :
    ∃ ret bytes i o, r = (⟨ret, bytes, .unlocks, false⟩, withOffset s s.disk i o) := by
  obtain ⟨q, hq, rfl⟩ := Option.map_eq_some_iff.mp hr
  suffices ∃ i o, q.2 = withOffset s s.disk i o by
    obtain ⟨i, o, he⟩ := this
    exact ⟨q.1.1, q.1.2, i, o, by rw [he]⟩
  unfold tfsReadUnsynchronized at hq
  simp only at hq
  split at hq
  · cases hq
    exact ⟨_, _, (withOffset_self s s.disk).symm⟩
  · split at hq
    · cases hq
      exact ⟨_, _, (withOffset_self s s.disk).symm⟩
    · split at hq
      · split at hq
        · cases hq
          exact ⟨_, _, (withOffset_self s s.disk).symm⟩
        · obtain ⟨bytes, _, rfl⟩ := Option.map_eq_some_iff.mp hq
          exact ⟨_, _, rfl⟩
      · cases hq
        exact ⟨_, _, (withOffset_self s s.disk).symm⟩

/-! ## Dead handles -/

theorem EntriesNamed.withHandle {s : State} (h : EntriesNamed s) (i : Nat) {inum : Int}
    (hv : validInumber inum = true) (offset : Nat) :
    EntriesNamed (withHandle s i ⟨inum, offset⟩) := by
  intro j hj
  by_cases hji : j = i
  · subst hji
    simpa [parte2.withHandle] using hv
  · simpa [parte2.withHandle, Function.update_of_ne hji] using h j hj

theorem EntriesNamed.withOffset {s : State} (h : EntriesNamed s) (d : Disk) (i o : Nat) :
    EntriesNamed (withOffset s d i o) := fun j hj => by
  rw [withOffset_inumber]
  exact h j hj

theorem EntriesNamed.exec {s : State} {op : Op} {r : Answer × State} (h : EntriesNamed s)
    (hr : exec s op = some r) : EntriesNamed r.2 := by
  cases op with
  | tfsLookup name =>
    cases hr
    exact h
  | tfsOpen name flags =>
    rcases tfsOpen_cases hr with ⟨_, rfl⟩ | ⟨_, d, rfl⟩ |
      ⟨_, d, i, _, inum, offset, _, hv, rfl⟩
    · exact h
    · exact h
    · exact EntriesNamed.withHandle (s := { s with disk := d }) h i hv offset
  | tfsClose fhandle =>
    cases hr
    rcases tfsClose_cases s fhandle with ⟨_, he⟩ | ⟨i, _, _, _, he⟩ <;> rw [he]
    · exact h
    · exact h
  | tfsRead fhandle len =>
    obtain ⟨_, _, i, o, rfl⟩ := tfsRead_cases hr
    exact h.withOffset _ i o
  | tfsWrite fhandle buffer =>
    obtain ⟨_, d, i, o, rfl⟩ := tfsWrite_cases hr
    exact h.withOffset d i o
  | tfsDestroyAfterAllClosed =>
    cases hr
    exact h

theorem tfsInit_table (s : State) : (tfsInit s).2.open_file_table = s.open_file_table := by
  simp only [tfsInit, stateInit]

theorem Reachable.entriesNamed {s : State} (h : Reachable s) : EntriesNamed s := by
  refine h.invariant ?_ fun s op s' hs he => ?_
  · rintro s ⟨raw, hraw, rfl⟩
    unfold EntriesNamed
    rw [tfsInit_table]
    exact hraw
  · obtain ⟨r, hr, rfl⟩ := Option.map_eq_some_iff.mp he
    exact hs.exec hr

/-- A read of no bytes is not refused when the entry names an inode, taken or not. -/
theorem tfsRead_zero {s : State} {fhandle : Int} (h : EntriesNamed s)
    (hv : validFileHandle fhandle = true) : tfsRead s fhandle 0 = some (.of 0, s) := by
  have hr := validFileHandle_eq_true.mp hv
  have hnamed := h fhandle.toNat (by omega)
  have hzero : ∀ size offset, bytesToRead size offset 0 = 0 := fun size offset => by
    unfold bytesToRead
    split <;> omega
  unfold tfsRead tfsReadUnsynchronized getOpenFileEntry inodeGet
  simp only [hv, hnamed, hzero, Bool.true_eq_false, if_false, if_true, lt_irrefl, Option.map_some]
  rfl

/-- All reads and writes through a handle are refused, with -1 and no change, exactly when the
handle is out of the range of the table. `get_open_file_entry` looks at nothing else, so a handle
in the range that was never opened, or was closed, is not refused. -/
theorem dead_handles_are_refused_out_of_range {s : State} (hs : Reachable s) (fhandle : Int) :
    ((∀ len, tfsRead s fhandle len = some (.of (-1), s)) ∧
      ∀ buffer, tfsWrite s fhandle buffer = some (.of (-1), s)) ↔
    ¬ (0 ≤ fhandle ∧ fhandle < MAX_OPEN_FILES) := by
  rw [← validFileHandle_eq_true, Bool.not_eq_true]
  constructor
  · rintro ⟨hread, _⟩
    by_contra hv
    rw [Bool.not_eq_false] at hv
    have h0 := tfsRead_zero hs.entriesNamed hv
    rw [hread 0] at h0
    simp at h0
  · intro hv
    constructor
    · intro len
      simp [tfsRead, tfsReadUnsynchronized, getOpenFileEntry, hv]
    · intro buffer
      simp [tfsWrite, tfsWriteUnsynchronized, getOpenFileEntry, hv]

def pathA : CString := ⟨[47, 97], by decide⟩
def pathB : CString := ⟨[47, 98], by decide⟩

/-- The state in which the server starts. -/
def firstState : State := (tfsInit zeroed).2

theorem zeroed_entriesNamed : EntriesNamed zeroed := fun _ _ => rfl

theorem firstState_initial : Initial firstState := ⟨zeroed, zeroed_entriesNamed, rfl⟩

theorem handle_twenty_is_refused : Reachable firstState ∧
    tfsWrite firstState 20 [7] = some (.of (-1), firstState) :=
  have hs : Reachable firstState := .start firstState_initial
  ⟨hs, ((dead_handles_are_refused_out_of_range hs 20).mpr (by decide)).2 [7]⟩

/-- Handle 0 was never opened, and a write through it changes the first byte of the block of the
root directory. -/
theorem a_write_through_a_dead_handle :
    Reachable firstState ∧ ¬ OpenHandle firstState 0 ∧
      (firstState.disk.inode_table ROOT_DIR_INUM).i_data_block = 0 ∧
      firstState.disk.fs_data 0 = 0 ∧
      (tfsWrite firstState 0 [7]).map (fun r => (r.1.ret, r.2.disk.fs_data 0)) = some (1, 7) := by
  refine ⟨.start firstState_initial, fun h => absurd h.2 (by decide), ?_⟩
  decide +kernel

end tecnicofs.parte2
