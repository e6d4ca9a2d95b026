-- The opens and lookups of short names, step by step: what a thread knows at each place of its
-- call, what its next step does to the directory, and what it leaves to the other threads.
import TecnicoFS.Parte1.LockOrder
import TecnicoFS.Parte1.NewEntries

open byte_memory lock_order

namespace tecnicofs.parte1

/-! ## The calls -/

/-- The calls of the threads, with names that an entry has room for. -/
inductive CreationCall
  | tfsOpen (path : CString) (flags : BitVec 32) (short : ShortPath path)
  | tfsLookup (path : CString) (short : ShortPath path)

def CreationCall.call : CreationCall → ThreadCall
  | .tfsOpen path flags _ => .op (.tfsOpen (some path) flags)
  | .tfsLookup path _ => .tfsLookup path

/-- The operations, for these calls only. -/
def creations : Program Lock State LockPlace CreationCall := ⟨LockPlace.code, fun c => entry c.call⟩

theorem creations_ordered : Ordered creations LockPlace.held Lock.rank where
  outside := operations_ordered.outside
  entry := fun c => operations_ordered.entry c.call
  lock := operations_ordered.lock
  unlock := operations_ordered.unlock
  run := operations_ordered.run

/-- The path of an open or of a lookup. -/
def ThreadCall.path : ThreadCall → Option CString
  | .op (.tfsOpen name _) => name
  | .op _ => none
  | .tfsLookup path => some path

def ThreadCall.isLookup : ThreadCall → Bool
  | .op _ => false
  | .tfsLookup _ => true

/-- The inode that an answer refers to: a lookup gives its number, an open a handle for it. -/
def ThreadCall.inode (call : ThreadCall) (s : State) (a : Answer) : Int :=
  if call.isLookup then a.ret else (s.open_file_table a.ret.toNat).of_inumber

/-! ## What is known at each place -/

/-- The thread is under `newFileMutex`. -/
def OpPlace.Creating (p : OpPlace) : Prop := (Lock.newFileMutex, Mode.exclusive) ∈ p.held

/-- The entry whose terminator the thread is about to store. -/
def OpPlace.ending : OpPlace → Option Nat
  | .storeEnd _ _ i => some i
  | .unlock _ _ next => next.ending
  | _ => none

/-- The slot of the open file table that an open has claimed, or has returned. -/
def OpPlace.slot : OpPlace → Option Nat
  | .fillLock i _ => some i
  | .fillRun i _ => some i
  | .unlock _ _ next => next.slot
  | .ret a => if 0 ≤ a.ret then some a.ret.toNat else none
  | _ => none

/-- The slot of a call at `p`. A lookup has none. -/
def ThreadCall.slot (call : ThreadCall) (p : OpPlace) : Option Nat :=
  if call.isLookup then none else p.slot

def LookupUse.creates : LookupUse → Bool
  | .create _ => true
  | _ => false

/-- Nobody else holds the name, and the number is of a new file that is not listed. -/
structure NewFile (d : Disk) (path : CString) (inum : Int) : Prop where
  name : NameFree d path fun _ => False
  unlisted : ∃ f : Nat, inum = f ∧ Unlisted d f

/-- What is known at a place of a call with this path. The places of other calls do not occur. -/
def OpPlace.Ok (s : State) (call : ThreadCall) (path : CString) : OpPlace → Prop
  | .find p use => p = path ∧ (call.isLookup = true ↔ use = .answer)
  | .scan p dir_entry i use =>
    p = path ∧ (call.isLookup = true ↔ use = .answer) ∧ dir_entry = rootAddr s.disk ∧
      (use.creates = true → NameFree s.disk path fun k => i ≤ k)
  | .openCheck name _ => call.isLookup = false ∧ name = some path
  | .createLock p _ => call.isLookup = false ∧ p = path
  | .newInode p => call.isLookup = false ∧ p = path ∧ NameFree s.disk path fun _ => False
  | .addEntry p inum => call.isLookup = false ∧ p = path ∧ NewFile s.disk path inum
  | .storeName p inum dir_entry i =>
    call.isLookup = false ∧ p = path ∧ NewFile s.disk path inum ∧ dir_entry = rootAddr s.disk ∧
      i < MAX_DIR_ENTRIES ∧ entryInode s.disk i = -1
  | .storeInumber inum dir_entry i =>
    call.isLookup = false ∧ NewFile s.disk path inum ∧ dir_entry = rootAddr s.disk ∧
      i < MAX_DIR_ENTRIES ∧ entryInode s.disk i = -1 ∧ Copied s.disk path i
  | .storeEnd inum dir_entry i =>
    call.isLookup = false ∧ dir_entry = rootAddr s.disk ∧ Live s.disk i ∧
      entryInode s.disk i = inum ∧ Copied s.disk path i ∧ NameFree s.disk path fun k => k = i
  | .undo inum => call.isLookup = false ∧ ∃ f : Nat, inum = f ∧ Unlisted s.disk f
  | .truncLock _ inum _ => call.isLookup = false ∧ Known s.disk path.skip.chars inum
  | .truncRun _ inum _ => call.isLookup = false ∧ Known s.disk path.skip.chars inum
  | .openSize inum _ => call.isLookup = false ∧ Known s.disk path.skip.chars inum
  | .claimLock e => call.isLookup = false ∧ Known s.disk path.skip.chars e.of_inumber
  | .claimRun e => call.isLookup = false ∧ Known s.disk path.skip.chars e.of_inumber
  | .fillLock _ e => call.isLookup = false ∧ Known s.disk path.skip.chars e.of_inumber
  | .fillRun _ e => call.isLookup = false ∧ Known s.disk path.skip.chars e.of_inumber
  | .unlock _ _ next => next.Ok s call path
  | .ret a => 0 ≤ a.ret → Known s.disk path.skip.chars (call.inode s a)
  | _ => False

/-! ## The directory and the table between the steps -/

/-- What another thread may do while this one stands at `p`: the known names stay, the slot of `p`
stays, and the whole directory does if `p` is under `newFileMutex`. -/
structure Respects (s s' : State) (call : ThreadCall) (p : OpPlace) : Prop where
  grows : Grows s.disk s'.disk
  root : rootAddr s'.disk = rootAddr s.disk
  table : ∀ i, call.slot p = some i → s'.open_file_table i = s.open_file_table i
  creating : p.Creating → FilesSame s.disk s'.disk ∧ DirSame s.disk s'.disk

theorem NameFree.same {d d' : Disk} {path : CString} {e : Nat → Prop} (h : NameFree d path e)
    (hd : DirSame d d') : NameFree d' path e := by
  intro k hk he
  rw [hd.entryName hk.1]
  exact h k (hd.live.mp hk) he

theorem Unlisted.same {d d' : Disk} {f : Nat} (h : Unlisted d f) (hf : FilesSame d d')
    (hd : DirSame d d') : Unlisted d' f := by
  refine ⟨(hf.fileInode f).mpr h.1, fun k hk => ?_⟩
  have hi : entryInode d' k = entryInode d k := hd.inumber hk.1
  rw [hi]
  exact h.2 k (hd.live.mp hk)

theorem NewFile.same {d d' : Disk} {path : CString} {inum : Int} (h : NewFile d path inum)
    (hf : FilesSame d d') (hd : DirSame d d') : NewFile d' path inum := by
  obtain ⟨f, he, hu⟩ := h.unlisted
  exact ⟨h.name.same hd, f, he, hu.same hf hd⟩

theorem Copied.same {d d' : Disk} {path : CString} {k : Nat} (h : Copied d path k)
    (hd : DirSame d d') (hk : k < MAX_DIR_ENTRIES) : Copied d' path k := by
  obtain ⟨b, hb⟩ := h
  refine ⟨b, ?_⟩
  rw [hd.dName hk]
  exact hb

/-- What an answer refers to does not change. -/
theorem Respects.inode {s s' : State} {call : ThreadCall} {a : Answer}
    (h : Respects s s' call (.ret a)) (ha : 0 ≤ a.ret) : call.inode s' a = call.inode s a := by
  unfold ThreadCall.inode
  split
  · rfl
  · rename_i hl
    rw [h.table a.ret.toNat (by simp [ThreadCall.slot, hl, OpPlace.slot, ha])]

/-- What is known at the place of one thread survives the steps of the others. -/
theorem OpPlace.Ok.kept {s s' : State} {call : ThreadCall} {path : CString} (hs : ShortPath path)
    {p : OpPlace} (h : p.Ok s call path) (hr : Respects s s' call p) : p.Ok s' call path := by
  have hknown : ∀ inum, Known s.disk path.skip.chars inum → Known s'.disk path.skip.chars inum :=
    fun inum hk => hr.grows _ _ hs.length_lt hk
  induction p with
  | find p use => exact h
  | scan p dir_entry i use =>
    obtain ⟨h1, h2, hbase, hfree⟩ := h
    refine ⟨h1, h2, hbase.trans hr.root.symm, fun hc => ?_⟩
    cases use with
    | create flags => exact (hfree hc).same (hr.creating List.mem_cons_self).2
    | _ => cases hc
  | openCheck name flags => exact h
  | createLock p flags => exact h
  | newInode p =>
    obtain ⟨_, hd⟩ := hr.creating List.mem_cons_self
    exact ⟨h.1, h.2.1, h.2.2.same hd⟩
  | addEntry p inum =>
    obtain ⟨hf, hd⟩ := hr.creating List.mem_cons_self
    exact ⟨h.1, h.2.1, h.2.2.same hf hd⟩
  | storeName p inum dir_entry i =>
    obtain ⟨hf, hd⟩ := hr.creating List.mem_cons_self
    obtain ⟨h1, h2, hnew, hbase, hi, hempty⟩ := h
    exact ⟨h1, h2, hnew.same hf hd, hbase.trans hr.root.symm, hi, (hd.inumber hi).trans hempty⟩
  | storeInumber inum dir_entry i =>
    obtain ⟨hf, hd⟩ := hr.creating List.mem_cons_self
    obtain ⟨h1, hnew, hbase, hi, hempty, hcopied⟩ := h
    exact ⟨h1, hnew.same hf hd, hbase.trans hr.root.symm, hi, (hd.inumber hi).trans hempty,
      hcopied.same hd hi⟩
  | storeEnd inum dir_entry i =>
    obtain ⟨hf, hd⟩ := hr.creating List.mem_cons_self
    obtain ⟨h1, hbase, hlive, hi, hcopied, hfree⟩ := h
    exact ⟨h1, hbase.trans hr.root.symm, hd.live.mpr hlive, (hd.inumber hlive.1).trans hi,
      hcopied.same hd hlive.1, hfree.same hd⟩
  | undo inum =>
    obtain ⟨hf, hd⟩ := hr.creating List.mem_cons_self
    obtain ⟨h1, f, he, hu⟩ := h
    exact ⟨h1, f, he, hu.same hf hd⟩
  | unlock l m next ih =>
    exact ih h ⟨hr.grows, hr.root, hr.table, fun hc => hr.creating (List.mem_cons_of_mem _ hc)⟩
  | ret a =>
    intro ha
    rw [hr.inode ha]
    exact hknown _ (h ha)
  | truncLock flags inum inode => exact ⟨h.1, hknown _ h.2⟩
  | truncRun flags inum inode => exact ⟨h.1, hknown _ h.2⟩
  | openSize inum inode => exact ⟨h.1, hknown _ h.2⟩
  | claimLock e => exact ⟨h.1, hknown _ h.2⟩
  | claimRun e => exact ⟨h.1, hknown _ h.2⟩
  | fillLock i e => exact ⟨h.1, hknown _ h.2⟩
  | fillRun i e => exact ⟨h.1, hknown _ h.2⟩
  | _ => exact h.elim

/-! ## The steps of a thread -/

/-- What a step of a thread does: it keeps what is known, stays out of the directory unless it is
under `newFileMutex`, and takes a free slot at most. -/
structure Effect (s s' : State) (call : ThreadCall) (path : CString) (p q : OpPlace) : Prop where
  ok : q.Ok s' call path
  grows : Grows s.disk s'.disk
  root : rootAddr s'.disk = rootAddr s.disk
  quiet : ¬ p.Creating → FilesSame s.disk s'.disk ∧ DirSame s.disk s'.disk
  orderly : p.Creating → Orderly s'.disk fun k => q.ending = some k
  ending : ∀ k, q.ending = some k → p.Creating
  table : ∀ i, call.slot p ≠ some i → s'.open_file_table i = s.open_file_table i
  slots : ∀ i, call.slot q = some i → call.slot p = some i ∨ s.free_open_file_entries i = .FREE
  taken : ∀ i, s.free_open_file_entries i = .TAKEN ∨ call.slot q = some i →
    s'.free_open_file_entries i = .TAKEN

theorem OpPlace.creating_of_ending {p : OpPlace} {k : Nat} (h : p.ending = some k) :
    p.Creating := by
  induction p with
  | storeEnd inum dir_entry i => exact List.mem_cons_self
  | unlock l m next ih => exact List.mem_cons_of_mem _ (ih h)
  | _ => cases h

section
variable {s : State} {call : ThreadCall} {path : CString} {p q : OpPlace} {ending : Nat → Prop}

theorem ThreadCall.slot_eq (hcall : call.isLookup = false) (p : OpPlace) :
    call.slot p = p.slot := by
  unfold slot
  rw [hcall]
  rfl

theorem ThreadCall.slot_none (hcall : call.isLookup = false) (hp : p.slot = none) :
    call.slot p = none := (slot_eq hcall p).trans hp

/-- A step on the disk alone, under `newFileMutex`. -/
theorem Effect.of_disk {d : Disk} (hq : q.Ok { s with disk := d } call path)
    (hc : p.Creating) (hgrows : Grows s.disk d) (hroot : rootAddr d = rootAddr s.disk)
    (hd : Orderly d fun k => q.ending = some k) (hqs : call.slot q = none) :
    Effect s { s with disk := d } call path p q where
  ok := hq
  grows := hgrows
  root := hroot
  quiet := fun hno => absurd hc hno
  orderly := fun _ => hd
  ending := fun _ _ => hc
  table := fun _ _ => rfl
  slots := fun i hi => by simp [hqs] at hi
  taken := fun i hi => hi.elim id fun h => by simp [hqs] at h

/-- A step on the open file table alone. -/
theorem Effect.of_table {s' : State} (hdisk : s'.disk = s.disk) (hno : ¬ p.Creating)
    (hq : q.Ok s' call path) (hend : q.ending = none)
    (htable : ∀ i, call.slot p ≠ some i → s'.open_file_table i = s.open_file_table i)
    (hslots : ∀ i, call.slot q = some i →
      call.slot p = some i ∨ s.free_open_file_entries i = .FREE)
    (htaken : ∀ i, s.free_open_file_entries i = .TAKEN ∨ call.slot q = some i →
      s'.free_open_file_entries i = .TAKEN) : Effect s s' call path p q where
  ok := hq
  grows := by
    rw [hdisk]
    exact .refl _
  root := by rw [hdisk]
  quiet := fun _ => by
    rw [hdisk]
    exact ⟨⟨rfl, fun _ => rfl⟩, rfl, fun _ _ => rfl⟩
  orderly := fun hc => absurd hc hno
  ending := fun k hk => by simp [hend] at hk
  table := htable
  slots := hslots
  taken := htaken

/-- A step that changes nothing but the place. -/
theorem Effect.of_same (ho : Orderly s.disk ending)
    (he : p.Creating → ∀ k, ending k → p.ending = some k)
    (hslot : ∀ i, call.slot p = some i → s.free_open_file_entries i = .TAKEN)
    (hq : q.Ok s call path) (hend : q.ending = p.ending)
    (hqs : ∀ i, call.slot q = some i → call.slot p = some i) : Effect s s call path p q where
  ok := hq
  grows := .refl _
  root := rfl
  quiet := fun _ => ⟨⟨rfl, fun _ => rfl⟩, rfl, fun _ _ => rfl⟩
  orderly := fun hc => ho.mono fun k hk => hend.trans (he hc k hk)
  ending := fun _ hk => OpPlace.creating_of_ending (hend ▸ hk)
  table := fun _ _ => rfl
  slots := fun i hi => Or.inl (hqs i hi)
  taken := fun i hi => hi.elim id fun h => hslot i (hqs i h)

/-- A step that changes nothing but the place, in a call that has no slot behind it. -/
theorem Effect.of_same_none (ho : Orderly s.disk ending)
    (he : p.Creating → ∀ k, ending k → p.ending = some k)
    (hslot : ∀ i, call.slot p = some i → s.free_open_file_entries i = .TAKEN)
    (hq : q.Ok s call path) (hend : q.ending = p.ending) (hqs : call.slot q = none) :
    Effect s s call path p q :=
  .of_same ho he hslot hq hend fun i hi => by simp [hqs] at hi

/-! ## Lookups -/

theorem not_lookup {use : LookupUse} (hu : call.isLookup = true ↔ use = .answer)
    (hne : use ≠ .answer) : call.isLookup = false := by
  rw [← Bool.not_eq_true, hu]
  exact hne

theorem openExisting_ok (hcall : call.isLookup = false) {inum : Int} (flags : BitVec 32)
    (hk : Known s.disk path.skip.chars inum) : (openExisting flags inum).Ok s call path := by
  unfold openExisting
  split
  · exact fun h => absurd h (by decide)
  · split_ifs <;> exact ⟨hcall, hk⟩

theorem openExisting_plain (flags : BitVec 32) (inum : Int) :
    (openExisting flags inum).slot = none ∧ (openExisting flags inum).ending = none := by
  unfold openExisting
  split
  · exact ⟨rfl, rfl⟩
  · split_ifs <;> exact ⟨rfl, rfl⟩

theorem looked_ok {use : LookupUse} (hu : call.isLookup = true ↔ use = .answer) {inum : Int}
    (hk : 0 ≤ inum → Known s.disk path.skip.chars inum)
    (hfree : use.creates = true → ¬ 0 ≤ inum → NameFree s.disk path fun _ => False) :
    (looked path inum use).Ok s call path := by
  cases use with
  | answer =>
    intro h0
    unfold ThreadCall.inode
    rw [if_pos (hu.mpr rfl)]
    exact hk h0
  | «open» flags =>
    have hcall := not_lookup hu (by simp)
    simp only [looked]
    split_ifs with h0
    · exact openExisting_ok hcall flags (hk h0)
    · exact ⟨hcall, rfl⟩
    · exact fun h => absurd h (by decide)
  | create flags =>
    have hcall := not_lookup hu (by simp)
    simp only [looked]
    split_ifs with h0
    · exact openExisting_ok hcall flags (hk h0)
    · exact ⟨hcall, rfl, hfree rfl h0⟩

theorem looked_plain {use : LookupUse} (hu : call.isLookup = true ↔ use = .answer) (inum : Int) :
    call.slot (looked path inum use) = none ∧ (looked path inum use).ending = none := by
  cases use with
  | answer =>
    unfold ThreadCall.slot
    rw [if_pos (hu.mpr rfl)]
    exact ⟨rfl, rfl⟩
  | «open» flags =>
    rw [ThreadCall.slot_eq (not_lookup hu (by simp))]
    simp only [looked]
    split_ifs
    · exact openExisting_plain flags inum
    · exact ⟨rfl, rfl⟩
    · exact ⟨rfl, rfl⟩
  | create flags =>
    rw [ThreadCall.slot_eq (not_lookup hu (by simp))]
    simp only [looked]
    split_ifs
    · exact openExisting_plain flags inum
    · exact ⟨rfl, rfl⟩

/-- A lookup starts to scan: the root directory is there. -/
theorem Orderly.findRun (ho : Orderly s.disk ending) (path : CString) (use : LookupUse) :
    findRun s.disk path use = .scan path (rootAddr s.disk) 0 use := by
  have hv : validInumber (ROOT_DIR_INUM : Nat) = true := by decide
  have hblock : dataBlockGet ((s.disk.inode_table ROOT_DIR_INUM).i_data_block 0) =
      some (rootAddr s.disk) := ho.root_block
  unfold parte1.findRun
  rw [if_neg (by simp only [hv, ho.root_dir]; decide), hblock]

theorem scanRun_ok (hs : ShortPath path) (ho : Orderly s.disk ending) {use : LookupUse} {i : Nat}
    (h : (OpPlace.scan path (rootAddr s.disk) i use).Ok s call path) :
    (scanRun s.disk path (rootAddr s.disk) i use).Ok s call path := by
  obtain ⟨_, hu, _, hfree⟩ := h
  unfold scanRun
  split_ifs with hi hm
  · have hknown := ho.known_of_match hs hi hm
    refine looked_ok hu (fun _ => hknown) fun _ hneg => ?_
    obtain ⟨_, _, _, _, f, hf, _⟩ := hknown
    exact absurd (by omega) hneg
  · -- one entry more that does not hold the name
    refine ⟨rfl, hu, rfl, fun hc k hk hlt => ?_⟩
    by_cases hki : k = i
    · subst hki
      exact fun hname => hm ((entryMatches_iff hk hs).mpr hname)
    · exact hfree hc k hk (by omega)
  · refine looked_ok hu (fun h0 => absurd h0 not_zero_le_neg_one) fun hc _ k hk _ => ?_
    have hlt := hk.1
    exact hfree hc k hk (by omega)

theorem scanRun_plain (d : Disk) (dir_entry i : Nat) {use : LookupUse}
    (hu : call.isLookup = true ↔ use = .answer) :
    call.slot (scanRun d path dir_entry i use) = none ∧
      (scanRun d path dir_entry i use).ending = none := by
  unfold scanRun
  split_ifs
  · exact looked_plain hu _
  · unfold ThreadCall.slot
    split_ifs <;> exact ⟨rfl, rfl⟩
  · exact looked_plain hu _

/-! ## The section under `newFileMutex` -/

theorem newInode_effect (ho : Orderly s.disk fun k => OpPlace.ending (.newInode path) = some k)
    (h : (OpPlace.newInode path).Ok s call path) :
    Effect s (newInodeRun s path).2 call path (.newInode path) (newInodeRun s path).1 := by
  obtain ⟨hcall, _, hfree⟩ := h
  unfold newInodeRun
  rcases inodeCreate_cases s.disk with ⟨hc, _⟩ | ⟨i, hi, hc⟩
  · simp only [hc, if_true]
    exact .of_disk (fun h => absurd h (by decide)) List.mem_cons_self (.refl _) rfl ho
      (ThreadCall.slot_none hcall rfl)
  · have hne : ¬ (i : Int) = -1 := by omega
    simp only [hc, hne, if_false]
    obtain ⟨horderly, hgrows, hunlisted⟩ := ho.newInode hi
    have hroot : ROOT_DIR_INUM ≠ i := by
      rintro rfl
      have := ho.root_taken
      rw [hi.2] at this
      cases this
    have hd := freshFile_dirSame (d := s.disk) hroot
    exact .of_disk ⟨hcall, rfl, hfree.same hd, i, rfl, hunlisted⟩ List.mem_cons_self hgrows hd.addr
      horderly (ThreadCall.slot_none hcall rfl)

theorem addEntryRun_cases (hs : ShortPath path) (ho : Orderly s.disk ending) {inum : Int}
    (hnew : NewFile s.disk path inum) :
    addEntryRun s.disk path inum = .undo inum ∨
      ∃ i < MAX_DIR_ENTRIES, entryInode s.disk i = -1 ∧
        addEntryRun s.disk path inum = .storeName path inum (rootAddr s.disk) i := by
  have hv : validInumber (ROOT_DIR_INUM : Nat) = true := by decide
  obtain ⟨f, rfl, hf, _⟩ := hnew.unlisted
  have hlt := hf.1
  have hvf : validInumber (f : Int) = true := by
    simp only [validInumber, decide_eq_true_eq]
    omega
  have hblock : dataBlockGet ((s.disk.inode_table ROOT_DIR_INUM).i_data_block 0) =
      some (rootAddr s.disk) := ho.root_block
  have hlen := hs.1
  unfold addEntryRun
  rw [if_neg (by simp only [hv, hvf]; decide), if_neg (by simp [ho.root_dir]),
    if_neg (by omega), hblock]
  simp only
  rcases hj : firstEmptyEntry s.disk.fs_data (rootAddr s.disk) with _ | i
  · exact Or.inl rfl
  · have hempty := List.find?_some hj
    rw [decide_eq_true_eq] at hempty
    exact Or.inr ⟨i, List.mem_range.mp (List.mem_of_find?_eq_some hj), hempty, rfl⟩

theorem addEntry_effect (hs : ShortPath path) {inum : Int}
    (ho : Orderly s.disk fun k => OpPlace.ending (.addEntry path inum) = some k)
    (h : (OpPlace.addEntry path inum).Ok s call path) :
    Effect s s call path (.addEntry path inum) (addEntryRun s.disk path inum) := by
  obtain ⟨hcall, _, hnew⟩ := h
  rcases addEntryRun_cases hs ho hnew with hq | ⟨i, hi, hempty, hq⟩ <;> rw [hq]
  · exact .of_disk (d := s.disk) ⟨hcall, hnew.unlisted⟩ List.mem_cons_self (.refl _) rfl ho
      (ThreadCall.slot_none hcall rfl)
  · exact .of_disk (d := s.disk) ⟨hcall, rfl, hnew, rfl, hi, hempty⟩ List.mem_cons_self (.refl _)
      rfl ho (ThreadCall.slot_none hcall rfl)

theorem storeName_effect {inum : Int} {dir_entry i : Nat}
    (ho : Orderly s.disk fun k => OpPlace.ending (.storeName path inum dir_entry i) = some k)
    (h : (OpPlace.storeName path inum dir_entry i).Ok s call path) :
    Effect s (setData s (copyDName s.disk.fs_data dir_entry i path.skip)) call path
      (.storeName path inum dir_entry i) (.storeInumber inum dir_entry i) := by
  obtain ⟨hcall, _, ⟨hfree, f, hf, hfile, hno⟩, rfl, hi, hempty⟩ := h
  obtain ⟨horderly, hgrows, hinode, hnames, hcopied⟩ := ho.storeName path hempty
  have hunlisted : Unlisted (withData s.disk
      (copyDName s.disk.fs_data (rootAddr s.disk) i path.skip)) f := by
    refine ⟨hfile, fun k hk => ?_⟩
    rw [hinode]
    exact hno k ⟨hk.1, hinode k ▸ hk.2⟩
  exact .of_disk ⟨hcall, ⟨hnames _ _ hfree, f, hf, hunlisted⟩, rfl, hi, (hinode i).trans hempty,
    hcopied⟩ List.mem_cons_self hgrows rfl horderly (ThreadCall.slot_none hcall rfl)

theorem storeInumber_effect (hs : ShortPath path) {inum : Int} {dir_entry i : Nat}
    (ho : Orderly s.disk fun k => OpPlace.ending (.storeInumber inum dir_entry i) = some k)
    (h : (OpPlace.storeInumber inum dir_entry i).Ok s call path) :
    Effect s (setData s (setDInumber s.disk.fs_data dir_entry i inum)) call path
      (.storeInumber inum dir_entry i) (.storeEnd inum dir_entry i) := by
  obtain ⟨hcall, ⟨hfree, f, rfl, hfile, _⟩, rfl, hi, hempty, hcopied⟩ := h
  have ho' : Orderly s.disk fun _ => False := ho.mono fun k hk => by cases hk
  obtain ⟨horderly, hgrows, hlive, hself, hcopied', hfree'⟩ :=
    ho'.storeInumber hs hi hempty hcopied hfree hfile
  exact .of_disk ⟨hcall, rfl, hlive, hself, hcopied', hfree'⟩ List.mem_cons_self hgrows rfl
    (horderly.mono fun k hk => congrArg some hk.symm) (ThreadCall.slot_none hcall rfl)

theorem storeEnd_effect (hs : ShortPath path) {inum : Int} {dir_entry i : Nat}
    (ho : Orderly s.disk fun k => OpPlace.ending (.storeEnd inum dir_entry i) = some k)
    (h : (OpPlace.storeEnd inum dir_entry i).Ok s call path) :
    Effect s (setData s (endDName s.disk.fs_data dir_entry i)) call path
      (.storeEnd inum dir_entry i) (unlockNewFile (.claimLock ⟨inum, 0, false⟩)) := by
  obtain ⟨hcall, rfl, hlive, rfl, hcopied, hfree⟩ := h
  have ho' : Orderly s.disk fun k => k = i := ho.mono fun k hk => (Option.some.inj hk).symm
  obtain ⟨horderly, hgrows, hknown⟩ := ho'.storeEnd hs hlive hcopied hfree
  exact .of_disk ⟨hcall, hknown⟩ List.mem_cons_self hgrows rfl
    (horderly.mono fun _ hk => hk.elim) (ThreadCall.slot_none hcall rfl)

theorem undo_effect {inum : Int}
    (ho : Orderly s.disk fun k => OpPlace.ending (.undo inum) = some k)
    (h : (OpPlace.undo inum).Ok s call path) :
    Effect s { s with disk := (inodeDelete s.disk inum).2 } call path (.undo inum)
      (unlockNewFile (.ret ⟨-1, []⟩)) := by
  obtain ⟨hcall, f, rfl, hunlisted⟩ := h
  obtain ⟨horderly, hgrows, hroot⟩ := ho.undo hunlisted
  exact .of_disk (fun h => absurd h (by decide)) List.mem_cons_self hgrows hroot horderly
    (ThreadCall.slot_none hcall rfl)

/-! ## The other steps on the file system -/

/-- A truncation does not touch the directory. -/
theorem trunc_effect (hs : ShortPath path) (ho : Orderly s.disk ending) {flags : BitVec 32}
    {inum : Int} {inode : Nat} (h : (OpPlace.truncRun flags inum inode).Ok s call path) :
    Effect s (truncSection s flags inum inode).2 call path (.truncRun flags inum inode)
      (truncSection s flags inum inode).1 := by
  obtain ⟨hcall, hknown⟩ := h
  obtain ⟨hf, hd⟩ := truncateInode_same s.disk inode
  obtain ⟨_, hgrows⟩ := ho.of_dirSame hd (by rw [hf.1]) (hf.2 _)
    fun _ f _ _ hff => (hf.fileInode f).mpr hff
  have hknown' := hgrows _ _ hs.length_lt hknown
  have hno : ¬ (OpPlace.truncRun flags inum inode).Creating := by
    unfold OpPlace.Creating
    simp [OpPlace.held]
  have hplain :
      (truncSection s flags inum inode).1.Ok (truncSection s flags inum inode).2 call path ∧
      (truncSection s flags inum inode).1.slot = none ∧
      (truncSection s flags inum inode).1.ending = none := by
    simp only [truncSection, OpPlace.Ok, OpPlace.slot, OpPlace.ending]
    split_ifs
    · exact ⟨fun h => absurd h (by decide), rfl, rfl⟩
    · exact ⟨⟨hcall, hknown'⟩, rfl, rfl⟩
    · exact ⟨⟨hcall, hknown'⟩, rfl, rfl⟩
  have hslot : call.slot (truncSection s flags inum inode).1 = none :=
    ThreadCall.slot_none hcall hplain.2.1
  exact
    { ok := hplain.1
      grows := hgrows
      root := hd.addr
      quiet := fun _ => ⟨hf, hd⟩
      orderly := fun hc => absurd hc hno
      ending := fun k hk => by simp [hplain.2.2] at hk
      table := fun _ _ => rfl
      slots := fun i hi => by simp [hslot] at hi
      taken := fun i hi => hi.elim id fun hq => by simp [hslot] at hq }

theorem claim_effect {e : OpenFileEntry} (h : (OpPlace.claimRun e).Ok s call path) :
    Effect s (claimSection s e).2 call path (.claimRun e) (claimSection s e).1 := by
  obtain ⟨hcall, hknown⟩ := h
  have hno : ¬ (OpPlace.claimRun e).Creating := by
    unfold OpPlace.Creating
    simp [OpPlace.held]
  unfold claimSection claimEntry
  rcases hfind : (List.range MAX_OPEN_FILES).find? fun i =>
      decide (s.free_open_file_entries i = .FREE) with _ | i
  · have hq : call.slot (.unlock .addFileEntryMutex .exclusive (.ret ⟨-1, []⟩)) = none :=
      ThreadCall.slot_none hcall rfl
    refine .of_table rfl hno (fun h => absurd h (by decide)) rfl (fun _ _ => rfl) ?_ ?_
    · intro j hj
      simp [hq] at hj
    · intro j hj
      exact hj.elim id fun hj => by simp [hq] at hj
  · have hfree := List.find?_some hfind
    rw [decide_eq_true_eq] at hfree
    have hq : call.slot (.unlock .addFileEntryMutex .exclusive (.fillLock i e)) = some i :=
      ThreadCall.slot_eq hcall _
    refine .of_table rfl hno ⟨hcall, hknown⟩ rfl (fun _ _ => rfl) ?_ ?_
    · intro j hj
      obtain rfl := Option.some.inj (hq.symm.trans hj)
      exact Or.inr hfree
    · intro j hj
      simp only
      by_cases hji : j = i
      · rw [hji, Function.update_self]
      · rw [Function.update_of_ne hji]
        exact hj.elim id fun hj => absurd (Option.some.inj (hq.symm.trans hj)).symm hji

theorem fill_effect {i : Nat} {e : OpenFileEntry} (h : (OpPlace.fillRun i e).Ok s call path)
    (hslot : ∀ j, call.slot (.fillRun i e) = some j → s.free_open_file_entries j = .TAKEN) :
    Effect s (fillEntry s i e) call path (.fillRun i e)
      (.unlock (.fileEntryMutex i) .exclusive (.ret ⟨i, []⟩)) := by
  obtain ⟨hcall, hknown⟩ := h
  have hno : ¬ (OpPlace.fillRun i e).Creating := by
    unfold OpPlace.Creating
    simp [OpPlace.held]
  have hq : call.slot (.unlock (.fileEntryMutex i) .exclusive (.ret ⟨i, []⟩)) = some i := by
    rw [ThreadCall.slot_eq hcall]
    simp [OpPlace.slot]
  have hp : call.slot (.fillRun i e) = some i := ThreadCall.slot_eq hcall _
  refine .of_table rfl hno (fun _ => ?_) rfl (fun j hj => ?_) (fun j hj => ?_) fun j hj => ?_
  · unfold ThreadCall.inode
    rw [if_neg (by simp [hcall])]
    simp only [fillEntry, Int.toNat_natCast, Function.update_self]
    exact hknown
  · exact Function.update_of_ne (fun he => hj (by rw [hp, he])) ..
  · exact Or.inl (by rw [hp, ← hj, hq])
  · exact hj.elim id fun hj => hslot j (by rw [hp, ← hj, hq])

/-! ## Every step -/

section
variable (ho : Orderly s.disk ending) (he : p.Creating → ∀ k, ending k → p.ending = some k)
  (hslot : ∀ i, call.slot p = some i → s.free_open_file_entries i = .TAKEN)
include ho he hslot

theorem OpPlace.Ok.run (hs : ShortPath path) (h : p.Ok s call path) {f : State → OpPlace × State}
    (hc : p.code = some (.run f)) : Effect s (f s).2 call path p (f s).1 := by
  cases p with
  | find p use =>
    cases hc
    obtain ⟨rfl, hu⟩ := h
    simp only [ho.findRun]
    refine .of_same ho he hslot ⟨rfl, hu, rfl, fun _ k _ hk => absurd (Nat.zero_le k) hk⟩ rfl ?_
    unfold ThreadCall.slot
    split_ifs <;> exact fun i hi => hi
  | scan p dir_entry i use =>
    cases hc
    obtain ⟨rfl, hu, rfl, hfree⟩ := h
    obtain ⟨hslots, hend⟩ : call.slot (scanRun s.disk p (rootAddr s.disk) i use) = none ∧
        (scanRun s.disk p (rootAddr s.disk) i use).ending = none := scanRun_plain _ _ _ hu
    exact .of_same_none ho he hslot (scanRun_ok hs ho ⟨rfl, hu, rfl, hfree⟩) hend hslots
  | openCheck name flags =>
    cases hc
    obtain ⟨hcall, rfl⟩ := h
    have hu : call.isLookup = true ↔ LookupUse.open flags = .answer := by simp [hcall]
    simp only [openCheckRun]
    split_ifs
    · exact .of_same_none ho he hslot (fun h => absurd h (by decide)) rfl
        (ThreadCall.slot_none hcall rfl)
    · exact .of_same_none ho he hslot ⟨rfl, hu⟩ rfl (ThreadCall.slot_none hcall rfl)
  | newInode p =>
    cases hc
    obtain rfl := h.2.1
    exact newInode_effect (ho.mono (he List.mem_cons_self)) h
  | addEntry p inum =>
    cases hc
    obtain rfl := h.2.1
    exact addEntry_effect hs (ho.mono (he List.mem_cons_self)) h
  | storeName p inum dir_entry i =>
    cases hc
    obtain rfl := h.2.1
    exact storeName_effect (ho.mono (he List.mem_cons_self)) h
  | storeInumber inum dir_entry i =>
    cases hc
    exact storeInumber_effect hs (ho.mono (he List.mem_cons_self)) h
  | storeEnd inum dir_entry i =>
    cases hc
    exact storeEnd_effect hs (ho.mono (he List.mem_cons_self)) h
  | undo inum =>
    cases hc
    exact undo_effect (ho.mono (he List.mem_cons_self)) h
  | truncRun flags inum inode =>
    cases hc
    exact trunc_effect hs ho h
  | openSize inum inode =>
    cases hc
    exact .of_same_none ho he hslot ⟨h.1, h.2⟩ rfl (ThreadCall.slot_none h.1 rfl)
  | claimRun e =>
    cases hc
    exact claim_effect h
  | fillRun i e =>
    cases hc
    exact fill_effect h hslot
  | createLock p flags => cases hc
  | truncLock flags inum inode => cases hc
  | claimLock e => cases hc
  | fillLock i e => cases hc
  | unlock l m next => cases hc
  | ret a => cases hc
  | _ => exact h.elim

theorem OpPlace.Ok.lock (h : p.Ok s call path) {l : Lock} {m : Mode} {next : OpPlace}
    (hc : p.code = some (.lock l m next)) : Effect s s call path p next := by
  cases p with
  | createLock p flags =>
    cases hc
    obtain ⟨hcall, rfl⟩ := h
    have hu : call.isLookup = true ↔ LookupUse.create flags = .answer := by simp [hcall]
    exact .of_same_none ho he hslot ⟨rfl, hu⟩ rfl (ThreadCall.slot_none hcall rfl)
  | truncLock flags inum inode =>
    cases hc
    exact .of_same ho he hslot h rfl fun i hi => hi
  | claimLock e =>
    cases hc
    exact .of_same ho he hslot h rfl fun i hi => hi
  | fillLock i e =>
    cases hc
    exact .of_same ho he hslot h rfl fun i hi => hi
  | accessRun i inode use => exact h.elim
  | closeLock i => exact h.elim
  | getLock i use => exact h.elim
  | inodeLock i inode use => exact h.elim
  | entryLock i inode use => exact h.elim
  | allocLock w blockOcc todo second => exact h.elim
  | _ => cases hc

theorem OpPlace.Ok.unlock (h : p.Ok s call path) {l : Lock} {next : OpPlace}
    (hc : p.code = some (.unlock l next)) : Effect s s call path p next := by
  cases p with
  | unlock l m next =>
    cases hc
    exact .of_same ho he hslot h rfl fun i hi => hi
  | accessRun i inode use => exact h.elim
  | _ => cases hc

end

end

end tecnicofs.parte1
