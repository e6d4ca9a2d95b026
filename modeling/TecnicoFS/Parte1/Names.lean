-- The names of the files. A name of at most 39 characters is found again as long as
-- the file system runs, and for no other path. A longer one is stored cut off, and
-- never found.
import TecnicoFS.Parte1.Entries

open byte_memory

namespace tecnicofs.parte1

/-! ## Names in the entries -/

/-- The name in entry `k`, up to its terminator. -/
def entryName (d : Disk) (k : Nat) : List UInt8 :=
  (dName d.fs_data (rootAddr d) k).takeWhile (· ≠ 0)

/-- Every live entry holds a terminated name. -/
def Terminated (d : Disk) : Prop := ∀ k, Live d k → 0 ∈ dName d.fs_data (rootAddr d) k

/-- No two live entries hold the same name. -/
def DistinctNames (d : Disk) : Prop :=
  ∀ k k', Live d k → Live d k' → entryName d k = entryName d k' → k = k'

/-- A list with a NUL is the string before the first one, and what lies behind it. -/
theorem split_at_nul {l : List UInt8} (h : 0 ∈ l) :
    0 ∉ l.takeWhile (· ≠ 0) ∧ (l.takeWhile (· ≠ 0)).length < l.length ∧
      ∃ xs, l = l.takeWhile (· ≠ 0) ++ 0 :: xs := by
  obtain ⟨cs, xs, rfl, hcs⟩ := List.eq_append_cons_of_mem h
  rw [takeWhile_nul hcs]
  refine ⟨hcs, ?_, xs, rfl⟩
  rw [List.length_append, List.length_cons]
  omega

theorem entryMatches_of_terminated {d : Disk} {k : Nat} (hk : Live d k)
    (h0 : 0 ∈ dName d.fs_data (rootAddr d) k) (name : CString) :
    entryMatches d.fs_data (rootAddr d) name k = true ↔ name.chars = entryName d k := by
  obtain ⟨h1, h2, xs, h3⟩ := split_at_nul h0
  have hlen : (dName d.fs_data (rootAddr d) k).length = MAX_FILE_NAME := load_length ..
  have hlive : dInumber d.fs_data (rootAddr d) k ≠ -1 := hk.2
  simp only [entryMatches, hlive, ne_eq, not_false_eq_true, decide_true, Bool.true_and]
  rw [h3]
  exact strncmpEq_iff h1 name.nul_free (hlen ▸ h2)

section
variable {d : Disk} (h : Terminated d) {k : Nat} (hk : Live d k)
include h hk

theorem Terminated.length_lt : (entryName d k).length < MAX_FILE_NAME := by
  have hlen : (dName d.fs_data (rootAddr d) k).length = MAX_FILE_NAME := load_length ..
  rw [← hlen]
  exact (split_at_nul (h k hk)).2.1

/-- What `find_in_dir` compares is the whole name. -/
theorem Terminated.matches (name : CString) :
    entryMatches d.fs_data (rootAddr d) name k = true ↔ name.chars = entryName d k :=
  entryMatches_of_terminated hk (h k hk) name

end

/-- What a lookup finds is the entry with the name. -/
theorem tfsLookup_entry {d : Disk} (h : DiskInv d) (ht : Terminated d) {path : CString} {f : Nat}
    (hl : tfsLookup d path = f) :
    ∃ k, Live d k ∧ entryInode d k = f ∧ entryName d k = path.skip.chars := by
  rw [tfsLookup_eq h] at hl
  unfold scanDir at hl
  split at hl
  · rename_i k hk
    have hlt := List.mem_range.mp (List.mem_of_find?_eq_some hk)
    have hmatch := List.find?_some hk
    have hlive : Live d k := by
      refine ⟨hlt, ?_⟩
      unfold entryInode
      omega
    exact ⟨k, hlive, hl, ((ht.matches hlive path.skip).mp hmatch).symm⟩
  · omega

/-- A longer name is never found. -/
theorem tfsLookup_long {d : Disk} (h : DiskInv d) (ht : Terminated d) {path : CString}
    (hlen : MAX_FILE_NAME ≤ path.skip.strlen) : tfsLookup d path = -1 := by
  rcases tfsLookup_cases h path with hl | ⟨f, hl, _⟩
  · exact hl
  · obtain ⟨k, hk, _, hname⟩ := tfsLookup_entry h ht hl
    have hlt := ht.length_lt hk
    rw [hname] at hlt
    unfold CString.strlen at hlen
    omega

theorem path_ext {p q : CString} (hp : validPathname (some p) = true)
    (hq : validPathname (some q) = true) (h : p.skip.chars = q.skip.chars) : p = q := by
  simp only [validPathname, Bool.and_eq_true, decide_eq_true_eq] at hp hq
  obtain ⟨ps, hps⟩ := p
  obtain ⟨qs, hqs⟩ := q
  obtain ⟨ps, rfl⟩ := List.head?_eq_some_iff.mp hp.2
  obtain ⟨qs, rfl⟩ := List.head?_eq_some_iff.mp hq.2
  obtain rfl : ps = qs := h
  rfl

/-- Two paths that are found have two files. -/
theorem tfsLookup_inj {d : Disk} (h : DiskInv d) (hlisted : Listed d) (ht : Terminated d)
    {p q : CString} (hp : validPathname (some p) = true) (hq : validPathname (some q) = true)
    {f : Nat} (hlp : tfsLookup d p = f) (hlq : tfsLookup d q = f) : p = q := by
  obtain ⟨k, hk, hkf, hkn⟩ := tfsLookup_entry h ht hlp
  obtain ⟨k', hk', hkf', hkn'⟩ := tfsLookup_entry h ht hlq
  obtain ⟨g, hg, hfile⟩ := h.dir.entry_file k hk.1 hk.2
  obtain rfl : g = f := by
    rw [← entryInode, hkf] at hg
    omega
  obtain rfl := (hlisted g hfile).unique ⟨hk.1, hkf⟩ ⟨hk'.1, hkf'⟩
  exact path_ext hp hq (hkn.symm.trans hkn')

/-! ## A new name -/

section
variable {d : Disk} (h : DiskInv d) {path : CString} {i j : Nat} (hc : Creates d path i j)
include h hc

theorem Creates.name_self :
    dName (createdFile d i j path).fs_data (rootAddr (createdFile d i j path)) j =
      strncpy path.skip (MAX_FILE_NAME - 1) ++ [0] := by
  rw [createdFile_rootAddr h hc.inode]
  exact dName_fill_self ..

theorem Creates.name_other {k : Nat} (hk : k ≠ j) :
    dName (createdFile d i j path).fs_data (rootAddr (createdFile d i j path)) k =
      dName d.fs_data (rootAddr d) k := by
  rw [createdFile_rootAddr h hc.inode]
  exact dName_fill_of_ne _ _ _ _ _ hk

theorem Creates.live_other {k : Nat} (hk : k ≠ j) (hl : Live (createdFile d i j path) k) :
    Live d k := by
  refine ⟨hl.1, ?_⟩
  rw [← hc.entry_other h hk]
  exact hl.2

theorem Terminated.creates (ht : Terminated d) : Terminated (createdFile d i j path) := by
  intro k hk
  by_cases hkj : k = j
  · subst hkj
    rw [hc.name_self h]
    simp
  · rw [hc.name_other h hkj]
    exact ht k (hc.live_other h hkj hk)

/-- A short name is stored as it is. -/
theorem Creates.entryName_self (hshort : path.skip.strlen < MAX_FILE_NAME) :
    entryName (createdFile d i j path) j = path.skip.chars := by
  unfold entryName
  rw [hc.name_self h, strncpy_short (Nat.le_sub_one_of_lt hshort)]
  exact takeWhile_nul path.skip.nul_free _

theorem DistinctNames.creates (hd : DistinctNames d) (ht : Terminated d)
    (hshort : path.skip.strlen < MAX_FILE_NAME) : DistinctNames (createdFile d i j path) := by
  have hother : ∀ {k}, k ≠ j → entryName (createdFile d i j path) k = entryName d k := by
    intro k hk
    unfold entryName
    rw [hc.name_other h hk]
  -- the new name was not found, so no live entry holds it
  have hnew : ∀ k, Live d k → entryName d k ≠ path.skip.chars := by
    intro k hk hname
    have hunknown := hc.unknown
    rw [tfsLookup_eq h] at hunknown
    have hno := scanDir_none hunknown k hk.1
    rw [(ht.matches hk path.skip).mpr hname.symm] at hno
    cases hno
  intro k k' hk hk' he
  by_cases hkj : k = j <;> by_cases hkj' : k' = j
  · rw [hkj, hkj']
  · subst hkj
    rw [hc.entryName_self h hshort, hother hkj'] at he
    exact absurd he.symm (hnew k' (hc.live_other h hkj' hk'))
  · subst hkj'
    rw [hc.entryName_self h hshort, hother hkj] at he
    exact absurd he (hnew k (hc.live_other h hkj hk))
  · rw [hother hkj, hother hkj'] at he
    exact hd k k' (hc.live_other h hkj hk) (hc.live_other h hkj' hk') he

end

/-! ## Every run -/

theorem DirSame.dName {d d' : Disk} (h : DirSame d d') {k : Nat} (hk : k < MAX_DIR_ENTRIES) :
    dName d'.fs_data (rootAddr d') k = dName d.fs_data (rootAddr d) k := by
  rw [h.addr]
  exact dName_congr hk h.bytes

theorem DirSame.entryName {d d' : Disk} (h : DirSame d d') {k : Nat} (hk : k < MAX_DIR_ENTRIES) :
    entryName d' k = entryName d k := by
  unfold parte1.entryName
  rw [h.dName hk]

theorem DirSame.live {d d' : Disk} (h : DirSame d d') {k : Nat} : Live d' k ↔ Live d k := by
  unfold Live entryInode
  apply and_congr_right
  intro hk
  rw [h.inumber hk]

theorem Terminated.same {d d' : Disk} (h : Terminated d) (hd : DirSame d d') : Terminated d' := by
  intro k hk
  rw [hd.dName hk.1]
  exact h k (hd.live.mp hk)

theorem DistinctNames.same {d d' : Disk} (h : DistinctNames d) (hd : DirSame d d') :
    DistinctNames d' := by
  intro k k' hk hk' he
  rw [hd.entryName hk.1, hd.entryName hk'.1] at he
  exact h k k' (hd.live.mp hk) (hd.live.mp hk') he

/-- What is known of the directory in every state. -/
structure NamesInv (s : State) : Prop where
  inv : Inv s
  listed : Listed s.disk
  terminated : Terminated s.disk

theorem NamesInv.exec {s : State} (h : NamesInv s) (op : Op) : NamesInv (exec s op).2 := by
  refine ⟨h.inv.exec op, h.listed.exec h.inv op, ?_⟩
  rcases exec_directory h.inv op with hq | ⟨path, _, i, j, _, hc, hd⟩
  · exact h.terminated.same hq.dir
  · rw [hd]
    exact h.terminated.creates h.inv.disk hc

theorem Initial.no_live {s : State} (h : Initial s) (k : Nat) : ¬ Live s.disk k := by
  rintro ⟨hk, hne⟩
  have hs := h.inv
  obtain ⟨raw, rfl⟩ := h
  obtain ⟨f, _, hf⟩ := hs.disk.dir.entry_file k hk hne
  rw [tfsInit_eq] at hf
  exact firstDisk_fileInode _ f hf

theorem Initial.namesInv {s : State} (h : Initial s) : NamesInv s :=
  ⟨h.inv, Reachable.listed (.start h), fun k hk => (h.no_live k hk).elim⟩

theorem Initial.distinctNames {s : State} (h : Initial s) : DistinctNames s.disk :=
  fun k _ hk => (h.no_live k hk).elim

/-! ## Opens that give a handle -/

/-- The inode that the handle of an open refers to. -/
def openedInode (r : Int × State) : Int := (r.2.open_file_table r.1.toNat).of_inumber

theorem OpenAs.openedInode {r : Int × State} {e : OpenFileEntry} (ho : OpenAs r.2 r.1 e) :
    openedInode r = e.of_inumber := by
  obtain ⟨i, hi, rfl⟩ := ho
  obtain ⟨hr, _⟩ := getOpenFileEntry_eq_some.mp hi
  unfold parte1.openedInode
  rw [hr, Int.toNat_natCast]

/-- An open that gives a handle has found its file, or has created it. -/
theorem tfsOpen_handle {s : State} (h : Inv s) {path : CString} {flags : BitVec 32}
    (hok : 0 ≤ (tfsOpen s (some path) flags).1) :
    ∃ f : Nat, openedInode (tfsOpen s (some path) flags) = f ∧
      ((tfsLookup s.disk path = f ∧ FileInode s.disk f ∧
          Quiet s.disk (tfsOpen s (some path) flags).2.disk) ∨
        ∃ j, Creates s.disk path f j ∧
          (tfsOpen s (some path) flags).2.disk = createdFile s.disk f j path) := by
  rcases tfsOpen_ok_cases h.disk hok with ⟨f, hl, hf, hr⟩ | ⟨i, j, hv, hl, hi, hj, hr⟩
  · rw [hr] at hok ⊢
    refine ⟨f, (OpenAs.added hok).openedInode, Or.inl ⟨hl, hf, ?_⟩⟩
    rw [addToOpenFileTable_disk]
    exact afterTrunc_quiet h.disk hf flags
  · rw [hr] at hok ⊢
    refine ⟨i, (OpenAs.added hok).openedInode, Or.inr ⟨j, ⟨hv, hl, hi, hj⟩, ?_⟩⟩
    rw [addToOpenFileTable_disk]

theorem tfsOpen_valid {s : State} {path : CString} {flags : BitVec 32}
    (hok : 0 ≤ (tfsOpen s (some path) flags).1) : validPathname (some path) = true := by
  by_contra hno
  have hr : tfsOpen s (some path) flags = (-1, s) := by
    simp only [tfsOpen, Bool.not_eq_true _ ▸ hno, if_true]
  rw [hr] at hok
  simp at hok

/-- The state after some calls. -/
def afterCalls (s : State) (ops : List Op) : State := (runs.run exec s ops).2

/-- A name that is found is found after any calls. -/
theorem afterCalls_lookup {s : State} (h : Inv s) (ops : List Op) {path : CString} {f : Nat}
    (hl : tfsLookup s.disk path = f) : tfsLookup (afterCalls s ops).disk path = f := by
  induction ops generalizing s with
  | nil => exact hl
  | cons op ops ih => exact ih (h.exec op) (exec_lookup h op (by omega) hl)

/-! ## Short names -/

/-- The name of an open that may create a file fits into an entry. -/
def ShortName : Op → Prop
  | .tfsOpen (some path) flags =>
    validPathname (some path) = true → hasFlag flags TFS_O_CREAT = true →
      path.skip.strlen < MAX_FILE_NAME
  | _ => True

/-- Without `TFS_O_CREAT` nothing is created. -/
theorem Creates.flag {s : State} {path : CString} {flags : BitVec 32} {i j : Nat}
    (hc : Creates s.disk path i j)
    (hd : (tfsOpen s (some path) flags).2.disk = createdFile s.disk i j path) :
    hasFlag flags TFS_O_CREAT = true := by
  by_contra hno
  have hr : tfsOpen s (some path) flags = (-1, s) := by
    simp only [tfsOpen, hc.valid, Bool.true_eq_false, if_false, hc.unknown, not_zero_le_neg_one,
      hno]
  rw [hr] at hd
  have hnew := (@createdFile_fileInode s.disk i j hc.inode path i).mpr (Or.inr rfl)
  rw [← hd] at hnew
  exact hc.inode.not_file hnew rfl

theorem NamesInv.distinct_exec {s : State} (h : NamesInv s) (hd : DistinctNames s.disk) {op : Op}
    (hop : ShortName op) : DistinctNames (parte1.exec s op).2.disk := by
  rcases exec_directory h.inv op with hq | ⟨path, flags, i, j, rfl, hc, he⟩
  · exact hd.same hq.dir
  · rw [he]
    exact hd.creates h.inv.disk hc h.terminated (hop hc.valid (hc.flag he))

/-- Calls one after the other that create short names only. -/
theorem Initial.names_run {s : State} (hs : Initial s) {ops : List Op}
    (hm : runs.Meets exec (fun _ op => ShortName op) s ops) :
    runs.Always exec (fun s => NamesInv s ∧ DistinctNames s.disk) s ops :=
  runs.always_of_meets (fun _ op h hop => ⟨h.1.exec op, h.1.distinct_exec h.2 hop⟩)
    ⟨hs.namesInv, hs.distinctNames⟩ hm

/-! ## The laws of the names -/

/-- The path of an open that gives a handle, and the inode of the handle. -/
def opening (s : State) : Op → List (CString × Int)
  | .tfsOpen (some path) flags =>
    if 0 ≤ (tfsOpen s (some path) flags).1 then
      [(path, openedInode (tfsOpen s (some path) flags))]
    else []
  | _ => []

theorem mem_opening {s : State} {op : Op} {path : CString} {inum : Int}
    (h : (path, inum) ∈ opening s op) :
    ∃ flags, op = .tfsOpen (some path) flags ∧ 0 ≤ (tfsOpen s (some path) flags).1 ∧
      inum = openedInode (tfsOpen s (some path) flags) := by
  unfold opening at h
  split at h
  · rename_i p flags
    split at h
    · rename_i hok
      obtain ⟨rfl, rfl⟩ := Prod.mk.inj (List.mem_singleton.mp h)
      exact ⟨flags, rfl, hok, rfl⟩
    · cases h
  · cases h

/-- The file system, and every open that has given a handle so far. -/
structure Named where
  fs : State
  opened : List (CString × Int)

def namedTurn (w : Named) (op : Op) : Answer × Named :=
  ((exec w.fs op).1, ⟨(exec w.fs op).2, w.opened ++ opening w.fs op⟩)

/-- Each path that was opened leads to the inode of its handle, an open of it refers to the same
inode and creates nothing, and no other path leads there. -/
structure NamesLaw (w : Named) : Prop where
  lookup : ∀ path inum, (path, inum) ∈ w.opened → tfsLookup w.fs.disk path = inum
  again : ∀ path inum flags, (path, inum) ∈ w.opened → 0 ≤ (tfsOpen w.fs (some path) flags).1 →
    openedInode (tfsOpen w.fs (some path) flags) = inum ∧
      (tfsOpen w.fs (some path) flags).2.disk.freeinode_ts = w.fs.disk.freeinode_ts
  apart : ∀ path inum q, (path, inum) ∈ w.opened → validPathname (some q) = true → q ≠ path →
    tfsLookup w.fs.disk q ≠ inum ∧ ∀ inum', (q, inum') ∈ w.opened → inum' ≠ inum
  entries : DistinctNames w.fs.disk

/-- What is known of the log in every state. -/
structure NamedInv (w : Named) : Prop where
  names : NamesInv w.fs
  distinct : DistinctNames w.fs.disk
  found : ∀ path inum, (path, inum) ∈ w.opened →
    validPathname (some path) = true ∧ ∃ f : Nat, inum = f ∧ tfsLookup w.fs.disk path = f

theorem NamedInv.law {w : Named} (h : NamedInv w) : NamesLaw w := by
  have hinv := h.names.inv
  refine ⟨?_, ?_, ?_, h.distinct⟩
  · intro path inum hmem
    obtain ⟨_, f, rfl, hl⟩ := h.found path inum hmem
    exact hl
  · intro path inum flags hmem hok
    obtain ⟨_, f, rfl, hl⟩ := h.found path inum hmem
    obtain ⟨g, hg, ⟨hlg, _, hquiet⟩ | ⟨j, hc, _⟩⟩ := tfsOpen_handle hinv hok
    · exact ⟨by rw [hg, ← hlg, hl], hquiet.taken⟩
    · have := hc.unknown
      omega
  · intro path inum q hmem hq hne
    obtain ⟨hv, f, rfl, hl⟩ := h.found path inum hmem
    have hapart : tfsLookup w.fs.disk q ≠ f := fun hlq =>
      hne (tfsLookup_inj hinv.disk h.names.listed h.names.terminated hq hv hlq hl)
    refine ⟨hapart, fun inum' hmem' he => ?_⟩
    obtain ⟨_, g, rfl, hlg⟩ := h.found q inum' hmem'
    exact hapart (hlg.trans he)

/-- An open that gives a handle leaves its path in the directory, unless the name was cut. -/
theorem NamesInv.opening_found {s : State} (h : NamesInv s) {op : Op} (hop : ShortName op)
    {path : CString} {inum : Int} (hmem : (path, inum) ∈ opening s op) :
    validPathname (some path) = true ∧
      ∃ f : Nat, inum = f ∧ tfsLookup (parte1.exec s op).2.disk path = f := by
  obtain ⟨flags, rfl, hok, rfl⟩ := mem_opening hmem
  have hnext := (h.exec (.tfsOpen (some path) flags)).inv
  change Inv (tfsOpen s (some path) flags).2 at hnext
  have hv := tfsOpen_valid hok
  obtain ⟨f, hf, ⟨hl, _, hquiet⟩ | ⟨j, hc, hd⟩⟩ := tfsOpen_handle h.inv hok
  · exact ⟨hv, f, hf, (tfsLookup_congr h.inv.disk hnext.disk hquiet.dir path).trans hl⟩
  · refine ⟨hv, f, hf, ?_⟩
    change tfsLookup (tfsOpen s (some path) flags).2.disk path = f
    rw [hd]
    exact createdFile_lookup_new h.inv.disk hc.inode hc.entry (hop hv (hc.flag hd)) hc.unknown

theorem NamedInv.turn {w : Named} (h : NamedInv w) {op : Op} (hop : ShortName op) :
    NamedInv (namedTurn w op).2 := by
  refine ⟨h.names.exec op, h.names.distinct_exec h.distinct hop, fun path inum hmem => ?_⟩
  rcases List.mem_append.mp hmem with hold | hnew
  · obtain ⟨hv, f, rfl, hl⟩ := h.found path inum hold
    exact ⟨hv, f, rfl, exec_lookup h.names.inv op (by omega) hl⟩
  · exact h.names.opening_found hop hnew

theorem Initial.namedInv {s : State} (hs : Initial s) : NamedInv ⟨s, []⟩ :=
  ⟨hs.namesInv, hs.distinctNames, fun _ _ hmem => absurd hmem (by simp)⟩

/-- A longer name is not found after the open that has given a handle for it. -/
theorem NamesInv.long_is_lost {w : Named} (h : NamesInv w.fs) {op : Op}
    (hlaw : NamesLaw (namedTurn w op).2) :
    ∀ e ∈ opening w.fs op, e.1.skip.strlen < MAX_FILE_NAME := by
  rintro ⟨path, inum⟩ hmem
  by_contra hlen
  have hnext : NamesInv (namedTurn w op).2.fs := h.exec op
  have hl := hlaw.lookup path inum (List.mem_append_right _ hmem)
  rw [tfsLookup_long hnext.inv.disk hnext.terminated (Nat.le_of_not_lt hlen)] at hl
  obtain ⟨flags, rfl, hok, rfl⟩ := mem_opening hmem
  obtain ⟨f, hf, _⟩ := tfsOpen_handle h.inv hok
  omega

/-- The names that are opened stay apart in every run that creates names of at most 39 characters
only. A run that keeps them apart gives no handle for a longer one. -/
theorem names_of_39_characters_are_kept (start : State) (ops : List Op) (hi : Initial start) :
    (runs.Meets namedTurn (fun _ op => ShortName op) ⟨start, []⟩ ops →
      runs.Always namedTurn NamesLaw ⟨start, []⟩ ops) ∧
      (runs.Always namedTurn NamesLaw ⟨start, []⟩ ops →
        runs.Meets namedTurn
          (fun w op => ∀ e ∈ opening w.fs op, e.1.skip.strlen < MAX_FILE_NAME) ⟨start, []⟩ ops) :=
  ⟨fun hm =>
    (runs.always_of_meets (fun _ _ h hop => h.turn hop) hi.namedInv hm).mono fun _ h => h.law,
  runs.Always.meets (I := fun w => NamesInv w.fs) (fun _ op h => h.exec op)
    (fun _ _ h hlaw => h.long_is_lost hlaw) hi.namesInv⟩

/-- The path `/aaa...` with 40 letters. -/
def longPath : CString := ⟨slash :: List.replicate 40 97, by decide⟩

/-- `longPath` without its last letter. -/
def cutPath : CString := ⟨slash :: List.replicate 39 97, by decide⟩

/-- Two files with a letter and with 39 letters, and one of them once more. -/
theorem two_names_are_kept :
    runs.Always namedTurn NamesLaw ⟨(tfsInit zeroed).2, []⟩
      [.tfsOpen (some cutPath) TFS_O_CREAT, .tfsOpen (some pathF) TFS_O_CREAT,
        .tfsWrite 1 [5], .tfsOpen (some cutPath) TFS_O_CREAT, .tfsOpen (some longPath) 0] := by
  apply (names_of_39_characters_are_kept (tfsInit zeroed).2 _ ⟨zeroed, rfl⟩).1
  exact ⟨fun _ _ => by decide, fun _ _ => by decide, trivial, fun _ _ => by decide,
    fun _ hno => absurd hno (by decide), trivial⟩

/-- The longer name is not found after its creation, it is created once more, and the first file
belongs to the shorter name: both handles refer to inode 1. -/
theorem a_name_of_40_characters_is_lost :
    let s := (tfsOpen (tfsInit zeroed).2 (some longPath) TFS_O_CREAT).2
    validPathname (some longPath) = true ∧
      0 ≤ (tfsOpen (tfsInit zeroed).2 (some longPath) TFS_O_CREAT).1 ∧
      openedInode (tfsOpen (tfsInit zeroed).2 (some longPath) TFS_O_CREAT) = 1 ∧
      tfsLookup s.disk longPath = -1 ∧
      openedInode (tfsOpen s (some longPath) TFS_O_CREAT) = 2 ∧
      openedInode (tfsOpen s (some cutPath) TFS_O_CREAT) = 1 ∧
      ¬ runs.Always namedTurn NamesLaw ⟨(tfsInit zeroed).2, []⟩
        [.tfsOpen (some longPath) TFS_O_CREAT] := by
  refine ⟨by decide, by decide +kernel, by decide +kernel, by decide +kernel, by decide +kernel,
    by decide +kernel, fun h => ?_⟩
  have hl := h.2.lookup longPath 1 (by decide +kernel)
  exact absurd hl (by decide +kernel)

end tecnicofs.parte1
