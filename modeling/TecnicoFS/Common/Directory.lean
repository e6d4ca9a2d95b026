-- The root directory as it lies in its data block: 23 entries of 44 bytes,
-- each a name of 40 bytes and an inode number. Both parts scan and fill it
-- with the same loops.
import TecnicoFS.Common.Basics
import TecnicoFS.Lib.ByteMemory
import Mathlib.Data.List.Find

open byte_memory

namespace tecnicofs

/-- `sizeof(dir_entry_t)`. -/
abbrev DIR_ENTRY_SIZE : Nat := 44

/-- `BLOCK_SIZE / sizeof(dir_entry_t)`. -/
abbrev MAX_DIR_ENTRIES : Nat := 23

/-- The address of entry `i` of the directory block at `base`. -/
def dirEntryAddr (base i : Nat) : Nat := base + DIR_ENTRY_SIZE * i

def dName (m : Memory) (base i : Nat) : List UInt8 :=
  load m (dirEntryAddr base i) MAX_FILE_NAME

def dInumber (m : Memory) (base i : Nat) : Int :=
  loadInt m (dirEntryAddr base i + MAX_FILE_NAME)

/-- `dir_entry[i].d_inumber = v`. -/
def setDInumber (m : Memory) (base i : Nat) (v : Int) : Memory :=
  storeInt m (dirEntryAddr base i + MAX_FILE_NAME) v

/-- `strncpy(dir_entry[i].d_name, sub_name, MAX_FILE_NAME - 1)`. -/
def copyDName (m : Memory) (base i : Nat) (sub_name : CString) : Memory :=
  store m (dirEntryAddr base i) (strncpy sub_name (MAX_FILE_NAME - 1))

/-- `dir_entry[i].d_name[MAX_FILE_NAME - 1] = 0`. -/
def endDName (m : Memory) (base i : Nat) : Memory :=
  store m (dirEntryAddr base i + (MAX_FILE_NAME - 1)) [0]

/-- The entry is live and holds this name, as `find_in_dir` tests it. -/
def entryMatches (m : Memory) (base : Nat) (sub_name : CString) (i : Nat) : Bool :=
  decide (dInumber m base i ≠ -1) && strncmpEq (dName m base i) sub_name.bytes MAX_FILE_NAME

/-- The loop of `find_in_dir`: the inode number of the first entry that matches. -/
def scanDir (m : Memory) (base : Nat) (sub_name : CString) : Int :=
  match (List.range MAX_DIR_ENTRIES).find? (entryMatches m base sub_name) with
  | some i => dInumber m base i
  | none => -1

/-- The loop of `add_dir_entry` up to its test: the first empty entry. -/
def firstEmptyEntry (m : Memory) (base : Nat) : Option Nat :=
  (List.range MAX_DIR_ENTRIES).find? fun i => decide (dInumber m base i = -1)

/-- The loop of `inode_create` for a directory: every entry is labelled -1. -/
def clearDir (m : Memory) (base : Nat) : Nat → Memory
  | 0 => m
  | n + 1 => setDInumber (clearDir m base n) base n (-1)

/-! ## What the scans read -/

theorem dInumber_congr {m m' : Memory} {base i : Nat} (hi : i < MAX_DIR_ENTRIES)
    (h : ∀ j < BLOCK_SIZE, m (base + j) = m' (base + j)) :
    dInumber m base i = dInumber m' base i := by
  unfold dInumber dirEntryAddr
  apply loadInt_congr
  intro j hj
  have := h (DIR_ENTRY_SIZE * i + MAX_FILE_NAME + j) (by
    simp only [MAX_DIR_ENTRIES, DIR_ENTRY_SIZE, MAX_FILE_NAME, BLOCK_SIZE] at *; omega)
  simpa only [Nat.add_assoc] using this

theorem dName_congr {m m' : Memory} {base i : Nat} (hi : i < MAX_DIR_ENTRIES)
    (h : ∀ j < BLOCK_SIZE, m (base + j) = m' (base + j)) :
    dName m base i = dName m' base i := by
  unfold dName dirEntryAddr
  apply load_congr
  intro j hj
  have := h (DIR_ENTRY_SIZE * i + j) (by
    simp only [MAX_DIR_ENTRIES, DIR_ENTRY_SIZE, MAX_FILE_NAME, BLOCK_SIZE] at *; omega)
  simpa only [Nat.add_assoc] using this

theorem entryMatches_congr {m m' : Memory} {base i : Nat} (sub_name : CString)
    (hi : i < MAX_DIR_ENTRIES) (h : ∀ j < BLOCK_SIZE, m (base + j) = m' (base + j)) :
    entryMatches m base sub_name i = entryMatches m' base sub_name i := by
  simp only [entryMatches, dInumber_congr hi h, dName_congr hi h]

/-- The scan reads the directory block only. -/
theorem scanDir_congr {m m' : Memory} {base : Nat} (sub_name : CString)
    (h : ∀ j < BLOCK_SIZE, m (base + j) = m' (base + j)) :
    scanDir m base sub_name = scanDir m' base sub_name := by
  unfold scanDir
  rw [List.find?_congr fun i hi => entryMatches_congr sub_name (List.mem_range.mp hi) h]
  rcases hf : (List.range MAX_DIR_ENTRIES).find? (entryMatches m' base sub_name) with _ | i
  · rfl
  · exact dInumber_congr (List.mem_range.mp (List.mem_of_find?_eq_some hf)) h

theorem firstEmptyEntry_congr {m m' : Memory} {base : Nat}
    (h : ∀ j < BLOCK_SIZE, m (base + j) = m' (base + j)) :
    firstEmptyEntry m base = firstEmptyEntry m' base := by
  unfold firstEmptyEntry
  exact List.find?_congr fun i hi => by rw [dInumber_congr (List.mem_range.mp hi) h]

/-- What a scan gives is the number of a live entry. -/
theorem scanDir_cases (m : Memory) (base : Nat) (sub_name : CString) :
    scanDir m base sub_name = -1 ∨
      ∃ i < MAX_DIR_ENTRIES, dInumber m base i ≠ -1 ∧
        scanDir m base sub_name = dInumber m base i := by
  unfold scanDir
  split
  · rename_i i hi
    have hm := List.find?_some hi
    simp only [entryMatches, Bool.and_eq_true, decide_eq_true_eq] at hm
    exact Or.inr ⟨i, List.mem_range.mp (List.mem_of_find?_eq_some hi), hm.1, rfl⟩
  · exact Or.inl rfl

/-- A cleared directory has empty entries only. -/
theorem clearDir_inumber (m : Memory) (base n i : Nat) (hi : i < n) :
    dInumber (clearDir m base n) base i = -1 := by
  induction n with
  | zero => omega
  | succ n ih =>
    unfold clearDir setDInumber
    by_cases he : i = n
    · subst he
      exact loadInt_storeInt_same _ _ _ (by omega) (by omega)
    · refine (loadInt_storeInt_disjoint _ _ _ _ ?_).trans (ih (by omega))
      unfold dirEntryAddr DIR_ENTRY_SIZE
      omega

/-! ## The three stores -/

section
variable (m : Memory) (base i j : Nat) (sub_inumber : Int) (sub_name : CString)

theorem dInumber_copy : dInumber (copyDName m base i sub_name) base j = dInumber m base j := by
  apply loadInt_congr
  intro k hk
  apply store_outside
  simp only [strncpy_length, dirEntryAddr, DIR_ENTRY_SIZE, MAX_FILE_NAME]
  omega

theorem dName_copy_of_ne (h : j ≠ i) :
    dName (copyDName m base i sub_name) base j = dName m base j := by
  apply load_congr
  intro k hk
  apply store_outside
  simp only [strncpy_length, dirEntryAddr, DIR_ENTRY_SIZE, MAX_FILE_NAME] at *
  omega

/-- The last byte of the name stays. -/
theorem dName_copy_self : ∃ b, dName (copyDName m base i sub_name) base i =
    strncpy sub_name (MAX_FILE_NAME - 1) ++ [b] := by
  have hname : load (copyDName m base i sub_name) (dirEntryAddr base i) 39 =
      strncpy sub_name (MAX_FILE_NAME - 1) := by
    have := load_store_same m (dirEntryAddr base i) (strncpy sub_name (MAX_FILE_NAME - 1))
    rwa [strncpy_length] at this
  refine ⟨copyDName m base i sub_name (dirEntryAddr base i + 39), ?_⟩
  unfold dName
  rw [show MAX_FILE_NAME = 39 + 1 from rfl, load_append, hname]
  rfl

theorem dInumber_set_of_ne (h : j ≠ i) :
    dInumber (setDInumber m base i sub_inumber) base j = dInumber m base j := by
  apply loadInt_storeInt_disjoint
  simp only [dirEntryAddr, DIR_ENTRY_SIZE, MAX_FILE_NAME]
  omega

theorem dInumber_set_self (hlo : -2 ^ 31 ≤ sub_inumber) (hhi : sub_inumber < 2 ^ 31) :
    dInumber (setDInumber m base i sub_inumber) base i = sub_inumber :=
  loadInt_storeInt_same _ _ _ hlo hhi

theorem dName_set : dName (setDInumber m base i sub_inumber) base j = dName m base j := by
  apply load_congr
  intro k hk
  apply storeInt_outside
  simp only [dirEntryAddr, DIR_ENTRY_SIZE, MAX_FILE_NAME] at *
  omega

theorem dInumber_end : dInumber (endDName m base i) base j = dInumber m base j := by
  apply loadInt_congr
  intro k hk
  apply store_outside
  simp only [List.length_singleton, dirEntryAddr, DIR_ENTRY_SIZE, MAX_FILE_NAME]
  omega

theorem dName_end_of_ne (h : j ≠ i) : dName (endDName m base i) base j = dName m base j := by
  apply load_congr
  intro k hk
  apply store_outside
  simp only [List.length_singleton, dirEntryAddr, DIR_ENTRY_SIZE, MAX_FILE_NAME] at *
  omega

theorem dName_end_self {xs : List UInt8} {b : UInt8} (h : dName m base i = xs ++ [b]) :
    dName (endDName m base i) base i = xs ++ [0] := by
  unfold dName at *
  rw [show MAX_FILE_NAME = 39 + 1 from rfl, load_append] at *
  obtain ⟨hxs, _⟩ := List.append_inj' h rfl
  have hkept : load (endDName m base i) (dirEntryAddr base i) 39 =
      load m (dirEntryAddr base i) 39 :=
    load_congr fun k hk => store_outside _ _ _ _ (Or.inl (by simp only [MAX_FILE_NAME]; omega))
  rw [hkept, hxs]
  exact congrArg _ (load_store_same m _ [0])

end

/-! ## One entry filled -/

/-- The directory after entry `i` was filled: the name, the inode number, the terminator. -/
def fillDirEntry (m : Memory) (base i : Nat) (sub_inumber : Int) (sub_name : CString) : Memory :=
  endDName (setDInumber (copyDName m base i sub_name) base i sub_inumber) base i

section
variable (m : Memory) (base i : Nat) (sub_inumber : Int) (sub_name : CString)

/-- Only the 44 bytes of the entry change. -/
theorem fillDirEntry_outside {a : Nat}
    (h : a < dirEntryAddr base i ∨ dirEntryAddr base i + DIR_ENTRY_SIZE ≤ a) :
    fillDirEntry m base i sub_inumber sub_name a = m a := by
  unfold DIR_ENTRY_SIZE at h
  unfold fillDirEntry endDName setDInumber copyDName MAX_FILE_NAME
  rw [store_outside _ _ _ _ (by simp; omega), storeInt_outside _ _ _ _ (by omega),
    store_outside _ _ _ _ (by simp; omega)]

/-- What lies outside the directory block stays. -/
theorem fillDirEntry_other_block {a : Nat} (hi : i < MAX_DIR_ENTRIES)
    (h : a < base ∨ base + BLOCK_SIZE ≤ a) :
    fillDirEntry m base i sub_inumber sub_name a = m a := by
  apply fillDirEntry_outside
  simp only [dirEntryAddr, DIR_ENTRY_SIZE, MAX_DIR_ENTRIES, BLOCK_SIZE] at *
  omega

theorem dInumber_fill_of_ne {j : Nat} (h : j ≠ i) :
    dInumber (fillDirEntry m base i sub_inumber sub_name) base j = dInumber m base j := by
  unfold fillDirEntry
  rw [dInumber_end, dInumber_set_of_ne _ _ _ _ _ h, dInumber_copy]

theorem dName_fill_of_ne {j : Nat} (h : j ≠ i) :
    dName (fillDirEntry m base i sub_inumber sub_name) base j = dName m base j := by
  unfold fillDirEntry
  rw [dName_end_of_ne _ _ _ _ h, dName_set, dName_copy_of_ne _ _ _ _ _ h]

theorem dInumber_fill_self (hlo : -2 ^ 31 ≤ sub_inumber) (hhi : sub_inumber < 2 ^ 31) :
    dInumber (fillDirEntry m base i sub_inumber sub_name) base i = sub_inumber := by
  unfold fillDirEntry
  rw [dInumber_end]
  exact dInumber_set_self _ _ _ _ hlo hhi

/-- The name of the filled entry: cut at 39 characters, filled with NULs and terminated. -/
theorem dName_fill_self :
    dName (fillDirEntry m base i sub_inumber sub_name) base i =
      strncpy sub_name (MAX_FILE_NAME - 1) ++ [0] := by
  obtain ⟨b, hb⟩ := dName_copy_self m base i sub_name
  apply dName_end_self _ _ _ (b := b)
  rw [dName_set]
  exact hb

end

/-- A live entry keeps its name and number when an empty entry is filled, so a scan that found
a live entry before every empty one finds it again. -/
theorem scanDir_fill_of_found {m : Memory} {base i : Nat} {sub_inumber : Int}
    {sub_name name : CString} (hempty : dInumber m base i = -1)
    (hlive : ∀ j, i < j → j < MAX_DIR_ENTRIES → dInumber m base j = -1)
    (hfound : scanDir m base name ≠ -1) :
    scanDir (fillDirEntry m base i sub_inumber sub_name) base name = scanDir m base name := by
  unfold scanDir at *
  rcases hf : (List.range MAX_DIR_ENTRIES).find? (entryMatches m base name) with _ | j
  · rw [hf] at hfound
    exact absurd rfl hfound
  · obtain ⟨h1, h2, h3⟩ := List.find?_range_eq_some.mp hf
    have hj : dInumber m base j ≠ -1 := by
      simp only [entryMatches, Bool.and_eq_true, decide_eq_true_eq] at h1
      exact h1.1
    have hlt : j < i := by
      by_contra hc
      rcases Nat.lt_or_ge i j with h | h
      · exact hj (hlive j h (List.mem_range.mp h2))
      · exact hj ((show j = i by omega) ▸ hempty)
    have hsame : ∀ k ≤ j, entryMatches (fillDirEntry m base i sub_inumber sub_name) base name k =
        entryMatches m base name k := fun k hk => by
      simp only [entryMatches, dInumber_fill_of_ne _ _ _ _ _ (show k ≠ i by omega),
        dName_fill_of_ne _ _ _ _ _ (show k ≠ i by omega)]
    have hf' : (List.range MAX_DIR_ENTRIES).find?
        (entryMatches (fillDirEntry m base i sub_inumber sub_name) base name) = some j := by
      rw [List.find?_range_eq_some]
      refine ⟨by rw [hsame j le_rfl]; exact h1, h2, fun k hk => ?_⟩
      rw [hsame k hk.le]
      exact h3 k hk
    rw [hf']
    exact dInumber_fill_of_ne _ _ _ _ _ (by omega)

theorem scanDir_none {m : Memory} {base : Nat} {name : CString} (h : scanDir m base name = -1) :
    ∀ k < MAX_DIR_ENTRIES, entryMatches m base name k = false := by
  unfold scanDir at h
  rcases hf : (List.range MAX_DIR_ENTRIES).find? (entryMatches m base name) with _ | j
  · intro k hk
    simpa using List.find?_range_eq_none.mp hf k hk
  · rw [hf] at h
    have hm := List.find?_some hf
    simp only [entryMatches, Bool.and_eq_true, decide_eq_true_eq] at hm
    exact absurd h hm.1

/-- A new name of at most 39 characters is found in the entry that was filled for it. -/
theorem scanDir_fill_new {m : Memory} {base i : Nat} {sub_inumber : Int} {name : CString}
    (hi : i < MAX_DIR_ENTRIES) (hnew : scanDir m base name = -1) (hlo : 0 ≤ sub_inumber)
    (hhi : sub_inumber < 2 ^ 31) (hname : name.strlen < MAX_FILE_NAME) :
    scanDir (fillDirEntry m base i sub_inumber name) base name = sub_inumber := by
  have hself := dInumber_fill_self m base i sub_inumber name (by omega) hhi
  have hmatch : entryMatches (fillDirEntry m base i sub_inumber name) base name i = true := by
    have hcopy := strncpy_short (Nat.le_sub_one_of_lt hname)
    simp only [entryMatches, hself, dName_fill_self, hcopy, CString.bytes, Bool.and_eq_true,
      decide_eq_true_eq]
    exact ⟨by omega, strncmpEq_self _ _ _ _ name.nul_free⟩
  have hfind : (List.range MAX_DIR_ENTRIES).find?
      (entryMatches (fillDirEntry m base i sub_inumber name) base name) = some i := by
    rw [List.find?_range_eq_some]
    refine ⟨hmatch, List.mem_range.mpr hi, fun k hk => ?_⟩
    have hold := scanDir_none hnew k (by omega)
    unfold entryMatches at hold ⊢
    rw [dInumber_fill_of_ne _ _ _ _ _ (by omega), dName_fill_of_ne _ _ _ _ _ (by omega), hold]
    rfl
  unfold scanDir
  rw [hfind]
  exact hself

end tecnicofs
