-- The directory as a list of names: entry `k` holds the `k`-th name and the inode
-- `k + 1`, and the entries behind the last name are empty. No call takes an entry
-- away, so both parts keep it so.
import TecnicoFS.Common.Directory

open byte_memory

namespace tecnicofs

/-- The first `n` entries of the directory at `base` hold the inodes from 1 on, and the others are
empty. -/
structure DirFilled (m : Memory) (base n : Nat) : Prop where
  length_le : n ≤ MAX_DIR_ENTRIES
  inumber : ∀ k < n, dInumber m base k = (k + 1 : Nat)
  empty : ∀ k, n ≤ k → k < MAX_DIR_ENTRIES → dInumber m base k = -1

/-- The names of the directory at `base`, in the order of its entries. -/
structure DirLists (m : Memory) (base : Nat) (names : List CString) : Prop where
  filled : DirFilled m base names.length
  name : ∀ k (hk : k < names.length), ∃ xs, dName m base k = names[k].chars ++ 0 :: xs

/-! ## The numbers -/

section
variable {m : Memory} {base n : Nat} (h : DirFilled m base n)
include h

theorem DirFilled.live {k : Nat} (hk : k < n) : dInumber m base k ≠ -1 := by
  rw [h.inumber k hk]
  omega

theorem DirFilled.firstEmpty :
    firstEmptyEntry m base = if n < MAX_DIR_ENTRIES then some n else none := by
  unfold firstEmptyEntry
  split
  · rename_i hlt
    apply List.find?_range_eq_some.mpr
    refine ⟨decide_eq_true_eq.mpr (h.empty _ le_rfl hlt), List.mem_range.mpr hlt, fun j hj => ?_⟩
    simpa using h.live hj
  · apply List.find?_range_eq_none.mpr
    intro k hmax
    have := h.length_le
    simpa using h.live (k := k) (by omega)

theorem DirFilled.congr {m' : Memory} (hm : ∀ j < BLOCK_SIZE, m' (base + j) = m (base + j)) :
    DirFilled m' base n := by
  have hle := h.length_le
  refine ⟨hle, fun k hk => ?_, fun k hk hmax => ?_⟩
  · rw [dInumber_congr (by omega) hm]
    exact h.inumber k hk
  · rw [dInumber_congr hmax hm]
    exact h.empty k hk hmax

/-- The next file goes into the first empty entry, whatever its name is. -/
theorem DirFilled.fill (name : CString) (hroom : n < MAX_DIR_ENTRIES) :
    DirFilled (fillDirEntry m base n ((n + 1 : Nat) : Int) name) base (n + 1) := by
  refine ⟨hroom, fun k hk => ?_, fun k hk hmax => ?_⟩
  · by_cases hkn : k = n
    · rw [hkn]
      exact dInumber_fill_self _ _ _ _ _ (by omega) (by unfold MAX_DIR_ENTRIES at hroom; omega)
    · rw [dInumber_fill_of_ne _ _ _ _ _ hkn]
      exact h.inumber k (by omega)
  · rw [dInumber_fill_of_ne _ _ _ _ _ (by omega)]
    exact h.empty k (by omega) hmax

end

/-- A cleared directory holds nothing. -/
theorem clearDir_filled (m : Memory) (base : Nat) :
    DirFilled (clearDir m base MAX_DIR_ENTRIES) base 0 where
  length_le := Nat.zero_le _
  inumber := fun _ hk => absurd hk (Nat.not_lt_zero _)
  empty := fun k _ hk => clearDir_inumber m base _ k hk

/-! ## The names -/

section
variable {m : Memory} {base : Nat} {names : List CString} (h : DirLists m base names)
include h

theorem DirLists.strlen_lt {k : Nat} (hk : k < names.length) : names[k].strlen < MAX_FILE_NAME := by
  obtain ⟨xs, hxs⟩ := h.name k hk
  have hlen := congrArg List.length hxs
  simp only [dName, load_length, List.length_append, List.length_cons] at hlen
  unfold CString.strlen
  omega

/-- An entry matches the name that it lists, and no other one. -/
theorem DirLists.matches_iff {k : Nat} (hk : k < names.length) (name : CString) :
    entryMatches m base name k = true ↔ names[k] = name := by
  obtain ⟨xs, hxs⟩ := h.name k hk
  unfold entryMatches CString.bytes
  rw [hxs, Bool.and_eq_true, decide_eq_true_eq, and_iff_right (h.filled.live hk),
    strncmpEq_iff names[k].nul_free name.nul_free (h.strlen_lt hk)]
  constructor
  · intro he
    cases hn : names[k]
    cases name
    rw [hn] at he
    simp only at he
    simp only [he]
  · intro he
    rw [he]

theorem DirLists.not_matches {k : Nat} (hk : names.length ≤ k) (hmax : k < MAX_DIR_ENTRIES)
    (name : CString) : entryMatches m base name k = false := by
  unfold entryMatches
  rw [h.filled.empty k hk hmax]
  rfl

/-- The scan finds the number of the first entry with the name. -/
theorem DirLists.scan (name : CString) :
    scanDir m base name =
      match names.findIdx? fun n => decide (n = name) with
      | some k => ((k + 1 : Nat) : Int)
      | none => -1 := by
  have hle := h.filled.length_le
  unfold scanDir
  rcases hf : names.findIdx? fun n => decide (n = name) with _ | k
  · have hnone : (List.range MAX_DIR_ENTRIES).find? (entryMatches m base name) = none := by
      apply List.find?_range_eq_none.mpr
      intro k hmax
      rcases Nat.lt_or_ge k names.length with hk | hk
      · have hne := List.findIdx?_eq_none_iff.mp hf names[k] (List.getElem_mem hk)
        rw [decide_eq_false_iff_not, ← h.matches_iff hk] at hne
        simpa using hne
      · simp only [h.not_matches hk hmax, Bool.not_false]
    rw [hnone]
  · obtain ⟨hk, he, hfirst⟩ := List.findIdx?_eq_some_iff_getElem.mp hf
    have hsome : (List.range MAX_DIR_ENTRIES).find? (entryMatches m base name) = some k := by
      apply List.find?_range_eq_some.mpr
      refine ⟨(h.matches_iff hk name).mpr (decide_eq_true_eq.mp he), List.mem_range.mpr (by omega),
        fun j hj => ?_⟩
      have hne := hfirst j hj
      rw [decide_eq_true_eq, ← h.matches_iff (by omega)] at hne
      simpa using hne
    rw [hsome]
    exact h.filled.inumber k hk

theorem DirLists.congr {m' : Memory} (hm : ∀ j < BLOCK_SIZE, m' (base + j) = m (base + j)) :
    DirLists m' base names := by
  have hle := h.filled.length_le
  refine ⟨h.filled.congr hm, fun k hk => ?_⟩
  rw [dName_congr (by omega) hm]
  exact h.name k hk

/-- A name of at most 39 characters is listed behind the others. -/
theorem DirLists.fill {name : CString} (hroom : names.length < MAX_DIR_ENTRIES)
    (hname : name.strlen < MAX_FILE_NAME) :
    DirLists (fillDirEntry m base names.length ((names.length + 1 : Nat) : Int) name) base
      (names ++ [name]) := by
  have hlen : (names ++ [name]).length = names.length + 1 := by simp
  refine ⟨hlen ▸ h.filled.fill name hroom, fun k hk => ?_⟩
  by_cases hkn : k = names.length
  · subst hkn
    refine ⟨List.replicate (MAX_FILE_NAME - 1 - name.strlen) 0, ?_⟩
    rw [dName_fill_self, strncpy_short (Nat.le_sub_one_of_lt hname), List.getElem_append_right le_rfl]
    simp
  · rw [dName_fill_of_ne _ _ _ _ _ hkn, List.getElem_append_left (by omega)]
    exact h.name k (by omega)

end

theorem clearDir_lists (m : Memory) (base : Nat) :
    DirLists (clearDir m base MAX_DIR_ENTRIES) base [] :=
  ⟨clearDir_filled m base, fun _ hk => absurd hk (Nat.not_lt_zero _)⟩

end tecnicofs
