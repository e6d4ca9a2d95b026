-- Several opens that get their slots one after the other, and what may happen
-- before them without a change of the slots that they get.
import TecnicoFS.Common.Counting
import TecnicoFS.Parte1.Invariant

namespace tecnicofs.parte1

/-- `add_to_open_file_table` with the fields of an entry. -/
def addEntry (s : State) (e : OpenFileEntry) : Int × State :=
  addToOpenFileTable s e.of_inumber e.of_offset e.isAppending

/-- The state with slot `i` free again. -/
def release (s : State) (i : Nat) : State :=
  { s with free_open_file_entries := Function.update s.free_open_file_entries i .FREE }

theorem tfsClose_nat (s : State) {i : Nat} (hi : i < MAX_OPEN_FILES) :
    tfsClose s i =
      if s.free_open_file_entries i = .TAKEN then (0, release s i) else (-1, s) := by
  have hv : validFileHandle (i : Int) = true := by
    unfold validFileHandle
    rw [decide_eq_true_eq]
    omega
  unfold tfsClose removeFromOpenFileTable
  rw [hv, Int.toNat_natCast]
  split <;> simp_all [release]

theorem tfsClose_invalid (s : State) {fhandle : Int} (hno : ∀ i < MAX_OPEN_FILES, fhandle ≠ (i : Nat)) :
    tfsClose s fhandle = (-1, s) := by
  rcases tfsClose_cases s fhandle with hr | ⟨i, hi, heq, _⟩
  · exact hr
  · exact absurd heq (hno i hi)

/-- How many slots below `i` are free. -/
def freeBelow (s : State) (i : Nat) : Nat :=
  ((Finset.range i).filter fun j => s.free_open_file_entries j = .FREE).card

/-- An open gets the first free slot. -/
theorem addEntry_cases (s : State) (e : OpenFileEntry) :
    (addEntry s e = (-1, s) ∧ ∀ i < MAX_OPEN_FILES, s.free_open_file_entries i ≠ .FREE) ∨
      ∃ i < MAX_OPEN_FILES, s.free_open_file_entries i = .FREE ∧
        (∀ j < i, s.free_open_file_entries j ≠ .FREE) ∧ addEntry s e = ((i : Int), withHandle s i e) := by
  unfold addEntry addToOpenFileTable
  rcases claimEntry_cases s with ⟨hc, hno⟩ | ⟨i, hi, hfree, hfirst, hc⟩
  · rw [hc]
    exact Or.inl ⟨rfl, hno⟩
  · rw [hc]
    exact Or.inr ⟨i, hi, hfree, hfirst, rfl⟩

/-- The first free slot is the one that an open gets. -/
theorem addEntry_first {s : State} {i : Nat} (hi : i < MAX_OPEN_FILES)
    (hfree : s.free_open_file_entries i = .FREE)
    (hfirst : ∀ j < i, s.free_open_file_entries j ≠ .FREE) (e : OpenFileEntry) :
    addEntry s e = ((i : Int), withHandle s i e) := by
  rcases addEntry_cases s e with ⟨_, hno⟩ | ⟨k, hk, hkfree, hkfirst, hr⟩
  · exact absurd hfree (hno i hi)
  · rcases Nat.lt_trichotomy i k with hik | rfl | hik
    · exact absurd hfree (hkfirst i hik)
    · exact hr
    · exact absurd hkfree (hfirst k hik)

theorem addEntry_full {s : State} (h : ∀ i < MAX_OPEN_FILES, s.free_open_file_entries i ≠ .FREE)
    (e : OpenFileEntry) : addEntry s e = (-1, s) := by
  rcases addEntry_cases s e with ⟨hr, _⟩ | ⟨i, hi, hfree, _⟩
  · exact hr
  · exact absurd hfree (h i hi)

theorem exists_free_of_freeBelow {s : State} {i : Nat} (h : 0 < freeBelow s i) :
    ∃ j < i, s.free_open_file_entries j = .FREE := by
  obtain ⟨j, hj⟩ := Finset.card_pos.mp h
  rw [Finset.mem_filter, Finset.mem_range] at hj
  exact ⟨j, hj.1, hj.2⟩

theorem freeBelow_withHandle {s : State} {i j : Nat} (hj : j < i)
    (hfree : s.free_open_file_entries j = .FREE) (e : OpenFileEntry) :
    freeBelow (withHandle s j e) i + 1 = freeBelow s i :=
  freeAmong_take hj hfree

/-! ## A row of opens -/

section
variable (es : List OpenFileEntry)

theorem addEntries_setDisk (s : State) (d : Disk) :
    runs.run addEntry { s with disk := d } es =
      ((runs.run addEntry s es).1, { (runs.run addEntry s es).2 with disk := d }) := by
  induction es generalizing s with
  | nil => rfl
  | cons e es ih =>
    have hadd : addEntry { s with disk := d } e =
        ((addEntry s e).1, { (addEntry s e).2 with disk := d }) := by
      unfold addEntry addToOpenFileTable claimEntry
      cases (List.range MAX_OPEN_FILES).find? fun i =>
        decide (s.free_open_file_entries i = .FREE) <;> rfl
    simp only [runs.run, hadd, ih]

theorem addEntries_disk (s : State) : (runs.run addEntry s es).2.disk = s.disk := by
  have := congrArg (fun r => r.2.disk) (addEntries_setDisk es s s.disk)
  exact this

theorem addEntry_disk (s : State) (e : OpenFileEntry) : (addEntry s e).2.disk = s.disk :=
  addEntries_disk [e] s

/-- An entry of a taken slot can be written before or after. -/
theorem addEntries_fillEntry {s : State} {i : Nat} (ht : s.free_open_file_entries i = .TAKEN)
    (e : OpenFileEntry) :
    runs.run addEntry (fillEntry s i e) es =
      ((runs.run addEntry s es).1, fillEntry (runs.run addEntry s es).2 i e) := by
  induction es generalizing s with
  | nil => rfl
  | cons e' es ih =>
    rcases addEntry_cases s e' with ⟨hr, hno⟩ | ⟨k, hk, hfree, hfirst, hr⟩
    · have hr' := addEntry_full (s := fillEntry s i e) hno e'
      simp only [runs.run, hr, hr', ih ht]
    · have hki : k ≠ i := by
        rintro rfl
        rw [ht] at hfree
        cases hfree
      have hr' : addEntry (fillEntry s i e) e' = ((k : Int), fillEntry (withHandle s k e') i e) := by
        apply (addEntry_first (s := fillEntry s i e) hk hfree hfirst e').trans
        simp only [withHandle, fillEntry, Function.update_comm hki]
      have ht' : (withHandle s k e').free_open_file_entries i = .TAKEN := by
        simpa only [withHandle, Function.update_of_ne hki.symm] using ht
      simp only [runs.run, hr, hr', ih ht']

/-- A slot that is taken stays as it is. -/
theorem addEntries_taken {s : State} {i : Nat} (ht : s.free_open_file_entries i = .TAKEN) :
    (runs.run addEntry s es).2.free_open_file_entries i = .TAKEN ∧
      (runs.run addEntry s es).2.open_file_table i = s.open_file_table i := by
  induction es generalizing s with
  | nil => exact ⟨ht, rfl⟩
  | cons e es ih =>
    rcases addEntry_cases s e with ⟨hr, _⟩ | ⟨k, _, hfree, _, hr⟩
    · simp only [runs.run, hr]
      exact ih ht
    · have hik : i ≠ k := by
        rintro rfl
        rw [ht] at hfree
        cases hfree
      have ht' : (withHandle s k e).free_open_file_entries i = .TAKEN := by
        simpa only [withHandle, Function.update_of_ne hik] using ht
      obtain ⟨h1, h2⟩ := ih ht'
      simp only [runs.run, hr]
      refine ⟨h1, h2.trans ?_⟩
      simp only [withHandle, Function.update_of_ne hik]

/-- If there are enough free slots below, then a slot can become free before or after. -/
theorem addEntries_release {s : State} {i : Nat} (hi : i < MAX_OPEN_FILES)
    (hlen : es.length ≤ freeBelow s i) :
    runs.run addEntry (release s i) es =
      ((runs.run addEntry s es).1, release (runs.run addEntry s es).2 i) := by
  induction es generalizing s with
  | nil => rfl
  | cons e es ih =>
    rw [List.length_cons] at hlen
    obtain ⟨j, hji, hj⟩ := exists_free_of_freeBelow (s := s) (i := i) (by omega)
    rcases addEntry_cases s e with ⟨_, hno⟩ | ⟨k, hk, hfree, hfirst, hr⟩
    · exact absurd hj (hno j (by omega))
    have hki : k < i := by
      by_contra hc
      exact hfirst j (by omega) hj
    have hr' : addEntry (release s i) e = ((k : Int), release (withHandle s k e) i) := by
      refine (addEntry_first (s := release s i) hk ?_ (fun l hl => ?_) e).trans ?_
      · simpa only [release, Function.update_of_ne (Nat.ne_of_lt hki)] using hfree
      · simpa only [release, Function.update_of_ne (show l ≠ i by omega)] using hfirst l hl
      · simp only [withHandle, release, Function.update_comm (Nat.ne_of_lt hki)]
    have hcount := freeBelow_withHandle hki hfree e
    simp only [runs.run, hr, hr', ih (s := withHandle s k e) (by omega)]

/-- If there are enough free slots below, then a slot that is free stays free. -/
theorem addEntries_free {s : State} {i : Nat} (hi : i < MAX_OPEN_FILES)
    (hfree : s.free_open_file_entries i = .FREE) (hlen : es.length ≤ freeBelow s i) :
    (runs.run addEntry s es).2.free_open_file_entries i = .FREE := by
  have hsame : release s i = s := by
    unfold release
    rw [← hfree, Function.update_eq_self]
  have := addEntries_release es hi hlen
  rw [hsame] at this
  rw [this]
  exact Function.update_self ..

theorem addEntries_full {s : State}
    (h : ∀ i < MAX_OPEN_FILES, s.free_open_file_entries i ≠ .FREE) :
    runs.run addEntry s es = (es.map fun _ => -1, s) := by
  induction es with
  | nil => rfl
  | cons e es ih => simp only [runs.run, addEntry_full h e, ih, List.map_cons]

end

end tecnicofs.parte1
