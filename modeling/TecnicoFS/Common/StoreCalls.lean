-- The calls of both parts as calls of a store of files: which name a path stands
-- for, what the flags ask for, which number a call returns, and which handles an
-- open file table holds.
import TecnicoFS.Common.Basics
import TecnicoFS.Lib.FileStore
import Mathlib.Data.List.Find

namespace tecnicofs

open file_store

/-- The name behind the slash of a path that `valid_pathname` accepts. -/
def nameOf (path : Option CString) : Option CString :=
  if validPathname path then path.map CString.skip else none

def modeOf (flags : BitVec 32) : Mode :=
  ⟨hasFlag flags TFS_O_CREAT, hasFlag flags TFS_O_TRUNC, hasFlag flags TFS_O_APPEND⟩

/-- The return value: -1 for a failure. -/
def returned : Option Nat → Int
  | none => -1
  | some n => n

/-- The call creates no file, or one with a name of 1 to 39 characters. -/
def NameFits (path : Option CString) (flags : BitVec 32) : Prop :=
  hasFlag flags TFS_O_CREAT = true → ∃ p, path = some p ∧ validPathname (some p) = true ∧
    p.skip.strlen < MAX_FILE_NAME

instance (path : Option CString) (flags : BitVec 32) : Decidable (NameFits path flags) :=
  inferInstanceAs (Decidable (_ → ∃ p ∈ path, _ ∧ _))

theorem nameOf_valid {p : CString} (h : validPathname (some p) = true) :
    nameOf (some p) = some p.skip := by
  unfold nameOf
  rw [if_pos h]
  rfl

theorem nameOf_not_valid {path : Option CString} (h : validPathname path = false) :
    nameOf path = none := by
  unfold nameOf
  rw [if_neg (by simp [h])]

theorem valid_strlen {p : CString} (h : validPathname (some p) = true) :
    p.strlen ≠ 0 ∧ p.skip.strlen ≠ 0 := by
  simp only [validPathname, Bool.and_eq_true, decide_eq_true_eq] at h
  have hskip : p.skip.strlen = p.strlen - 1 := List.length_tail ..
  omega

/-! ## Calls on files -/

/-- A call as both libraries and the clients of the server have it. A write passes the bytes of its
buffer, and its length is their number. -/
inductive FileCall
  | tfsOpen (name : CString) (flags : BitVec 32)
  | tfsClose (fhandle : Int)
  | tfsRead (fhandle : Int) (len : Nat)
  | tfsWrite (fhandle : Int) (buffer : List UInt8)
  deriving DecidableEq

def FileCall.inStore : FileCall → Call CString UInt8
  | .tfsOpen name flags => .openFile (nameOf (some name)) (modeOf flags)
  | .tfsClose fhandle => .close fhandle.toNat?
  | .tfsRead fhandle len => .read fhandle.toNat? len
  | .tfsWrite fhandle buffer => .write fhandle.toNat? buffer

/-- What the call returns, and the bytes it gives. -/
def answerIn (l : Limits) (st : Store CString UInt8) (c : FileCall) :
    (Int × List UInt8) × Store CString UInt8 :=
  let r := exec l st c.inStore
  ((returned r.1.ret, r.1.bytes), r.2)

/-! ## Open file tables -/

/-- The handle in slot `i` of a table with these entries. -/
def slotIn (free : Nat → AllocationState) (entry : Nat → Handle) (i : Nat) : Option Handle :=
  if i < MAX_OPEN_FILES ∧ free i = .TAKEN then some (entry i) else none

section
variable {free : Nat → AllocationState} {entry : Nat → Handle}

theorem slotIn_eq_some {i : Nat} {h : Handle} :
    slotIn free entry i = some h ↔ i < MAX_OPEN_FILES ∧ free i = .TAKEN ∧ h = entry i := by
  unfold slotIn
  rw [Option.ite_none_right_eq_some, Option.some.injEq, and_assoc, eq_comm (a := h)]

theorem slotIn_isNone {i : Nat} (hi : i < MAX_OPEN_FILES) :
    (slotIn free entry i).isNone = decide (free i = .FREE) := by
  unfold slotIn
  rcases free i with _ | _ <;> simp [hi]

/-- An entry in slot `i`. -/
theorem slotIn_update {free' : Nat → AllocationState} {entry' : Nat → Handle} {i : Nat} {h : Handle}
    (hi : i < MAX_OPEN_FILES) (htaken : free' i = .TAKEN) (hfree : ∀ j, j ≠ i → free' j = free j)
    (hself : entry' i = h) (hother : ∀ j, j ≠ i → entry' j = entry j) (j : Nat) :
    slotIn free' entry' j = Function.update (slotIn free entry) i (some h) j := by
  by_cases hji : j = i
  · subst hji
    rw [Function.update_self, slotIn_eq_some]
    exact ⟨hi, htaken, hself.symm⟩
  · rw [Function.update_of_ne hji]
    unfold slotIn
    rw [hfree j hji, hother j hji]

theorem slotIn_release (free : Nat → AllocationState) (entry : Nat → Handle) (i j : Nat) :
    slotIn (Function.update free i .FREE) entry j =
      Function.update (slotIn free entry) i none j := by
  unfold slotIn
  by_cases hji : j = i
  · subst hji
    simp
  · simp [hji]

variable {st : Store CString UInt8} (hslot : ∀ i, st.handle i = slotIn free entry i)
include hslot

/-- The slot of a handle is a taken entry of the table. -/
theorem get_slotIn {fhandle : Int} {i : Nat} {h : Handle} :
    st.get fhandle.toNat? = some (i, h) ↔
      fhandle = i ∧ i < MAX_OPEN_FILES ∧ free i = .TAKEN ∧ h = entry i := by
  rw [get_eq_some, hslot i, slotIn_eq_some]
  exact and_congr_left' Int.mem_toNat?

theorem get_none_slotIn {fhandle : Int} (h : st.get fhandle.toNat? = none) {i : Nat}
    (hi : i < MAX_OPEN_FILES) (ht : free i = .TAKEN) : fhandle ≠ i := by
  intro he
  have hsome := (get_slotIn hslot).mpr ⟨he, hi, ht, rfl⟩
  rw [h] at hsome
  cases hsome

/-- The first free entry of the table is the first free slot of the store. -/
theorem addHandle_slotIn (l : Limits) (hl : l.maxHandles = MAX_OPEN_FILES) (h : Handle) :
    st.addHandle l h =
      match (List.range MAX_OPEN_FILES).find? fun i => decide (free i = .FREE) with
      | some i => (.number i, st.setHandle i (some h))
      | none => (.failed, st) := by
  have hsame : (List.range MAX_OPEN_FILES).find? (fun i => (st.handle i).isNone) =
      (List.range MAX_OPEN_FILES).find? fun i => decide (free i = .FREE) := by
    apply List.find?_congr
    intro i hi
    rw [hslot i, slotIn_isNone (List.mem_range.mp hi)]
  unfold Store.addHandle
  rcases hf : (List.range MAX_OPEN_FILES).find? fun i => decide (free i = .FREE) with _ | i
  · simp only [hl, hsame, hf]
  · simp only [hl, hsame, hf]

/-- The table in which slot `i` is set holds the handles of the store. -/
theorem setHandle_slotIn {free' : Nat → AllocationState} {entry' : Nat → Handle} {i : Nat}
    {h : Handle} (hi : i < MAX_OPEN_FILES) (htaken : free' i = .TAKEN)
    (hfree : ∀ j, j ≠ i → free' j = free j) (hself : entry' i = h)
    (hother : ∀ j, j ≠ i → entry' j = entry j) (j : Nat) :
    (st.setHandle i (some h)).handle j = slotIn free' entry' j := by
  rw [slotIn_update hi htaken hfree hself hother, ← funext hslot]
  rfl

theorem clearHandle_slotIn (i j : Nat) :
    (st.setHandle i none).handle j = slotIn (Function.update free i .FREE) entry j := by
  rw [slotIn_release, ← funext hslot]
  rfl

end

end tecnicofs
