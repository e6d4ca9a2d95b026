-- What the two parts of the project share: the constants of `config.h`, the
-- small types of `state.h`, the integers and the strings of C, and the flags
-- of `tfs_open`.
import Mathlib.Data.List.TakeWhile
import Mathlib.Logic.Function.Basic
import Mathlib.Tactic.SplitIfs
import Mathlib.Algebra.Ring.Int.Defs
import Mathlib.Algebra.Ring.Nat

namespace tecnicofs

/-! ## The constants of `config.h` that are the same in both parts -/

abbrev ROOT_DIR_INUM : Nat := 0
abbrev BLOCK_SIZE : Nat := 1024
abbrev DATA_BLOCKS : Nat := 1024
abbrev INODE_TABLE_SIZE : Nat := 50
abbrev MAX_OPEN_FILES : Nat := 20
abbrev MAX_FILE_NAME : Nat := 40

/-! ## Types of `state.h` -/

inductive AllocationState
  | FREE
  | TAKEN
  deriving DecidableEq, Repr

inductive InodeType
  | T_FILE
  | T_DIRECTORY
  deriving DecidableEq, Repr

/-! ## Unsigned sizes -/

/-- The value of `n` as a `size_t` of 64 bits: sums and differences wrap. -/
def sizeT (n : Int) : Nat := (n % 2 ^ 64).toNat

/-- The cast of a `size_t` to `ssize_t`. -/
def ssizeT (n : Nat) : Int := if n < 2 ^ 63 then n else (n : Int) - 2 ^ 64

theorem sizeT_nat {n : Nat} (h : n < 2 ^ 64) : sizeT (n : Int) = n := by unfold sizeT; omega

theorem sizeT_sub {a b : Nat} (h : b ≤ a) (ha : a < 2 ^ 64) : sizeT ((a : Int) - b) = a - b := by
  unfold sizeT; omega

/-- A difference below zero wraps to the top of the range. -/
theorem sizeT_sub_wrap {a b : Nat} (h : a < b) (hb : b < 2 ^ 64) :
    sizeT ((a : Int) - b) = a + 2 ^ 64 - b := by
  unfold sizeT; omega

theorem ssizeT_of_lt {n : Nat} (h : n < 2 ^ 63) : ssizeT n = n := by
  unfold ssizeT; rw [if_pos h]

/-! ## Return values -/

/-- Success is not failure. -/
theorem zero_ne_neg_one : ¬ (0 : Int) = -1 := by decide

/-- No file has the inode number -1. -/
theorem not_zero_le_neg_one : ¬ (0 : Int) ≤ -1 := by decide

/-! ## Searches -/

/-- The search for a free place ends at the first place if that one is free. -/
theorem find?_range_first {n : Nat} {p : Nat → Bool} (hn : 0 < n) (hp : p 0 = true) :
    (List.range n).find? p = some 0 := by
  apply List.find?_range_eq_some.mpr
  refine ⟨hp, List.mem_range.mpr hn, fun j hj => ?_⟩
  omega

/-! ## Strings -/

/-- A C string: the characters before the terminator. -/
structure CString where
  chars : List UInt8
  nul_free : 0 ∉ chars
  deriving DecidableEq

def CString.strlen (s : CString) : Nat := s.chars.length

/-- The characters and the terminator, as they lie in memory. -/
def CString.bytes (s : CString) : List UInt8 := s.chars ++ [0]

/-- `name + 1`, for a name that is not empty. -/
def CString.skip (s : CString) : CString :=
  ⟨s.chars.tail, fun h => s.nul_free (List.mem_of_mem_tail h)⟩

/-- The bytes that `strncpy(dst, src, n)` writes: `src` cut at `n` characters and filled with
NULs up to `n`. -/
def strncpy (src : CString) (n : Nat) : List UInt8 :=
  src.chars.take n ++ List.replicate (n - src.chars.length) 0

/-- `strncmp(s1, s2, n) == 0`, on the bytes that lie at `s1` and `s2`. The comparison stops
after `n` characters or at a common NUL. -/
def strncmpEq : List UInt8 → List UInt8 → Nat → Bool
  | _, _, 0 => true
  | a :: as, b :: bs, n + 1 =>
    if a ≠ b then false else if a = 0 then true else strncmpEq as bs n
  | _, _, _ + 1 => false

def slash : UInt8 := 47

/-- The check of both parts: not NULL, longer than one character, and absolute. -/
def validPathname : Option CString → Bool
  | none => false
  | some name => decide (1 < name.strlen) && decide (name.chars.head? = some slash)

@[simp] theorem strncpy_length (src : CString) (n : Nat) : (strncpy src n).length = n := by
  simp [strncpy]; omega

/-- A string that fits is copied with all its characters. -/
theorem strncpy_short {src : CString} {n : Nat} (h : src.strlen ≤ n) :
    strncpy src n ++ [0] = src.chars ++ 0 :: List.replicate (n - src.strlen) 0 := by
  unfold CString.strlen at *
  unfold strncpy
  rw [List.take_of_length_le h, List.append_assoc, ← List.replicate_succ', List.replicate_succ]

theorem takeWhile_of_nul_free {cs : List UInt8} (h : 0 ∉ cs) : cs.takeWhile (· ≠ 0) = cs := by
  apply List.takeWhile_eq_self_iff.mpr
  intro c hc
  rw [decide_eq_true_eq]
  rintro rfl
  exact h hc

/-- A string in memory ends at its first NUL. -/
theorem takeWhile_nul {cs : List UInt8} (h : 0 ∉ cs) (xs : List UInt8) :
    (cs ++ 0 :: xs).takeWhile (· ≠ 0) = cs := by
  rw [List.takeWhile_append, takeWhile_of_nul_free h, if_pos rfl,
    List.takeWhile_cons_of_neg (by simp), List.append_nil]

/-- A name compares equal to itself, as far as it is compared and whatever lies behind its
terminator. -/
theorem strncmpEq_self (cs xs ys : List UInt8) (n : Nat) (h : 0 ∉ cs) :
    strncmpEq (cs ++ 0 :: xs) (cs ++ 0 :: ys) n = true := by
  induction cs generalizing n with
  | nil => cases n <;> simp [strncmpEq]
  | cons c cs ih =>
    cases n with
    | zero => rfl
    | succ n =>
      simp only [List.mem_cons, not_or] at h
      simp [strncmpEq, Ne.symm h.1, ih n h.2]

/-- A terminated name of fewer than `n` characters compares equal to itself only. -/
theorem strncmpEq_iff {cs ds xs : List UInt8} {n : Nat} (hc : 0 ∉ cs) (hd : 0 ∉ ds)
    (hn : cs.length < n) : strncmpEq (cs ++ 0 :: xs) (ds ++ [0]) n = true ↔ ds = cs := by
  induction cs generalizing ds n with
  | nil =>
    obtain ⟨m, rfl⟩ : ∃ m, n = m + 1 := ⟨n - 1, by simp only [List.length_nil] at hn; omega⟩
    cases ds with
    | nil => simp [strncmpEq]
    | cons d ds =>
      rw [List.mem_cons, not_or] at hd
      simp [strncmpEq, hd.1]
  | cons c cs ih =>
    obtain ⟨m, rfl⟩ : ∃ m, n = m + 1 := ⟨n - 1, by simp only [List.length_cons] at hn; omega⟩
    rw [List.mem_cons, not_or] at hc
    rw [List.length_cons, Nat.add_lt_add_iff_right] at hn
    cases ds with
    | nil => simp [strncmpEq, Ne.symm hc.1]
    | cons d ds =>
      rw [List.mem_cons, not_or] at hd
      have hrest := ih hc.2 hd.2 hn
      by_cases hcd : c = d
      · subst hcd
        simp [strncmpEq, Ne.symm hc.1, hrest]
      · simp [strncmpEq, hcd, Ne.symm hcd]

/-! ## Flags of `tfs_open` -/

def TFS_O_CREAT : BitVec 32 := 0b001
def TFS_O_TRUNC : BitVec 32 := 0b010
def TFS_O_APPEND : BitVec 32 := 0b100

/-- `flags & flag`, as a condition. -/
def hasFlag (flags flag : BitVec 32) : Bool := flags &&& flag != 0

end tecnicofs
