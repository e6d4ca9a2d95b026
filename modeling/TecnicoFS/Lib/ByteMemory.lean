-- A flat memory of bytes: `memcpy` into it and out of it, and the 32-bit
-- integers of C, little-endian and in two's complement.
import Mathlib.Logic.Function.Basic
import Mathlib.Data.List.GetD
import Mathlib.Tactic.SplitIfs
import Mathlib.Algebra.Ring.Int.Defs
import Mathlib.Algebra.Ring.Nat

namespace byte_memory

/-- The byte at each address. -/
abbrev Memory := Nat → UInt8

/-- The memory after a `memcpy` of the bytes `bs` to address `a`. -/
def store (m : Memory) (a : Nat) (bs : List UInt8) : Memory :=
  fun x => if a ≤ x ∧ x < a + bs.length then bs.getD (x - a) 0 else m x

/-- The `n` bytes from address `a` on. -/
def load (m : Memory) (a n : Nat) : List UInt8 := (List.range n).map fun i => m (a + i)

theorem store_outside (m : Memory) (a x : Nat) (bs : List UInt8)
    (h : x < a ∨ a + bs.length ≤ x) : store m a bs x = m x := by
  unfold store
  rw [if_neg (by omega)]

theorem store_at (m : Memory) (a i : Nat) (bs : List UInt8) (h : i < bs.length) :
    store m a bs (a + i) = bs[i] := by
  unfold store
  rw [if_pos (by omega), Nat.add_sub_cancel_left, List.getD_eq_getElem _ _ h]

@[simp] theorem store_nil (m : Memory) (a : Nat) : store m a [] = m := by
  funext x
  exact store_outside m a x [] (by simp; omega)

theorem store_singleton (m : Memory) (a : Nat) (b : UInt8) :
    store m a [b] = Function.update m a b := by
  funext x
  by_cases hx : x = a
  · subst hx
    simpa using store_at m x 0 [b] (by simp)
  · rw [Function.update_of_ne hx]
    exact store_outside m a x [b] (by simp; omega)

theorem store_append (m : Memory) (a : Nat) (xs ys : List UInt8) :
    store m a (xs ++ ys) = store (store m a xs) (a + xs.length) ys := by
  funext x
  unfold store
  simp only [List.length_append]
  split_ifs with h1 h2 h3 h4 h5
  · rw [List.getD_append_right _ _ _ _ (by omega)]
    congr 1
    omega
  · rw [List.getD_append _ _ _ _ (by omega)]
  · omega
  · omega
  · omega
  · rfl

/-- Two copies to places apart can be done in either order. -/
theorem store_comm (m : Memory) (a b : Nat) (xs ys : List UInt8)
    (h : a + xs.length ≤ b ∨ b + ys.length ≤ a) :
    store (store m a xs) b ys = store (store m b ys) a xs := by
  funext x
  unfold store
  split_ifs <;> first | rfl | omega

/-- Where two memories agree, they agree after the same `memcpy`. -/
theorem store_congr {m m' : Memory} {x : Nat} (a : Nat) (bs : List UInt8) (h : m x = m' x) :
    store m a bs x = store m' a bs x := by
  unfold store
  split
  · rfl
  · exact h

/-! ## Edits -/

/-- The edit of the memory makes each byte from the old byte at the same address. -/
def Local (e : Memory → Memory) : Prop := ∀ m m' x, m x = m' x → e m x = e m' x

/-- The edit leaves the byte at `x` alone, in any memory. -/
def Spares (e : Memory → Memory) (x : Nat) : Prop := ∀ m, e m x = m x

theorem local_id : Local id := fun _ _ _ h => h

theorem Local.comp {e e' : Memory → Memory} (h : Local e) (h' : Local e') : Local (e ∘ e') :=
  fun m m' x hx => h _ _ x (h' m m' x hx)

theorem Spares.comp {e e' : Memory → Memory} {x : Nat} (h : Spares e x) (h' : Spares e' x) :
    Spares (e ∘ e') x :=
  fun m => (h _).trans (h' m)

theorem local_store (a : Nat) (bs : List UInt8) : Local fun m => store m a bs :=
  fun _ _ _ h => store_congr a bs h

/-- Two edits commute if each address is spared by one of them. -/
theorem Local.comm {e e' : Memory → Memory} (h : Local e) (h' : Local e')
    (hd : ∀ x, Spares e x ∨ Spares e' x) (m : Memory) : e (e' m) = e' (e m) := by
  funext x
  rcases hd x with hx | hx
  · rw [hx (e' m)]
    exact h' m (e m) x (hx m).symm
  · rw [hx (e m)]
    exact h (e' m) m x (hx m)

@[simp] theorem load_length (m : Memory) (a n : Nat) : (load m a n).length = n := by
  simp [load]

theorem load_getElem? (m : Memory) (a n p : Nat) :
    (load m a n)[p]? = if p < n then some (m (a + p)) else none := by
  unfold load
  rw [List.getElem?_map]
  split
  · rename_i hp
    rw [List.getElem?_range hp]
    rfl
  · rename_i hp
    rw [List.getElem?_eq_none (by rw [List.length_range]; omega)]
    rfl

theorem load_congr {m m' : Memory} {a n : Nat} (h : ∀ i < n, m (a + i) = m' (a + i)) :
    load m a n = load m' a n := by
  unfold load
  apply List.map_congr_left
  intro i hi
  exact h i (List.mem_range.mp hi)

theorem load_append (m : Memory) (a n k : Nat) :
    load m a (n + k) = load m a n ++ load m (a + n) k := by
  unfold load
  rw [List.range_add, List.map_append, List.map_map]
  simp [Function.comp_def, Nat.add_assoc]

/-- A part of what a load gives is a load of its own. -/
theorem load_slice (m : Memory) (a k : Nat) {n o : Nat} (h : o ≤ n) :
    ((load m a n).drop o).take k = load m (a + o) (min k (n - o)) := by
  have hsplit := load_append m a o (n - o)
  rw [Nat.add_sub_cancel' h] at hsplit
  rw [hsplit, List.drop_left' (load_length m a o)]
  unfold load
  rw [← List.map_take, List.take_range]

/-- A load of the bytes just stored gives them back. -/
theorem load_store_same (m : Memory) (a : Nat) (bs : List UInt8) :
    load (store m a bs) a bs.length = bs := by
  apply List.ext_getElem
  · simp
  · intro i _ hi
    simp [load, store_at m a i bs hi]

theorem load_store_disjoint (m : Memory) (a b n : Nat) (bs : List UInt8)
    (h : b + n ≤ a ∨ a + bs.length ≤ b) : load (store m a bs) b n = load m b n := by
  apply load_congr
  intro i hi
  exact store_outside m a _ bs (by omega)

/-! ## The integers of C -/

/-- The four bytes of an `int`, the lowest one first. -/
def intBytes (v : Int) : List UInt8 :=
  let n := (v % 2 ^ 32).toNat
  [UInt8.ofNat n, UInt8.ofNat (n / 256), UInt8.ofNat (n / 65536), UInt8.ofNat (n / 16777216)]

/-- The `int` at address `a`. -/
def loadInt (m : Memory) (a : Nat) : Int :=
  let n := (m a).toNat + 256 * (m (a + 1)).toNat + 65536 * (m (a + 2)).toNat +
    16777216 * (m (a + 3)).toNat
  if n < 2 ^ 31 then n else (n : Int) - 2 ^ 32

def storeInt (m : Memory) (a : Nat) (v : Int) : Memory := store m a (intBytes v)

@[simp] theorem intBytes_length (v : Int) : (intBytes v).length = 4 := by simp [intBytes]

theorem loadInt_congr {m m' : Memory} {a : Nat} (h : ∀ i < 4, m (a + i) = m' (a + i)) :
    loadInt m a = loadInt m' a := by
  have h0 := h 0 (by omega)
  have h1 := h 1 (by omega)
  have h2 := h 2 (by omega)
  have h3 := h 3 (by omega)
  simp only [Nat.add_zero] at h0
  simp only [loadInt, h0, h1, h2, h3]

/-- An `int` that was stored is loaded back, if it fits in 32 bits. -/
theorem loadInt_storeInt_same (m : Memory) (a : Nat) (v : Int)
    (hlo : -2 ^ 31 ≤ v) (hhi : v < 2 ^ 31) : loadInt (storeInt m a v) a = v := by
  have h0 : storeInt m a v (a + 0) = (intBytes v)[0] := store_at m a 0 _ (by simp)
  have h1 : storeInt m a v (a + 1) = (intBytes v)[1] := store_at m a 1 _ (by simp)
  have h2 : storeInt m a v (a + 2) = (intBytes v)[2] := store_at m a 2 _ (by simp)
  have h3 : storeInt m a v (a + 3) = (intBytes v)[3] := store_at m a 3 _ (by simp)
  simp only [Nat.add_zero] at h0
  simp only [loadInt, h0, h1, h2, h3, intBytes, List.getElem_cons_zero, List.getElem_cons_succ,
    UInt8.toNat_ofNat']
  split <;> omega

theorem loadInt_store_outside (m : Memory) (a b : Nat) (bs : List UInt8)
    (h : b + 4 ≤ a ∨ a + bs.length ≤ b) : loadInt (store m a bs) b = loadInt m b := by
  apply loadInt_congr
  intro i hi
  exact store_outside m a _ bs (by omega)

theorem storeInt_outside (m : Memory) (a x : Nat) (v : Int) (h : x < a ∨ a + 4 ≤ x) :
    storeInt m a v x = m x :=
  store_outside m a x _ (by simpa using h)

theorem loadInt_storeInt_disjoint (m : Memory) (a b : Nat) (v : Int)
    (h : b + 4 ≤ a ∨ a + 4 ≤ b) : loadInt (storeInt m a v) b = loadInt m b :=
  loadInt_store_outside m a b _ (by simpa using h)

/-! ## The unsigned numbers of C -/

/-- The `k` bytes of a number, the lowest one first. -/
def natBytes : Nat → Nat → List UInt8
  | 0, _ => []
  | k + 1, n => UInt8.ofNat n :: natBytes k (n / 256)

/-- The number in the `k` bytes at address `a`. -/
def loadNat (m : Memory) (a : Nat) : Nat → Nat
  | 0 => 0
  | k + 1 => (m a).toNat + 256 * loadNat m (a + 1) k

@[simp] theorem natBytes_length (k n : Nat) : (natBytes k n).length = k := by
  induction k generalizing n with
  | zero => rfl
  | succ k ih => rw [natBytes, List.length_cons, ih]

theorem loadNat_congr {m m' : Memory} {a k : Nat} (h : ∀ i < k, m (a + i) = m' (a + i)) :
    loadNat m a k = loadNat m' a k := by
  induction k generalizing a with
  | zero => rfl
  | succ k ih =>
    have h0 := h 0 (by omega)
    have hrest : ∀ i < k, m (a + 1 + i) = m' (a + 1 + i) := by
      intro i hi
      rw [Nat.add_assoc, Nat.add_comm 1 i]
      exact h (i + 1) (by omega)
    rw [Nat.add_zero] at h0
    rw [loadNat, loadNat, h0, ih hrest]

theorem loadNat_store_outside (m : Memory) (a b k : Nat) (bs : List UInt8)
    (h : b + k ≤ a ∨ a + bs.length ≤ b) : loadNat (store m a bs) b k = loadNat m b k := by
  apply loadNat_congr
  intro i hi
  exact store_outside m a _ bs (by omega)

/-- A number that was stored is loaded back, if it fits in its bytes. -/
theorem loadNat_store_same (m : Memory) (a k n : Nat) (hn : n < 256 ^ k) :
    loadNat (store m a (natBytes k n)) a k = n := by
  induction k generalizing m a n with
  | zero =>
    rw [Nat.pow_zero, Nat.lt_one_iff] at hn
    exact hn.symm
  | succ k ih =>
    have hfirst : store m a (natBytes (k + 1) n) a = UInt8.ofNat n := by
      exact store_at m a 0 (natBytes (k + 1) n) (by simp)
    have hrest : store m a (natBytes (k + 1) n) =
        store (store m a [UInt8.ofNat n]) (a + 1) (natBytes k (n / 256)) :=
      store_append m a [UInt8.ofNat n] (natBytes k (n / 256))
    have hlt : n / 256 < 256 ^ k := by
      apply Nat.div_lt_of_lt_mul
      rwa [Nat.pow_succ, Nat.mul_comm] at hn
    rw [loadNat, hfirst, hrest, ih _ _ _ hlt, UInt8.toNat_ofNat']
    omega

end byte_memory
