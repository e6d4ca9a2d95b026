-- A file laid out in blocks of a flat memory: a map gives the block that
-- holds each run of `B` bytes of the file. Stores and loads at positions of
-- the file, byte by byte, and the same stores and loads as chunks of blocks.
import TecnicoFS.Lib.ByteMemory

open byte_memory

namespace block_map

section
variable (B : Nat) (bm : Nat → Nat)

/-- The address of position `p` of the file. -/
def addr (p : Nat) : Nat := bm (p / B) * B + p % B

/-- The memory after the bytes `bs` are stored from position `p` of the file on. -/
def fileStore (m : Memory) (p : Nat) : List UInt8 → Memory
  | [] => m
  | b :: bs => fileStore (Function.update m (addr B bm p) b) (p + 1) bs

/-- The `n` bytes of the file from position `p` on. -/
def fileLoad (m : Memory) (p n : Nat) : List UInt8 :=
  (List.range n).map fun i => m (addr B bm (p + i))

/-- No block below index `n` of the map stands at two places of the file. -/
def InjBelow (n : Nat) : Prop := ∀ j < n, ∀ k < n, bm j = bm k → j = k

end

variable {B : Nat} {bm : Nat → Nat}

theorem addr_div (hB : 0 < B) (p : Nat) : addr B bm p / B = bm (p / B) := by
  unfold addr
  rw [Nat.mul_comm, Nat.mul_add_div hB, Nat.div_eq_of_lt (Nat.mod_lt p hB), Nat.add_zero]

theorem addr_mod (p : Nat) : addr B bm p % B = p % B := by
  unfold addr
  rw [Nat.mul_comm, Nat.mul_add_mod, Nat.mod_mod]

/-- Positions in different blocks, or at different places of one block, have
different addresses. -/
theorem addr_inj {n p q : Nat} (hB : 0 < B) (hi : InjBelow bm n) (hp : p / B < n) (hq : q / B < n)
    (h : addr B bm p = addr B bm q) : p = q := by
  have hd : bm (p / B) = bm (q / B) := by
    rw [← @addr_div B bm hB p, ← @addr_div B bm hB q, h]
  have hm : p % B = q % B := by rw [← @addr_mod B bm p, ← @addr_mod B bm q, h]
  have hk := hi _ hp _ hq hd
  rw [← Nat.div_add_mod p B, ← Nat.div_add_mod q B, hk, hm]

theorem addr_congr {bm' : Nat → Nat} {p : Nat} (h : bm (p / B) = bm' (p / B)) :
    addr B bm p = addr B bm' p := by
  simp only [addr, h]

/-- Inside one block, the addresses follow each other. -/
theorem addr_add {p i : Nat} (h : p % B + i < B) : addr B bm (p + i) = addr B bm p + i := by
  have hB : 0 < B := by omega
  have hp := Nat.div_add_mod p B
  have hd : (p + i) / B = p / B := by
    rw [← hp, Nat.add_assoc, Nat.mul_add_div hB, Nat.div_eq_of_lt h, Nat.mul_add_div hB,
      Nat.div_eq_of_lt (Nat.mod_lt p hB)]
  have hm : (p + i) % B = p % B + i := by
    rw [← hp, Nat.add_assoc, Nat.mul_add_mod, Nat.mod_eq_of_lt h, Nat.mul_add_mod, Nat.mod_mod]
  simp only [addr, hd, hm, Nat.add_assoc]

/-! ## Stores -/

theorem fileStore_append (m : Memory) (p : Nat) (xs ys : List UInt8) :
    fileStore B bm m p (xs ++ ys) = fileStore B bm (fileStore B bm m p xs) (p + xs.length) ys := by
  induction xs generalizing m p with
  | nil => rfl
  | cons x xs ih =>
    simp only [List.cons_append, fileStore, ih, List.length_cons]
    congr 1
    omega

/-- A chunk inside one block is one `memcpy`. -/
theorem fileStore_chunk (m : Memory) (p : Nat) (bs : List UInt8) (h : p % B + bs.length ≤ B) :
    fileStore B bm m p bs = store m (addr B bm p) bs := by
  induction bs generalizing m p with
  | nil => simp [fileStore]
  | cons b bs ih =>
    simp only [List.length_cons] at h
    rw [← List.singleton_append, store_append, store_singleton]
    simp only [List.singleton_append, fileStore, List.length_singleton]
    rcases Nat.eq_zero_or_pos bs.length with hz | hpos
    · rw [List.length_eq_zero_iff.mp hz]
      simp [fileStore]
    · rw [← addr_add (i := 1) (by omega)]
      apply ih
      have hB : 0 < B := by omega
      have hm : (p + 1) % B = p % B + 1 := by
        rw [← @addr_mod B bm, addr_add (by omega), Nat.add_mod, addr_mod,
          Nat.mod_eq_of_lt (show 1 < B by omega), Nat.mod_eq_of_lt (by omega)]
      omega

theorem fileStore_outside (m : Memory) (p a : Nat) (bs : List UInt8)
    (h : ∀ i < bs.length, addr B bm (p + i) ≠ a) : fileStore B bm m p bs a = m a := by
  induction bs generalizing m p with
  | nil => rfl
  | cons b bs ih =>
    have h0 : a ≠ addr B bm p := fun ha => h 0 (by simp) ha.symm
    simp only [fileStore]
    rw [ih, Function.update_of_ne h0]
    intro i hi
    rw [Nat.add_assoc, Nat.add_comm 1 i]
    exact h (i + 1) (by simpa using hi)

theorem local_fileStore (p : Nat) (bs : List UInt8) : Local fun m => fileStore B bm m p bs := by
  intro m m' x hx
  simp only
  induction bs generalizing m m' p with
  | nil => exact hx
  | cons b bs ih =>
    apply ih
    by_cases ha : x = addr B bm p
    · rw [ha, Function.update_self, Function.update_self]
    · rw [Function.update_of_ne ha, Function.update_of_ne ha]
      exact hx

/-- A store into the file touches only blocks of the positions it covers. -/
theorem fileStore_other_block (hB : 0 < B) (m : Memory) (p a : Nat) (bs : List UInt8)
    (h : ∀ i < bs.length, bm ((p + i) / B) ≠ a / B) : fileStore B bm m p bs a = m a := by
  apply fileStore_outside
  intro i hi ha
  exact h i hi (by rw [← ha, addr_div hB])

theorem fileStore_at {n : Nat} (hB : 0 < B) (hi : InjBelow bm n) (m : Memory) (p i : Nat)
    (bs : List UInt8) (hn : ∀ j < bs.length, (p + j) / B < n) (h : i < bs.length) :
    fileStore B bm m p bs (addr B bm (p + i)) = bs[i] := by
  induction bs generalizing m p i with
  | nil => simp at h
  | cons b bs ih =>
    have htail : ∀ j < bs.length, (p + 1 + j) / B < n := fun j hj => by
      rw [Nat.add_assoc, Nat.add_comm 1 j]
      exact hn (j + 1) (by simpa using hj)
    cases i with
    | zero =>
      simp only [fileStore, Nat.add_zero, List.getElem_cons_zero]
      rw [fileStore_outside, Function.update_self]
      intro j hj ha
      have := addr_inj hB hi (htail j hj) (by simpa using hn 0 (by simp)) ha
      omega
    | succ i =>
      simp only [fileStore, List.getElem_cons_succ]
      rw [show p + (i + 1) = p + 1 + i by omega]
      exact ih _ _ _ htail (by simpa using h)

/-- The byte at position `q` after a store of `bs` from position `p` on. -/
theorem fileStore_addr {n : Nat} (hB : 0 < B) (hi : InjBelow bm n) (m : Memory) (p q : Nat)
    (bs : List UInt8) (hn : ∀ j < bs.length, (p + j) / B < n) (hq : q / B < n) :
    fileStore B bm m p bs (addr B bm q) =
      if h : p ≤ q ∧ q < p + bs.length then bs[q - p] else m (addr B bm q) := by
  split
  · rename_i h
    obtain ⟨i, rfl⟩ := Nat.exists_eq_add_of_le h.1
    simp only [Nat.add_sub_cancel_left]
    exact fileStore_at hB hi m p i bs hn (by omega)
  · apply fileStore_outside
    intro j hj ha
    have := addr_inj hB hi (hn j hj) hq ha
    omega

/-- Only the blocks of the positions that are stored matter. -/
theorem fileStore_map_congr {bm' : Nat → Nat} (m : Memory) (p : Nat) (bs : List UInt8)
    (h : ∀ i < bs.length, bm ((p + i) / B) = bm' ((p + i) / B)) :
    fileStore B bm m p bs = fileStore B bm' m p bs := by
  induction bs generalizing m p with
  | nil => rfl
  | cons b bs ih =>
    simp only [fileStore]
    rw [@addr_congr B bm bm' p (by simpa using h 0 (by simp))]
    apply ih
    intro i hi
    rw [Nat.add_assoc, Nat.add_comm 1 i]
    exact h (i + 1) (by simpa using hi)

/-! ## Loads -/

@[simp] theorem fileLoad_length (m : Memory) (p n : Nat) : (fileLoad B bm m p n).length = n := by
  simp [fileLoad]

@[simp] theorem fileLoad_zero (m : Memory) (p : Nat) : fileLoad B bm m p 0 = [] := rfl

theorem fileLoad_getElem? (m : Memory) (p n i : Nat) :
    (fileLoad B bm m p n)[i]? = if i < n then some (m (addr B bm (p + i))) else none := by
  unfold fileLoad
  rw [List.getElem?_map]
  split
  · rename_i hi
    rw [List.getElem?_range hi, Option.map_some]
  · rename_i hi
    rw [List.getElem?_eq_none, Option.map_none]
    rw [List.length_range]
    omega

/-- A part of what was loaded. -/
theorem fileLoad_slice (m : Memory) (p n o k : Nat) :
    ((fileLoad B bm m p n).drop o).take k = fileLoad B bm m (p + o) (min k (n - o)) := by
  apply List.ext_getElem?
  intro i
  rw [fileLoad_getElem?]
  by_cases hik : i < k
  · rw [List.getElem?_take_of_lt hik, List.getElem?_drop, fileLoad_getElem?, Nat.add_assoc]
    split <;> split <;> first | rfl | omega
  · rw [List.getElem?_take_eq_none (by omega), if_neg (by omega)]

theorem fileLoad_append (m : Memory) (p n k : Nat) :
    fileLoad B bm m p (n + k) = fileLoad B bm m p n ++ fileLoad B bm m (p + n) k := by
  unfold fileLoad
  rw [List.range_add, List.map_append, List.map_map]
  simp [Function.comp_def, Nat.add_assoc]

/-- A chunk inside one block is one `memcpy`. -/
theorem fileLoad_chunk (m : Memory) (p n : Nat) (h : p % B + n ≤ B) :
    fileLoad B bm m p n = load m (addr B bm p) n := by
  unfold fileLoad load
  apply List.map_congr_left
  intro i hi
  rw [addr_add (by have := List.mem_range.mp hi; omega)]

theorem fileLoad_congr {bm' : Nat → Nat} {m m' : Memory} {p n : Nat}
    (h : ∀ i < n, m (addr B bm (p + i)) = m' (addr B bm' (p + i))) :
    fileLoad B bm m p n = fileLoad B bm' m' p n := by
  unfold fileLoad
  apply List.map_congr_left
  intro i hi
  exact h i (List.mem_range.mp hi)

/-- A part of a load is the load of that part. -/
theorem fileLoad_part (m : Memory) {p n k : Nat} (h : p + k ≤ n) :
    fileLoad B bm m p k = ((fileLoad B bm m 0 n).drop p).take k := by
  obtain ⟨r, rfl⟩ := Nat.exists_eq_add_of_le h
  rw [Nat.add_assoc, fileLoad_append, fileLoad_append,
    List.drop_append_of_le_length (by simp), List.drop_of_length_le (by simp), List.nil_append,
    Nat.zero_add, List.take_append_of_le_length (by simp), List.take_of_length_le (by simp)]

/-- The bytes just stored are loaded back. -/
theorem fileLoad_fileStore_same {n : Nat} (hB : 0 < B) (hi : InjBelow bm n) (m : Memory) (p : Nat)
    (bs : List UInt8) (hn : ∀ j < bs.length, (p + j) / B < n) :
    fileLoad B bm (fileStore B bm m p bs) p bs.length = bs := by
  apply List.ext_getElem
  · simp
  · intro i _ hi'
    simp only [fileLoad, List.getElem_map, List.getElem_range]
    exact fileStore_at hB hi m p i bs hn hi'

/-- What lies before the bytes that are stored stays. -/
theorem fileLoad_fileStore_before {n : Nat} (hB : 0 < B) (hi : InjBelow bm n) (m : Memory)
    {p q k : Nat} (bs : List UInt8) (hn : ∀ j < bs.length, (p + j) / B < n)
    (hk : ∀ j < k, (q + j) / B < n) (h : q + k ≤ p) :
    fileLoad B bm (fileStore B bm m p bs) q k = fileLoad B bm m q k := by
  apply fileLoad_congr
  intro i hik
  apply fileStore_outside
  intro j hj ha
  have := addr_inj hB hi (hn j hj) (hk i hik) ha
  omega

end block_map
