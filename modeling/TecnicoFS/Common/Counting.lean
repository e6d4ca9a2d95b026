-- How many places of a table are free. Both the blocks and the open file entries
-- are counted this way.
import TecnicoFS.Common.Basics
import Mathlib.Algebra.BigOperators.Group.Finset.Basic
import Mathlib.Data.Finset.Card

namespace tecnicofs

/-- A sum over a table after one of its places got another value. -/
theorem sum_update_add {α : Type*} {n i : Nat} (hi : i < n) (table : Nat → α) (a : α)
    (cost : α → Nat) :
    (∑ k ∈ Finset.range n, cost (Function.update table i a k)) + cost (table i) =
      (∑ k ∈ Finset.range n, cost (table k)) + cost a := by
  have hmem := Finset.mem_range.mpr hi
  have hrest : ∑ k ∈ (Finset.range n).erase i, cost (Function.update table i a k) =
      ∑ k ∈ (Finset.range n).erase i, cost (table k) := by
    apply Finset.sum_congr rfl
    intro k hk
    rw [Function.update_of_ne (Finset.ne_of_mem_erase hk)]
  rw [← Finset.add_sum_erase _ _ hmem, hrest, ← Finset.add_sum_erase _ _ hmem, Function.update_self]
  omega

/-- How many of the first `n` places are free. -/
def freeAmong (n : Nat) (table : Nat → AllocationState) : Nat :=
  ((Finset.range n).filter fun i => table i = .FREE).card

theorem freeAmong_eq_zero {n : Nat} {table : Nat → AllocationState} :
    freeAmong n table = 0 ↔ ∀ i < n, table i ≠ .FREE := by
  unfold freeAmong
  rw [Finset.card_eq_zero, Finset.filter_eq_empty_iff]
  simp only [Finset.mem_range]

/-- One place less has the value `a` when it gets another value. -/
theorem card_filter_update {n i : Nat} {table : Nat → AllocationState} {a b : AllocationState}
    (hi : i < n) (ha : table i = a) (hb : b ≠ a) :
    ((Finset.range n).filter fun k => Function.update table i b k = a).card + 1 =
      ((Finset.range n).filter fun k => table k = a).card := by
  have hmem : i ∈ (Finset.range n).filter fun k => table k = a :=
    Finset.mem_filter.mpr ⟨Finset.mem_range.mpr hi, ha⟩
  rw [← Finset.card_erase_add_one hmem]
  apply congrArg (· + 1)
  apply congrArg Finset.card
  ext k
  rw [Finset.mem_erase, Finset.mem_filter, Finset.mem_filter]
  by_cases hk : k = i
  · subst hk
    simp [hb]
  · simp [hk]

/-- One place less is free when a free one is taken. -/
theorem freeAmong_take {n i : Nat} {table : Nat → AllocationState} (hi : i < n)
    (hfree : table i = .FREE) :
    freeAmong n (Function.update table i .TAKEN) + 1 = freeAmong n table := by
  apply card_filter_update hi hfree
  simp

/-- The numbers of the first `n` places that are taken. -/
def takenAmong (n : Nat) (table : Nat → AllocationState) : Finset Int :=
  ((Finset.range n).filter fun i => ¬ table i = .FREE).image fun i : Nat => (i : Int)

theorem mem_takenAmong {n : Nat} {table : Nat → AllocationState} {b : Int} :
    b ∈ takenAmong n table ↔ (0 ≤ b ∧ b < n) ∧ table b.toNat = .TAKEN := by
  have htaken : ∀ a : AllocationState, ¬ a = .FREE ↔ a = .TAKEN := by
    intro a
    cases a <;> simp
  unfold takenAmong
  simp only [Finset.mem_image, Finset.mem_filter, Finset.mem_range]
  constructor
  · rintro ⟨c, ⟨hc, hne⟩, rfl⟩
    exact ⟨by omega, by rwa [Int.toNat_natCast, ← htaken]⟩
  · rintro ⟨hb, ht⟩
    exact ⟨b.toNat, ⟨by omega, (htaken _).mpr ht⟩, by omega⟩

/-- Every place is free or taken. -/
theorem freeAmong_add_taken (n : Nat) (table : Nat → AllocationState) :
    freeAmong n table + (takenAmong n table).card = n := by
  have hcast : Function.Injective fun i : Nat => (i : Int) := fun _ _ => Int.ofNat.inj
  have hall := Finset.card_filter_add_card_filter_not (s := Finset.range n) fun i => table i = .FREE
  rw [Finset.card_range] at hall
  rw [takenAmong, Finset.card_image_of_injective _ hcast, freeAmong]
  exact hall

end tecnicofs
