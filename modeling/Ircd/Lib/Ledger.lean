import Mathlib.Algebra.BigOperators.Group.Finset.Piecewise
import Mathlib.Algebra.Order.BigOperators.Group.Finset

/-!
# Totals kept by hand

A family of slots, and for each account a total of what the slots weigh in it. `Exact` states that
the totals are right. A program that keeps such totals by hand writes one slot at a time and adjusts
the totals; `exact_update_iff` says that the totals stay right if and only if each is adjusted by
what the slot has gained.
-/

namespace Ledger

variable {κ β μ : Type*} [Fintype κ] {weight : μ → β → Int} {slot : κ → β} {total total' : μ → Int}

/-- Each total is the sum of what the slots weigh. -/
def Exact (weight : μ → β → Int) (slot : κ → β) (total : μ → Int) : Prop :=
  ∀ m, total m = ∑ k, weight m (slot k)

/-- Totals of what weighs nothing negative are not negative. -/
theorem Exact.nonneg (h : Exact weight slot total) (hweight : ∀ m b, 0 ≤ weight m b) (m : μ) :
    0 ≤ total m := by
  rw [h m]
  exact Finset.sum_nonneg fun k _ ↦ hweight m (slot k)

variable [DecidableEq κ]

/-- A sum after one slot has been written. -/
theorem sum_update (m : μ) (k : κ) (b : β) : ∑ j, weight m (Function.update slot k b j) =
    (∑ j, weight m (slot j)) - weight m (slot k) + weight m b := by
  have hsum : ∀ f : κ → β, ∑ j, weight m (f j) =
      weight m (f k) + ∑ j ∈ Finset.univ.erase k, weight m (f j) := fun f ↦
    (Finset.add_sum_erase _ (fun j ↦ weight m (f j)) (Finset.mem_univ k)).symm
  have hrest : ∑ j ∈ Finset.univ.erase k, weight m (Function.update slot k b j) =
      ∑ j ∈ Finset.univ.erase k, weight m (slot j) := by
    refine Finset.sum_congr rfl fun j hj ↦ ?_
    rw [Function.update_of_ne (Finset.ne_of_mem_erase hj)]
  rw [hsum (Function.update slot k b), hsum slot, hrest, Function.update_self]
  omega

/-- Right totals stay right if and only if each changes by what the slot has gained. -/
theorem exact_update_iff (h : Exact weight slot total) (k : κ) (b : β) :
    Exact weight (Function.update slot k b) total' ↔
      ∀ m, total' m + weight m (slot k) = total m + weight m b := by
  refine forall_congr' fun m ↦ ?_
  rw [sum_update, h m]
  constructor
  · intro heq
    omega
  · intro heq
    omega

end Ledger
