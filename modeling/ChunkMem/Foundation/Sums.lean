import Mathlib.Algebra.BigOperators.Intervals
import Mathlib.Tactic

/-!
# Sums over a table of records

Totals over the first `n` entries of a table, and how they change when one
entry does.
-/

namespace ChunkMem
namespace Foundation

/-- The total of `f` over the entries below `n`. -/
def sumTo (n : Nat) (f : Nat -> Nat) : Nat := ∑ i ∈ Finset.range n, f i

@[simp] theorem sumTo_zero (f : Nat -> Nat) : sumTo 0 f = 0 := rfl

theorem sumTo_succ (n : Nat) (f : Nat -> Nat) :
    sumTo (n + 1) f = sumTo n f + f n :=
  Finset.sum_range_succ f n

theorem sumTo_congr {n : Nat} {f g : Nat -> Nat}
    (h : forall i, i < n -> f i = g i) : sumTo n f = sumTo n g :=
  Finset.sum_congr rfl fun i hi => h i (Finset.mem_range.mp hi)

theorem sumTo_add (n : Nat) (f g : Nat -> Nat) :
    (sumTo n fun i => f i + g i) = sumTo n f + sumTo n g :=
  Finset.sum_add_distrib

theorem sumTo_interval (n : Nat) {lo hi : Nat} (h : lo ≤ hi) :
    (sumTo n fun i => if lo ≤ i ∧ i < hi then 1 else 0) = min n hi - min n lo := by
  induction n with
  | zero =>
      simp
  | succ n ih =>
      rw [sumTo_succ, ih]
      split <;> omega

theorem sumTo_change {n k : Nat} {f g : Nat -> Nat} (hk : k < n)
    (h : forall i, i < n -> i ≠ k -> g i = f i) :
    sumTo n g + f k = sumTo n f + g k := by
  induction n with
  | zero =>
      omega
  | succ n ih =>
      rw [sumTo_succ, sumTo_succ]
      by_cases hkn : k = n
      · subst hkn
        have hsame : sumTo k g = sumTo k f :=
          sumTo_congr fun i hi => h i (by omega) (by omega)
        omega
      · have hrest := ih (by omega) fun i hi hik => h i (by omega) hik
        have hlast := h n (by omega) (Ne.symm hkn)
        omega

theorem le_sumTo {n k : Nat} (f : Nat -> Nat) (hk : k < n) : f k ≤ sumTo n f :=
  Finset.single_le_sum (fun _ _ => Nat.zero_le _) (Finset.mem_range.mpr hk)

theorem sumTo_le {n b : Nat} {f : Nat -> Nat} (h : forall i, i < n -> f i ≤ b) :
    sumTo n f ≤ n * b := by
  induction n with
  | zero =>
      simp
  | succ n ih =>
      rw [sumTo_succ, Nat.succ_mul]
      have h1 := ih fun i hi => h i (by omega)
      have h2 := h n (by omega)
      omega

theorem sumTo_mono {n : Nat} {f g : Nat -> Nat} (h : forall i, i < n -> f i ≤ g i) :
    sumTo n f ≤ sumTo n g :=
  Finset.sum_le_sum fun i hi => h i (Finset.mem_range.mp hi)

theorem sumTo_le_of_le {n m : Nat} (f : Nat -> Nat) (h : n ≤ m) :
    sumTo n f ≤ sumTo m f := by
  induction h with
  | refl =>
      exact Nat.le_refl _
  | step _ ih =>
      rw [sumTo_succ]
      omega

theorem sumTo_add_le {n m : Nat} (f : Nat -> Nat) (h : n < m) :
    sumTo n f + f n ≤ sumTo m f := by
  rw [← sumTo_succ]
  exact sumTo_le_of_le f h

end Foundation
end ChunkMem
