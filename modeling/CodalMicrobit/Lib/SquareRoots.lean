import Mathlib.Algebra.Order.BigOperators.Group.List
import Mathlib.Analysis.Real.Sqrt
import Mathlib.FieldTheory.Extension
import Mathlib.FieldTheory.KummerPolynomial
import Mathlib.Data.Rat.Lemmas

/-!
# Sums of square roots

A sum of square roots of numbers, with coefficients that are not negative, is irrational if one of the roots is: there is a map of
the field that they generate which takes this root to its opposite and each other one to itself or to its opposite, and a rational
sum would be less than itself.
-/

open Polynomial IntermediateField

namespace SquareRoots

/-- The root of a number that is not a square has its opposite as a conjugate. -/
theorem minpoly_sqrt {k : ℕ} (hk : ¬IsSquare k) : minpoly ℚ √(k : ℝ) = X ^ 2 - C (k : ℚ) := by
  have hirreducible : Irreducible (X ^ 2 - C (k : ℚ)) := by
    refine X_pow_sub_C_irreducible_of_prime Nat.prime_two fun b hb => hk ?_
    rw [← Rat.isSquare_natCast_iff]
    exact ⟨b, by rw [← hb, pow_two]⟩
  refine (minpoly.eq_of_irreducible_of_monic hirreducible ?_ (monic_X_pow_sub_C _ two_ne_zero)).symm
  simp

/-- The conjugates of a root are real numbers. -/
theorem splits_sqrt (k : ℕ) : IsIntegral ℚ √(k : ℝ) ∧ ((minpoly ℚ √(k : ℝ)).map (algebraMap ℚ ℝ)).Splits := by
  have hroot : aeval √(k : ℝ) (X ^ 2 - C (k : ℚ)) = 0 := by simp
  have hmonic := monic_X_pow_sub_C (k : ℚ) two_ne_zero
  refine ⟨⟨_, hmonic, hroot⟩, ?_⟩
  have hfactors : (X ^ 2 - C (k : ℚ)).map (algebraMap ℚ ℝ) = (X - C √(k : ℝ)) * (X - C (-√(k : ℝ))) := by
    have hk : C (k : ℝ) = C √(k : ℝ) * C √(k : ℝ) := by rw [← C_mul, Real.mul_self_sqrt k.cast_nonneg]
    rw [Polynomial.map_sub, Polynomial.map_pow, map_X, map_C, map_natCast, map_neg, hk]
    ring
  have hsplits : ((X ^ 2 - C (k : ℚ)).map (algebraMap ℚ ℝ)).Splits := by
    rw [hfactors]
    exact (Splits.X_sub_C _).mul (Splits.X_sub_C _)
  exact hsplits.of_dvd (hmonic.map _).ne_zero (Polynomial.map_dvd _ (minpoly.dvd ℚ _ hroot))

variable {ι : Type*}

/-- In a rational sum of roots, each one with a coefficient is the root of a square. -/
theorem isSquare_of_sum (a : ι → ℚ) (k : ι → ℕ) (l : List ι) (ha : ∀ i ∈ l, 0 ≤ a i) {q : ℚ}
    (h : (l.map fun i => (a i : ℝ) * √(k i)).sum = q) : ∀ i ∈ l, a i ≠ 0 → IsSquare (k i) := by
  intro i hi hai
  by_contra hk
  -- the map that takes the root of `k i` to its opposite
  have hmem : ∀ j, √(k j : ℝ) ∈ adjoin ℚ (Set.range fun j => √(k j : ℝ)) := fun j => subset_adjoin _ _ ⟨j, rfl⟩
  obtain ⟨φ, hφ⟩ := exists_algHom_adjoin_of_splits_of_aeval (F := ℚ) (K := ℝ) (S := Set.range fun j => √(k j : ℝ)) (by
      rintro _ ⟨j, rfl⟩
      exact splits_sqrt (k j)) (hmem i) (y := -√(k i : ℝ)) (by rw [minpoly_sqrt hk]; simp)
  have hle : ∀ j, φ ⟨_, hmem j⟩ ≤ √(k j : ℝ) := by
    intro j
    have hsquare : (⟨_, hmem j⟩ : adjoin ℚ (Set.range fun j => √(k j : ℝ))) ^ 2 = (k j : ℕ) :=
      Subtype.ext (Real.sq_sqrt (k j).cast_nonneg)
    refine Real.le_sqrt_of_sq_le ?_
    rw [← map_pow, hsquare, map_natCast]
  have hsum : (l.map fun j => (a j : ℝ) * φ ⟨_, hmem j⟩).sum = q := by
    have hfield : (l.map fun j => (a j : adjoin ℚ (Set.range fun j => √(k j : ℝ))) * ⟨_, hmem j⟩).sum = q := by
      refine (adjoin ℚ (Set.range fun j => √(k j : ℝ))).val.injective ?_
      rw [map_list_sum, List.map_map, map_ratCast, ← h]
      refine congrArg List.sum (List.map_congr_left fun j _ => ?_)
      rw [Function.comp_apply, map_mul, map_ratCast]
      rfl
    rw [← map_ratCast φ q, ← hfield, map_list_sum, List.map_map]
    refine congrArg List.sum (List.map_congr_left fun j _ => ?_)
    rw [Function.comp_apply, map_mul, map_ratCast]
  have hpos : 0 < √(k i : ℝ) := by
    refine Real.sqrt_pos.mpr (Nat.cast_pos.mpr (Nat.pos_of_ne_zero fun h0 => hk ?_))
    rw [h0]
    exact IsSquare.zero
  have hlt : (l.map fun j => (a j : ℝ) * φ ⟨_, hmem j⟩).sum < (l.map fun j => (a j : ℝ) * √(k j)).sum := by
    refine List.sum_lt_sum _ _ (fun j hj => ?_) ⟨i, hi, ?_⟩
    · exact mul_le_mul_of_nonneg_left (hle j) (by exact_mod_cast ha j hj)
    · have hai' : (0 : ℝ) < a i := by exact_mod_cast (ha i hi).lt_of_ne (Ne.symm hai)
      rw [hφ]
      exact mul_lt_mul_of_pos_left (neg_lt_self hpos) hai'
  rw [h, hsum] at hlt
  exact lt_irrefl _ hlt

end SquareRoots
