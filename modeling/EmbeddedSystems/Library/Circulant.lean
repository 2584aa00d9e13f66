import Mathlib

/-!
# Polynomials modulo X ^ n - 1

Multiplying by a fixed polynomial modulo `X ^ n - 1` is a linear map on the `n`
coefficients, whose matrix is circulant (`ofCoeffs_mul_modByMonic`).
-/

namespace EmbeddedSystems.Circulant

open Polynomial Matrix

variable {R : Type*} [CommRing R] {n : ℕ}

/-- The polynomial with the coefficients `v`. -/
noncomputable def ofCoeffs (v : Fin n → R) : R[X] := ∑ i, C (v i) * X ^ (i : ℕ)

theorem coeff_ofCoeffs (v : Fin n → R) (j : Fin n) : (ofCoeffs v).coeff j = v j := by
  simp [ofCoeffs, coeff_X_pow, Fin.val_inj]

theorem degree_ofCoeffs_lt (v : Fin n → R) : (ofCoeffs v).degree < n := by
  refine (degree_lt_iff_coeff_zero _ _).2 fun k hk => ?_
  rw [ofCoeffs, finsetSum_coeff]
  refine Finset.sum_eq_zero fun i _ => ?_
  rw [coeff_C_mul, coeff_X_pow, if_neg (by omega), mul_zero]

theorem dvd_X_pow_sub_X_pow_mod (a : ℕ) : (X ^ n - 1 : R[X]) ∣ X ^ a - X ^ (a % n) := by
  have hsplit : (X ^ a - X ^ (a % n) : R[X]) = X ^ (a % n) * ((X ^ n) ^ (a / n) - 1 ^ (a / n)) := by
    rw [one_pow, mul_sub, mul_one, ← pow_mul, ← pow_add, Nat.mod_add_div]
  rw [hsplit]
  exact (sub_dvd_pow_sub_pow _ _ _).mul_left _

/-- Multiplication modulo `X ^ n - 1` is that of the coefficients by a circulant
    matrix. -/
theorem ofCoeffs_mul_modByMonic [NeZero n] (v s : Fin n → R) :
    (ofCoeffs v * ofCoeffs s) %ₘ (X ^ n - 1) = ofCoeffs (circulant v *ᵥ s) := by
  nontriviality R
  have hmonic : (X ^ n - 1 : R[X]).Monic := monic_X_pow_sub_C 1 (NeZero.ne n)
  have hdegree : (X ^ n - 1 : R[X]).degree = n := degree_X_pow_sub_C (NeZero.pos n) 1
  have hprod : ofCoeffs v * ofCoeffs s = ∑ k, ∑ i, C (v i * s k) * X ^ (i.val + k.val) := by
    rw [mul_comm, ofCoeffs, ofCoeffs, Finset.sum_mul_sum]
    refine Finset.sum_congr rfl fun k _ => Finset.sum_congr rfl fun i _ => ?_
    rw [C_mul, pow_add]
    ring
  -- The term `i, k` of the product lands at the index `i + k`, modulo `n`.
  have hcirc : ofCoeffs (circulant v *ᵥ s) =
      ∑ k, ∑ i, C (v i * s k) * X ^ ((i.val + k.val) % n) := by
    simp only [ofCoeffs, mulVec, dotProduct, circulant_apply, map_sum, Finset.sum_mul]
    rw [Finset.sum_comm]
    refine Finset.sum_congr rfl fun k _ => ?_
    rw [← Equiv.sum_comp (Equiv.addRight k)]
    refine Finset.sum_congr rfl fun i _ => ?_
    rw [Equiv.coe_addRight, add_sub_cancel_right, Fin.val_add]
  have hdvd : (X ^ n - 1 : R[X]) ∣ ofCoeffs v * ofCoeffs s - ofCoeffs (circulant v *ᵥ s) := by
    rw [hprod, hcirc, ← Finset.sum_sub_distrib]
    refine Finset.dvd_sum fun k _ => ?_
    rw [← Finset.sum_sub_distrib]
    refine Finset.dvd_sum fun i _ => ?_
    rw [← mul_sub]
    exact (dvd_X_pow_sub_X_pow_mod _).mul_left _
  rw [modByMonic_eq_of_dvd_sub hmonic hdvd, (modByMonic_eq_self_iff hmonic).2]
  exact hdegree ▸ degree_ofCoeffs_lt _

end EmbeddedSystems.Circulant
