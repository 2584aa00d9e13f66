import EmbeddedSystems.Library.Circulant
import EmbeddedSystems.Aes.Cipher
import EmbeddedSystems.Aes.Fips197

/-!
# The bytes of the program as field elements

The arithmetic of `aes.c` on bytes is that of GF(2^8): `xtime` multiplies by
`x`, `multiply` by a constant below 32, the tables hold what the specification
defines, and the two column mixings multiply a column by circulant matrices
that are inverse to each other.
-/

namespace EmbeddedSystems.Aes

open BinaryField Fips197
open Matrix hiding inv_zero

/-! ## The tables -/

/-- The inverse of the affine map of the S-box: bit `i` is `b_{i+2} + b_{i+5} + b_{i+7} + d_i`,
    with `d = {05}`. -/
def affineInv (b : Byte) : Byte := BitVec.ofFnLE fun i : Fin 8 =>
  b.getLsb (i + 2) ^^ b.getLsb (i + 5) ^^ b.getLsb (i + 7) ^^ (0x05#8).getLsb i

/-- The table `sbox` holds the S-box: undoing the affine map leaves the inverse in
    the field. -/
theorem getSBoxValue_eq (b : Byte) : getSBoxValue b = subByte b := by
  have haffine : ∀ b, affine (affineInv b) = b := by decide +kernel
  have hinv : ∀ b, b = 0#8 ∨ mul 0x1b#8 b (affineInv (getSBoxValue b)) = 1#8 := by decide +kernel
  rw [subByte]
  rcases hinv b with rfl | h
  · rw [byteEquiv_zero, inv_zero, ← byteEquiv_zero, Equiv.symm_apply_apply]
    decide +kernel
  · rw [symm_inv_byteEquiv h, haffine]

theorem getSBoxInvert_getSBoxValue : ∀ b, getSBoxInvert (getSBoxValue b) = b := by
  decide +kernel

theorem getSBoxValue_getSBoxInvert (b : Byte) : getSBoxValue (getSBoxInvert b) = b := by
  have hsurj : Function.Surjective getSBoxValue :=
    Finite.surjective_of_injective (Function.LeftInverse.injective getSBoxInvert_getSBoxValue)
  obtain ⟨a, rfl⟩ := hsurj b
  rw [getSBoxInvert_getSBoxValue]

/-! ## Multiplication -/

theorem xtime_eq : ∀ b, xtime b = timesX 0x1b#8 b := by
  decide +kernel

/-- `xtime` is the multiplication by `x`. -/
theorem byteEquiv_xtime (b : Byte) : byteEquiv (xtime b) = root * byteEquiv b := by
  rw [xtime_eq]
  exact elem_timesX rijndael_eq b

theorem rcon_eq (i : ℕ) (h₁ : 1 ≤ i) (h₂ : i ≤ 10) :
    rcon[i]! = byteEquiv.symm (root ^ (i - 1)) := by
  have hpow : ∀ k, byteEquiv (xtime^[k] 1#8) = root ^ k := by
    intro k
    induction k with
    | zero => simp
    | succ k ih => rw [Function.iterate_succ_apply', byteEquiv_xtime, ih, pow_succ']
  have htable : ∀ k : Fin 10, rcon[k.val + 1]! = xtime^[k] 1#8 := by decide +kernel
  rw [Equiv.eq_symm_apply, ← hpow, ← htable ⟨i - 1, by omega⟩, Nat.sub_add_cancel h₁]

/-- One term of the macro `Multiply`, truncated to a byte: `z` if the bit `i` of the
    constant is set. -/
theorem setWidth_multiply_term (y : BitVec 32) (i : ℕ) (z : Byte) :
    ((y >>> i &&& 1#32) * z.setWidth 32).setWidth 8 = if y.getLsbD i then z else 0#8 := by
  have hbit : y >>> i &&& 1#32 = if y.getLsbD i then 1#32 else 0#32 := by
    apply BitVec.eq_of_getLsbD_eq
    intro k hk
    cases k with
    | zero => cases h : y.getLsbD i <;> simp [h]
    | succ k => cases h : y.getLsbD i <;> simp
  rw [hbit]
  cases y.getLsbD i <;> simp

/-- `multiply` is the multiplication by a constant below 32. -/
theorem byteEquiv_multiply (a : Byte) {y : BitVec 32} (hy : y < 32) :
    byteEquiv ((multiply a y).setWidth 8) = byteEquiv (y.setWidth 8) * byteEquiv a := by
  have hhigh : ∀ i, 5 ≤ i → y.getLsbD i = false := by
    intro i hi
    have hlt : y.toNat < 2 ^ i := hy.trans_le (Nat.pow_le_pow_right (by decide) hi)
    exact Nat.testBit_eq_false_of_lt hlt
  have hterms : (multiply a y).setWidth 8 = (if y.getLsbD 0 then a else 0#8) ^^^
      (if y.getLsbD 1 then xtime a else 0#8) ^^^ (if y.getLsbD 2 then xtime (xtime a) else 0#8) ^^^
      (if y.getLsbD 3 then xtime (xtime (xtime a)) else 0#8) ^^^
      (if y.getLsbD 4 then xtime (xtime (xtime (xtime a))) else 0#8) := by
    simp only [multiply, BitVec.setWidth_xor, setWidth_multiply_term]
    rw [← setWidth_multiply_term y 0 a, BitVec.ushiftRight_zero]
  rw [hterms, byteEquiv_apply (y.setWidth 8), elem_eq_sum]
  simp only [Finset.sum_range_succ, Finset.sum_range_zero, BitVec.getLsbD_setWidth, hhigh, le_refl,
    Nat.reduceLeDiff, Nat.reduceLT, decide_true, Bool.true_and, Bool.false_eq_true, if_false,
    Bool.and_false, add_zero, zero_add, byteEquiv_xor, apply_ite byteEquiv, byteEquiv_xtime,
    byteEquiv_zero, add_mul, ite_mul, zero_mul, pow_zero, one_mul, pow_succ, mul_assoc]

/-! ## The column mixings -/

/-- The coefficients of the column mixing: `{02} + {01}x + {01}x^2 + {03}x^3`. -/
noncomputable def mixCoeffs : Fin 4 → GF256 :=
  ![byteEquiv 0x02, byteEquiv 0x01, byteEquiv 0x01, byteEquiv 0x03]

/-- The coefficients of the inverse column mixing: `{0e} + {09}x + {0d}x^2 + {0b}x^3`. -/
noncomputable def invMixCoeffs : Fin 4 → GF256 :=
  ![byteEquiv 0x0e, byteEquiv 0x09, byteEquiv 0x0d, byteEquiv 0x0b]

theorem mixCoeffs_eq : mixCoeffs = ![root, 1, 1, 1 + root] := by
  simp [mixCoeffs, byteEquiv_apply, elem_eq_sum, Finset.sum_range_succ]

theorem invMixCoeffs_eq : invMixCoeffs =
    ![root + root ^ 2 + root ^ 3, 1 + root ^ 3, 1 + root ^ 2 + root ^ 3, 1 + root + root ^ 3] := by
  simp [invMixCoeffs, byteEquiv_apply, elem_eq_sum, Finset.sum_range_succ]

/-- `MixColumns` multiplies a column by the circulant matrix of `mixCoeffs`. -/
theorem byteEquiv_mixCol (c : Fin 4 → Byte) (j : Fin 4) :
    byteEquiv (mixCol c j) = (circulant mixCoeffs *ᵥ (byteEquiv ∘ c)) j := by
  have hmix : byteEquiv (mixCol c j) = byteEquiv (c j) + (root * (byteEquiv (c j) +
      byteEquiv (c (j + 1))) + (byteEquiv (c 0) + byteEquiv (c 1) + byteEquiv (c 2) +
        byteEquiv (c 3))) := by
    simp only [mixCol, byteEquiv_xor, byteEquiv_xtime]
  rw [hmix, mixCoeffs_eq]
  -- The cell itself is added twice, which cancels.
  fin_cases j <;> simp [mulVec, dotProduct, Fin.sum_univ_four, circulant_apply]
  · linear_combination byteEquiv (c 0) * two_eq_zero
  · linear_combination byteEquiv (c 1) * two_eq_zero
  · linear_combination byteEquiv (c 2) * two_eq_zero
  · linear_combination byteEquiv (c 3) * two_eq_zero

/-- `InvMixColumns` multiplies a column by the circulant matrix of `invMixCoeffs`. -/
theorem byteEquiv_invMixCol (c : Fin 4 → Byte) (j : Fin 4) :
    byteEquiv (invMixCol c j) = (circulant invMixCoeffs *ᵥ (byteEquiv ∘ c)) j := by
  have hlt : ∀ k, invMixRows j k < 32 := by revert j; decide
  have hrow : ∀ k, circulant invMixCoeffs j k = byteEquiv ((invMixRows j k).setWidth 8) := by
    intro k
    fin_cases j <;> fin_cases k <;> rfl
  simp only [invMixCol, BitVec.setWidth_xor, byteEquiv_xor, byteEquiv_multiply _ (hlt _), mulVec,
    dotProduct, Fin.sum_univ_four, hrow, Function.comp_apply]

/-- The matrix of the column mixing, as it is printed: every row is the one above, rotated by
    one to the right. -/
def mixMatrix : Matrix (Fin 4) (Fin 4) Byte :=
  !![0x02, 0x03, 0x01, 0x01; 0x01, 0x02, 0x03, 0x01; 0x01, 0x01, 0x02, 0x03; 0x03, 0x01, 0x01, 0x02]

/-- The matrix of the inverse column mixing. -/
def invMixMatrix : Matrix (Fin 4) (Fin 4) Byte :=
  !![0x0e, 0x0b, 0x0d, 0x09; 0x09, 0x0e, 0x0b, 0x0d; 0x0d, 0x09, 0x0e, 0x0b; 0x0b, 0x0d, 0x09, 0x0e]

theorem map_mixMatrix : mixMatrix.map byteEquiv = circulant mixCoeffs := by
  ext j k
  fin_cases j <;> fin_cases k <;> rfl

theorem map_invMixMatrix : invMixMatrix.map byteEquiv = circulant invMixCoeffs := by
  ext j k
  fin_cases j <;> fin_cases k <;> rfl

theorem circulant_mixCoeffs_mul : circulant mixCoeffs * circulant invMixCoeffs = 1 := by
  have hprod : circulant mixCoeffs *ᵥ invMixCoeffs = Pi.single 0 1 := by
    funext j
    rw [mixCoeffs_eq, invMixCoeffs_eq]
    fin_cases j <;>
      simp [mulVec, dotProduct, Fin.sum_univ_four, circulant_apply]
    · linear_combination (1 + root + root ^ 2 + 2 * root ^ 3 + root ^ 4) * two_eq_zero
    · linear_combination (1 + 2 * root + root ^ 2 + 2 * root ^ 3 + root ^ 4) * two_eq_zero
    · linear_combination (1 + 2 * root + root ^ 2 + 2 * root ^ 3 + root ^ 4) * two_eq_zero
    · linear_combination (1 + root + 2 * root ^ 2 + 2 * root ^ 3 + root ^ 4) * two_eq_zero
  rw [Fin.circulant_mul, hprod, circulant_single_one]

theorem circulant_invMixCoeffs_mul : circulant invMixCoeffs * circulant mixCoeffs = 1 := by
  rw [Fin.circulant_mul_comm, circulant_mixCoeffs_mul]

theorem invMixCol_mixCol (c : Fin 4 → Byte) : invMixCol (mixCol c) = c := by
  have hmix : byteEquiv ∘ mixCol c = circulant mixCoeffs *ᵥ (byteEquiv ∘ c) :=
    funext (byteEquiv_mixCol c)
  funext j
  apply byteEquiv.injective
  rw [byteEquiv_invMixCol, hmix, mulVec_mulVec, circulant_invMixCoeffs_mul, one_mulVec,
    Function.comp_apply]

theorem mixCol_invMixCol (c : Fin 4 → Byte) : mixCol (invMixCol c) = c := by
  have hmix : byteEquiv ∘ invMixCol c = circulant invMixCoeffs *ᵥ (byteEquiv ∘ c) :=
    funext (byteEquiv_invMixCol c)
  funext j
  apply byteEquiv.injective
  rw [byteEquiv_mixCol, hmix, mulVec_mulVec, circulant_mixCoeffs_mul, one_mulVec,
    Function.comp_apply]

/-- The multiplication of columns in the specification, coefficient by coefficient. -/
theorem byteEquiv_mixColumns (s : Fips197.State) (r c : Fin 4) :
    byteEquiv (Fips197.mixColumns s r c) =
      (circulant mixCoeffs *ᵥ fun r => byteEquiv (s r c)) r := by
  have hpoly : mixPoly = Circulant.ofCoeffs mixCoeffs := by
    simp [mixPoly, Circulant.ofCoeffs, mixCoeffs, Fin.sum_univ_four]
    ring
  have hmod : (Polynomial.X ^ 4 + 1 : Polynomial GF256) = Polynomial.X ^ 4 - 1 := by
    have htwo : (2 : Polynomial GF256) = 0 := by
      rw [← map_ofNat Polynomial.C 2, two_eq_zero, map_zero]
    linear_combination htwo
  have hcol : colPoly s c = Circulant.ofCoeffs fun r => byteEquiv (s r c) := rfl
  rw [Fips197.mixColumns, Equiv.apply_symm_apply, hpoly, hmod, hcol,
    Circulant.ofCoeffs_mul_modByMonic, Circulant.coeff_ofCoeffs]

end EmbeddedSystems.Aes
