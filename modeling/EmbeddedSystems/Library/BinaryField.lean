import Mathlib

/-!
# Words as elements of GF(2)[X] / (m)

A word of `w` bits is a polynomial over GF(2) of degree less than `w`, its bit
`i` being the coefficient of `X ^ i` (`toPoly`), and so an element of the
quotient by a polynomial `m` of degree `w` (`elem`). Exclusive or is then the
addition. When `m = X ^ w + low`, shifting a word to the left and reducing it
is the multiplication by `X` (`timesX`), from which the multiplication of words
(`mul`) is computed.

* `elem_bijective`: the words are exactly the elements of the quotient;
* `elem_timesX`, `elem_mul`, `elem_pow`: the operations on words are those of
  the quotient;
* `irreducible_of_orderOf_eq`: if the powers of some word are all the nonzero
  ones, `m` is irreducible, and the quotient a field.
-/

namespace EmbeddedSystems.BinaryField

open Polynomial

variable {w : ℕ}

/-! ## Words as polynomials -/

/-- The polynomial whose coefficients are the bits of the word `b`. -/
noncomputable def toPoly (b : BitVec w) : (ZMod 2)[X] :=
  ∑ i ∈ Finset.range w, if b.getLsbD i then X ^ i else 0

@[simp]
theorem coeff_toPoly (b : BitVec w) (i : ℕ) :
    (toPoly b).coeff i = if b.getLsbD i then 1 else 0 := by
  have hterm : ∀ k, (if b.getLsbD k then (X ^ k : (ZMod 2)[X]) else 0).coeff i =
      if i = k then (if b.getLsbD k then 1 else 0) else 0 := by
    intro k
    split <;> simp [coeff_X_pow]
  rw [toPoly, finsetSum_coeff]
  simp only [hterm, Finset.sum_ite_eq, Finset.mem_range]
  by_cases hi : i < w
  · rw [if_pos hi]
  · rw [if_neg hi, BitVec.getLsbD_of_ge b i (not_lt.1 hi), if_neg Bool.false_ne_true]

theorem toPoly_zero : toPoly (0#w) = 0 := by
  ext i
  simp

theorem toPoly_one (hw : 0 < w) : toPoly (1#w) = 1 := by
  ext i
  cases i <;> simp [coeff_one, hw]

theorem toPoly_xor (a b : BitVec w) : toPoly (a ^^^ b) = toPoly a + toPoly b := by
  ext i
  simp only [coeff_toPoly, coeff_add, BitVec.getLsbD_xor]
  cases a.getLsbD i <;> cases b.getLsbD i <;> decide

theorem toPoly_injective : Function.Injective (toPoly : BitVec w → (ZMod 2)[X]) := by
  intro a b h
  apply BitVec.eq_of_getLsbD_eq
  intro i _
  have hi := congrArg (fun p => p.coeff i) h
  simp only [coeff_toPoly] at hi
  cases ha : a.getLsbD i <;> cases hb : b.getLsbD i <;> simp_all

theorem degree_toPoly_lt (b : BitVec w) : (toPoly b).degree < w := by
  refine (degree_lt_iff_coeff_zero _ _).2 fun i hi => ?_
  rw [coeff_toPoly, BitVec.getLsbD_of_ge b i hi, if_neg Bool.false_ne_true]

/-- Every polynomial of degree less than `w` is that of a word. -/
theorem exists_toPoly {p : (ZMod 2)[X]} (hp : p.degree < w) : ∃ b : BitVec w, toPoly b = p := by
  refine ⟨BitVec.ofFnLE fun i => decide (p.coeff i = 1), ?_⟩
  ext i
  rw [coeff_toPoly]
  by_cases hi : i < w
  · have hbit : ∀ c : ZMod 2, c = 0 ∨ c = 1 := by decide
    rcases hbit (p.coeff i) with h | h <;> simp [hi, h]
  · rw [BitVec.getLsbD_of_ge _ i (not_lt.1 hi),
      (degree_lt_iff_coeff_zero _ _).1 hp i (not_lt.1 hi)]
    rfl

/-! ## Words as elements of the quotient -/

/-- The class of the word `b` modulo `m`. -/
noncomputable def elem (m : (ZMod 2)[X]) (b : BitVec w) : AdjoinRoot m :=
  AdjoinRoot.mk m (toPoly b)

variable (m : (ZMod 2)[X])

@[simp]
theorem elem_zero : elem m (0#w) = 0 := by rw [elem, toPoly_zero, map_zero]

theorem elem_one (hw : 0 < w) : elem m (1#w) = 1 := by rw [elem, toPoly_one hw, map_one]

@[simp]
theorem elem_xor (a b : BitVec w) : elem m (a ^^^ b) = elem m a + elem m b := by
  rw [elem, toPoly_xor, map_add, ← elem, ← elem]

/-- A word is the sum of the powers of the root at its bits. -/
theorem elem_eq_sum (b : BitVec w) :
    elem m b = ∑ i ∈ Finset.range w, if b.getLsbD i then AdjoinRoot.root m ^ i else 0 := by
  rw [elem, toPoly, map_sum]
  refine Finset.sum_congr rfl fun i _ => ?_
  split <;> simp

/-- Multiplication by `X` on words, modulo `X ^ w + low`. -/
def timesX (low b : BitVec w) : BitVec w := (b <<< 1) ^^^ (if b.msb then low else 0#w)

/-- The product of `a` by the top `k` bits of `b`. -/
def mulTop (low a b : BitVec w) : ℕ → BitVec w
  | 0 => 0#w
  | k + 1 => timesX low (mulTop low a b k) ^^^ if b.getLsbD (w - 1 - k) then a else 0#w

/-- Multiplication on words, modulo `X ^ w + low`. -/
def mul (low a b : BitVec w) : BitVec w := mulTop low a b w

/-- Powers of a word, modulo `X ^ w + low`. -/
def pow (low a : BitVec w) : ℕ → BitVec w
  | 0 => 1#w
  | k + 1 => mul low (pow low a k) a

variable {m} {low : BitVec w} (hm : m = X ^ w + toPoly low)
include hm

theorem monic : m.Monic := hm ▸ monic_X_pow_add (degree_toPoly_lt low)

theorem degree_eq : m.degree = w := by
  rw [hm, degree_add_eq_left_of_degree_lt] <;> rw [degree_X_pow]
  exact degree_toPoly_lt low

theorem elem_injective : Function.Injective (elem m : BitVec w → AdjoinRoot m) := by
  intro a b h
  have hdvd : m ∣ toPoly a - toPoly b := AdjoinRoot.mk_eq_mk.1 h
  have hdeg : (toPoly a - toPoly b).degree < m.degree := by
    rw [degree_eq hm]
    exact (degree_sub_le _ _).trans_lt (max_lt (degree_toPoly_lt a) (degree_toPoly_lt b))
  exact toPoly_injective (sub_eq_zero.1 (eq_zero_of_dvd_of_degree_lt hdvd hdeg))

theorem elem_surjective : Function.Surjective (elem m : BitVec w → AdjoinRoot m) := by
  intro x
  obtain ⟨p, rfl⟩ := AdjoinRoot.mk_surjective x
  obtain ⟨b, hb⟩ := exists_toPoly (w := w) (p := p %ₘ m)
    (degree_eq hm ▸ degree_modByMonic_lt p (monic hm))
  refine ⟨b, ?_⟩
  rw [elem, hb]
  exact AdjoinRoot.mk_eq_mk.2 ⟨-(p /ₘ m), by rw [modByMonic_eq_sub_mul_div]; ring⟩

/-- The words are exactly the elements of the quotient. -/
theorem elem_bijective : Function.Bijective (elem m : BitVec w → AdjoinRoot m) :=
  ⟨elem_injective hm, elem_surjective hm⟩

/-- Shifting the polynomial of a word takes its top bit out of the word. -/
theorem toPoly_timesX (b : BitVec w) :
    toPoly (timesX low b) = X * toPoly b + if b.msb then m else 0 := by
  ext i
  rw [coeff_toPoly, timesX, BitVec.getLsbD_xor, BitVec.getLsbD_shiftLeft, coeff_add]
  cases i with
  | zero =>
    by_cases hmsb : b.msb = true
    · have hw : w ≠ 0 := (BitVec.lt_of_getMsbD hmsb).ne'
      simp [hmsb, hm, coeff_X_pow, hw.symm]
    · simp [hmsb]
  | succ i =>
    rw [coeff_X_mul, coeff_toPoly]
    rcases lt_trichotomy (i + 1) w with hi | hi | hi
    · by_cases hmsb : b.msb = true
      · simp only [hmsb, hm, if_true, coeff_add, coeff_X_pow, hi.ne, if_false, coeff_toPoly, hi,
          decide_true, Nat.add_sub_cancel, Nat.not_lt.2 (Nat.le_add_left 1 i)]
        cases b.getLsbD i <;> cases low.getLsbD (i + 1) <;> decide
      · simp [hmsb, hi]
    · -- The top bit of `b`, which the coefficient of `X ^ w` in `m` cancels.
      subst hi
      have htop : b.msb = b.getLsbD i := BitVec.msb_eq_getLsbD_last b
      by_cases hmsb : b.msb = true
      · simp [hmsb, ← htop, hm]
        decide
      · have hbit : b.getLsbD i = false := htop ▸ Bool.eq_false_iff.2 hmsb
        simp [hmsb, hbit, -BitVec.getLsbD_eq_getElem]
    · simp [hm, BitVec.getLsbD_of_ge b i (by omega)]
      split <;> simp [hi.ne', BitVec.getLsbD_of_ge low (i + 1) hi.le]

/-- `timesX` is the multiplication by the root. -/
theorem elem_timesX (b : BitVec w) : elem m (timesX low b) = AdjoinRoot.root m * elem m b := by
  rw [elem, toPoly_timesX hm, map_add, map_mul, AdjoinRoot.mk_X, ← elem]
  split <;> simp

theorem elem_mulTop (a b : BitVec w) (k : ℕ) :
    elem m (mulTop low a b k) = elem m a * ∑ i ∈ Finset.range k,
      if b.getLsbD (w - 1 - i) then AdjoinRoot.root m ^ (k - 1 - i) else 0 := by
  induction k with
  | zero => simp [mulTop]
  | succ k ih =>
    have hshift : ∀ i ∈ Finset.range k,
        (AdjoinRoot.root m * if b.getLsbD (w - 1 - i) then AdjoinRoot.root m ^ (k - 1 - i) else 0) =
          if b.getLsbD (w - 1 - i) then AdjoinRoot.root m ^ (k + 1 - 1 - i) else 0 := by
      intro i hi
      have hlt : k + 1 - 1 - i = k - 1 - i + 1 := by have := Finset.mem_range.1 hi; omega
      rw [mul_ite, mul_zero, hlt, pow_succ']
    rw [mulTop, elem_xor, elem_timesX hm, ih, Finset.sum_range_succ, mul_add, mul_left_comm,
      Finset.mul_sum, Finset.sum_congr rfl hshift]
    congr 1
    split <;> simp

/-- `mul` is the multiplication. -/
theorem elem_mul (a b : BitVec w) : elem m (mul low a b) = elem m a * elem m b := by
  rw [mul, elem_mulTop hm, elem_eq_sum m b, ← Finset.sum_range_reflect]
  congr 1
  refine Finset.sum_congr rfl fun i hi => ?_
  have hlt : w - 1 - (w - 1 - i) = i := by have := Finset.mem_range.1 hi; omega
  rw [hlt]

/-- `pow` is the power. -/
theorem elem_pow (hw : 0 < w) (a : BitVec w) (k : ℕ) : elem m (pow low a k) = elem m a ^ k := by
  induction k with
  | zero => rw [pow, elem_one m hw, pow_zero]
  | succ k ih => rw [pow, elem_mul hm, ih, pow_succ]

theorem nontrivial (hw : 0 < w) : Nontrivial (AdjoinRoot m) := by
  refine ⟨0, 1, fun h => ?_⟩
  rw [← elem_zero m (w := w), ← elem_one m hw] at h
  simpa [hw.ne'] using congrArg BitVec.toNat (elem_injective hm h)

/-- If a word has the order `2 ^ w - 1`, every nonzero element is a power of it. -/
theorem exists_pow_eq (hw : 0 < w) {g : BitVec w} (hg : orderOf (elem m g) = 2 ^ w - 1)
    {y : AdjoinRoot m} (hy : y ≠ 0) : ∃ i < 2 ^ w - 1, elem m g ^ i = y := by
  classical
  have := nontrivial hm hw
  have hequiv := BitVec.equivFin.symm.toEquiv.trans (Equiv.ofBijective _ (elem_bijective hm))
  have : Fintype (AdjoinRoot m) := Fintype.ofEquiv _ hequiv
  have hcard : Fintype.card (AdjoinRoot m) = 2 ^ w := by
    rw [← Fintype.card_congr hequiv, Fintype.card_fin]
  let powers := (Finset.range (2 ^ w - 1)).image (elem m g ^ ·)
  have hpowers : powers ⊆ Finset.univ.erase 0 := by
    intro x hx
    obtain ⟨i, hi, rfl⟩ := Finset.mem_image.1 hx
    have hunit : IsUnit (elem m g) := by
      refine IsUnit.of_pow_eq_one (pow_orderOf_eq_one _) ?_
      rw [hg]
      exact (Nat.sub_pos_of_lt (Nat.one_lt_two_pow hw.ne')).ne'
    exact Finset.mem_erase.2 ⟨(hunit.pow i).ne_zero, Finset.mem_univ _⟩
  have hle : (Finset.univ.erase (0 : AdjoinRoot m)).card ≤ powers.card := by
    rw [Finset.card_erase_of_mem (Finset.mem_univ _), Finset.card_univ, hcard,
      Finset.card_image_of_injOn, Finset.card_range]
    rw [Finset.coe_range, ← hg]
    exact pow_injOn_Iio_orderOf
  have hmem : y ∈ powers := by
    rw [Finset.eq_of_subset_of_card_le hpowers hle]
    exact Finset.mem_erase.2 ⟨hy, Finset.mem_univ _⟩
  obtain ⟨i, hi, rfl⟩ := Finset.mem_image.1 hmem
  exact ⟨i, Finset.mem_range.1 hi, rfl⟩

/-- If a word has the order `2 ^ w - 1`, the modulus is irreducible. -/
theorem irreducible_of_orderOf_eq (hw : 0 < w) {g : BitVec w}
    (hg : orderOf (elem m g) = 2 ^ w - 1) : Irreducible m := by
  have hfield : IsField (AdjoinRoot m) := by
    refine ⟨(nontrivial hm hw).exists_pair_ne, mul_comm, fun {y} hy => ?_⟩
    obtain ⟨i, hi, rfl⟩ := exists_pow_eq hm hw hg hy
    refine ⟨elem m g ^ (2 ^ w - 1 - i), ?_⟩
    rw [← pow_add, Nat.add_sub_cancel' hi.le, ← hg, pow_orderOf_eq_one]
  have hmax : (Ideal.span {m}).IsMaximal := Ideal.Quotient.maximal_of_isField _ hfield
  exact ((Ideal.span_singleton_prime (monic hm).ne_zero).1 hmax.isPrime).irreducible

end EmbeddedSystems.BinaryField
