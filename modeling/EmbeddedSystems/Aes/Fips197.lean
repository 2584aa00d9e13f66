import EmbeddedSystems.Library.BinaryField
import EmbeddedSystems.Library.Memory

/-!
# The cipher of FIPS-197

What AES is for, stated mathematically and independently of the program: bytes
are the elements of the field GF(2^8) of polynomials modulo
`x^8 + x^4 + x^3 + x + 1` (`byteEquiv`), and the steps of the cipher are

* `subByte`: an affine map over GF(2) of the inverse in the field;
* `shiftRows`: a rotation of the row `r` by `r`;
* `mixColumns`: the multiplication of a column, as a polynomial over the field,
  by `{03}x^3 + {01}x^2 + {01}x + {02}` modulo `x^4 + 1`;
* `keyWord`: the recurrence of the key expansion, whose round constants are
  powers of `x`.

The state is a matrix indexed by row and column. Nothing here is a table.
-/

namespace EmbeddedSystems.Fips197

open Polynomial BinaryField

/-! ## The field -/

/-- The polynomial `x^8 + x^4 + x^3 + x + 1` over GF(2). -/
noncomputable def rijndael : (ZMod 2)[X] := X ^ 8 + X ^ 4 + X ^ 3 + X + 1

theorem rijndael_eq : rijndael = X ^ 8 + toPoly 0x1b#8 := by
  simp [rijndael, toPoly, Finset.sum_range_succ]
  ring

/-- A prime factor of 255. -/
theorem eq_of_prime_dvd_255 {p : ℕ} (hp : p.Prime) (hdvd : p ∣ 255) : p = 3 ∨ p = 5 ∨ p = 17 := by
  rw [show 255 = 3 * (5 * 17) from rfl, hp.dvd_mul, hp.dvd_mul] at hdvd
  exact hdvd.imp (Nat.prime_dvd_prime_iff_eq hp (by norm_num)).1
    (Or.imp (Nat.prime_dvd_prime_iff_eq hp (by norm_num)).1
      (Nat.prime_dvd_prime_iff_eq hp (by norm_num)).1)

/-- The powers of `{03}` are all the nonzero bytes. -/
theorem orderOf_three : orderOf (elem rijndael 0x03#8) = 255 := by
  have hpow : ∀ k, elem rijndael 0x03#8 ^ k = elem rijndael (pow 0x1b#8 0x03#8 k) :=
    fun k => (elem_pow rijndael_eq (by decide) _ k).symm
  have hone : (1 : AdjoinRoot rijndael) = elem rijndael 1#8 := (elem_one _ (by decide)).symm
  refine orderOf_eq_of_pow_and_pow_div_prime (by decide) ?_ fun p hp hdvd => ?_
  · have h255 : pow 0x1b#8 0x03#8 255 = 1#8 := by decide +kernel
    rw [hpow, h255, hone]
  · have hne : ∀ k ∈ [255 / 3, 255 / 5, 255 / 17], pow 0x1b#8 0x03#8 k ≠ 1#8 := by
      decide +kernel
    have hmem : 255 / p ∈ [255 / 3, 255 / 5, 255 / 17] := by
      rcases eq_of_prime_dvd_255 hp hdvd with rfl | rfl | rfl <;> decide
    rw [hpow, hone]
    exact fun h => hne _ hmem (elem_injective rijndael_eq h)

theorem irreducible_rijndael : Irreducible rijndael :=
  irreducible_of_orderOf_eq rijndael_eq (by decide) orderOf_three

instance : Fact (Irreducible rijndael) := ⟨irreducible_rijndael⟩

/-- GF(2^8). -/
abbrev GF256 := AdjoinRoot rijndael

/-- The element `x` of the field. -/
noncomputable abbrev root : GF256 := AdjoinRoot.root rijndael

/-- The byte with bits `b₇ … b₀` as the element `b₇x^7 + ⋯ + b₁x + b₀`. -/
noncomputable def byteEquiv : Byte ≃ GF256 := Equiv.ofBijective _ (elem_bijective rijndael_eq)

theorem byteEquiv_apply (b : Byte) : byteEquiv b = elem rijndael b := rfl

@[simp]
theorem byteEquiv_xor (a b : Byte) : byteEquiv (a ^^^ b) = byteEquiv a + byteEquiv b :=
  elem_xor rijndael a b

@[simp]
theorem byteEquiv_zero : byteEquiv 0#8 = 0 := elem_zero rijndael

@[simp]
theorem byteEquiv_one : byteEquiv 1#8 = 1 := elem_one rijndael (by decide)

/-- The field has characteristic two. -/
theorem two_eq_zero : (2 : GF256) = 0 := by
  rw [← map_ofNat (AdjoinRoot.of rijndael) 2, show (OfNat.ofNat 2 : ZMod 2) = 0 from rfl, map_zero]

/-- The inverse of a byte is the byte whose product with it is one. -/
theorem symm_inv_byteEquiv {a b : Byte} (h : mul 0x1b#8 a b = 1#8) :
    byteEquiv.symm (byteEquiv a)⁻¹ = b := by
  rw [Equiv.symm_apply_eq]
  refine inv_eq_of_mul_eq_one_right ?_
  rw [byteEquiv_apply, byteEquiv_apply, ← elem_mul rijndael_eq, h]
  exact byteEquiv_one

/-! ## The S-box -/

/-- The affine map of the S-box: bit `i` is `b_i + b_{i+4} + b_{i+5} + b_{i+6} + b_{i+7} + c_i`,
    with indices modulo 8 and `c = {63}`. -/
def affine (b : Byte) : Byte := BitVec.ofFnLE fun i : Fin 8 =>
  b.getLsb i ^^ b.getLsb (i + 4) ^^ b.getLsb (i + 5) ^^ b.getLsb (i + 6) ^^ b.getLsb (i + 7) ^^
    (0x63#8).getLsb i

/-- The S-box. The inverse of zero is zero. -/
noncomputable def subByte (b : Byte) : Byte := affine (byteEquiv.symm (byteEquiv b)⁻¹)

/-! ## The key expansion -/

/-- A word: its bytes `a₀, …, a₃`. -/
abbrev Word := Fin 4 → Byte

noncomputable def subWord (a : Word) : Word := fun j => subByte (a j)

def rotWord (a : Word) : Word := fun j => a (j + 1)

/-- The round constant `i`: the word `x^(i-1), 0, 0, 0`. -/
noncomputable def rcon (i : ℕ) : Word :=
  ![byteEquiv.symm (root ^ (i - 1)), 0, 0, 0]

/-- The word `i` of the key schedule of the key of `nk` words with the bytes `key`. -/
noncomputable def keyWord (nk : ℕ) (key : ℕ → Byte) (i : ℕ) : Word :=
  if i < nk ∨ nk = 0 then fun j => key (4 * i + j)
  else
    let temp := keyWord nk key (i - 1)
    let temp :=
      if i % nk = 0 then fun j => subWord (rotWord temp) j ^^^ rcon (i / nk) j
      else if 6 < nk ∧ i % nk = 4 then subWord temp
      else temp
    fun j => keyWord nk key (i - nk) j ^^^ temp j
termination_by i

theorem keyWord_of_lt {nk i : ℕ} (key : ℕ → Byte) (h : i < nk) :
    keyWord nk key i = fun j : Fin 4 => key (4 * i + j) := by
  rw [keyWord, if_pos (Or.inl h)]

theorem keyWord_of_le {nk i : ℕ} (key : ℕ → Byte) (hpos : 0 < nk) (h : nk ≤ i) :
    keyWord nk key i = fun j => keyWord nk key (i - nk) j ^^^
      (if i % nk = 0 then fun j => subWord (rotWord (keyWord nk key (i - 1))) j ^^^ rcon (i / nk) j
      else if 6 < nk ∧ i % nk = 4 then subWord (keyWord nk key (i - 1))
      else keyWord nk key (i - 1)) j := by
  have hrec : ¬(i < nk ∨ nk = 0) := by omega
  rw [keyWord, if_neg hrec]

/-! ## The cipher -/

/-- The state: the byte in each row and column. -/
abbrev State := Matrix (Fin 4) (Fin 4) Byte

noncomputable def subBytes (s : State) : State := fun r c => subByte (s r c)

def shiftRows (s : State) : State := fun r c => s r (c + r)

/-- The polynomial `{03}x^3 + {01}x^2 + {01}x + {02}`. -/
noncomputable def mixPoly : GF256[X] :=
  C (byteEquiv 0x03) * X ^ 3 + C (byteEquiv 0x01) * X ^ 2 + C (byteEquiv 0x01) * X +
    C (byteEquiv 0x02)

/-- The column `c` of the state as a polynomial over the field. -/
noncomputable def colPoly (s : State) (c : Fin 4) : GF256[X] :=
  ∑ r, C (byteEquiv (s r c)) * X ^ (r : ℕ)

noncomputable def mixColumns (s : State) : State := fun r c =>
  byteEquiv.symm (((mixPoly * colPoly s c) %ₘ (X ^ 4 + 1)).coeff r)

/-- The round key of the round `n` is the words from `4 * n` on, one for each column. -/
def addRoundKey (w : ℕ → Word) (n : ℕ) (s : State) : State := fun r c => s r c ^^^ w (4 * n + c) r

/-- The state after the rounds `1, …, n`. -/
noncomputable def rounds (w : ℕ → Word) (s : State) : ℕ → State
  | 0 => addRoundKey w 0 s
  | n + 1 => addRoundKey w (n + 1) (mixColumns (shiftRows (subBytes (rounds w s n))))

/-- The cipher of `nr` rounds, the last of which does not mix the columns. -/
noncomputable def cipher (nr : ℕ) (w : ℕ → Word) (s : State) : State :=
  addRoundKey w nr (shiftRows (subBytes (rounds w s (nr - 1))))

/-- The byte `k` of the input is in the row `k mod 4` and the column `k div 4`. -/
def ofBlock (inp : Vector Byte 16) : State := fun r c => inp.get ⟨r + 4 * c, by omega⟩

def toBlock (s : State) : Vector Byte 16 := Vector.ofFn fun k =>
  s ⟨k % 4, Nat.mod_lt _ (by decide)⟩ ⟨k / 4, by omega⟩

/-- The encryption of a block under a key of `nk` words, in `nr` rounds. -/
noncomputable def encrypt (nk nr : ℕ) (key : ℕ → Byte) (inp : Vector Byte 16) : Vector Byte 16 :=
  toBlock (cipher nr (keyWord nk key) (ofBlock inp))

end EmbeddedSystems.Fips197
