import Mathlib

/-!
# Big-endian numerals

An array of `n` digits of `w` bits, the most significant first, as a number below
`2 ^ (w * n)`, and back: `value` and `ofNat` are inverse to each other up to
that bound (`value_ofNat`, `eq_ofNat_iff`).

An algorithm that works on a numeral digit by digit from the last one on is
followed through the values of the first `k` digits (`prefixValue`).
-/

namespace EmbeddedSystems.BigEndian

variable {w n : ℕ}

/-- The number with the first `k` digits of `v`. -/
def prefixValue (v : Vector (BitVec w) n) : (k : ℕ) → ℕ
  | 0 => 0
  | k + 1 => prefixValue v k * 2 ^ w + v[k]!.toNat

/-- The number with the digits `v`. -/
def value (v : Vector (BitVec w) n) : ℕ := prefixValue v n

/-- The last `n` digits of a number. -/
def ofNat (w n : ℕ) (x : ℕ) : Vector (BitVec w) n :=
  Vector.ofFn fun i => BitVec.ofNat w (x / 2 ^ (w * (n - 1 - i)))

theorem prefixValue_lt (v : Vector (BitVec w) n) (k : ℕ) : prefixValue v k < 2 ^ (w * k) := by
  induction k with
  | zero => exact Nat.one_pos
  | succ k ih =>
    calc prefixValue v k * 2 ^ w + v[k]!.toNat
        < prefixValue v k * 2 ^ w + 2 ^ w := Nat.add_lt_add_left v[k]!.isLt _
      _ = (prefixValue v k + 1) * 2 ^ w := (Nat.succ_mul _ _).symm
      _ ≤ 2 ^ (w * k) * 2 ^ w := Nat.mul_le_mul_right _ ih
      _ = 2 ^ (w * (k + 1)) := by rw [← pow_add, Nat.mul_succ]

theorem value_lt (v : Vector (BitVec w) n) : value v < 2 ^ (w * n) := prefixValue_lt v n

/-- The first `k` digits only depend on themselves. -/
theorem prefixValue_congr {v v' : Vector (BitVec w) n} {k : ℕ} (h : ∀ i < k, v[i]! = v'[i]!) :
    prefixValue v k = prefixValue v' k := by
  induction k with
  | zero => rfl
  | succ k ih =>
    rw [prefixValue, prefixValue, ih fun i hi => h i (Nat.lt_succ_of_lt hi),
      h k (Nat.lt_succ_self k)]

/-- The first `k` digits are determined by the number they make. -/
theorem getElem!_eq_of_prefixValue_eq {v v' : Vector (BitVec w) n} {k : ℕ}
    (h : prefixValue v k = prefixValue v' k) : ∀ i < k, v[i]! = v'[i]! := by
  induction k with
  | zero => exact fun i hi => absurd hi (Nat.not_lt_zero i)
  | succ k ih =>
    have hdiv : ∀ u : Vector (BitVec w) n, prefixValue u (k + 1) / 2 ^ w = prefixValue u k := by
      intro u
      rw [prefixValue, mul_comm, Nat.mul_add_div (Nat.two_pow_pos w),
        Nat.div_eq_of_lt u[k]!.isLt, Nat.add_zero]
    have hmod : ∀ u : Vector (BitVec w) n, prefixValue u (k + 1) % 2 ^ w = u[k]!.toNat := by
      intro u
      rw [prefixValue, mul_comm, Nat.mul_add_mod, Nat.mod_eq_of_lt u[k]!.isLt]
    intro i hi
    rcases Nat.lt_succ_iff_lt_or_eq.1 hi with hlt | rfl
    · exact ih (by rw [← hdiv, h, hdiv]) i hlt
    · exact BitVec.eq_of_toNat_eq (by rw [← hmod, h, hmod])

theorem value_injective : Function.Injective (value : Vector (BitVec w) n → ℕ) := by
  intro v v' h
  ext i hi : 1
  have hdigit := getElem!_eq_of_prefixValue_eq h i hi
  rwa [getElem!_pos v i hi, getElem!_pos v' i hi] at hdigit

theorem prefixValue_ofNat (x : ℕ) {k : ℕ} (hk : k ≤ n) :
    prefixValue (ofNat w n x) k = x / 2 ^ (w * (n - k)) % 2 ^ (w * k) := by
  induction k with
  | zero => simp [prefixValue, Nat.mod_one]
  | succ k ih =>
    have hdigit : (ofNat w n x)[k]!.toNat = x / 2 ^ (w * (n - (k + 1))) % 2 ^ w := by
      rw [getElem!_pos _ k hk, ofNat, Vector.getElem_ofFn, BitVec.toNat_ofNat,
        Nat.sub_sub, Nat.add_comm 1 k]
    have hshift : x / 2 ^ (w * (n - k)) = x / 2 ^ (w * (n - (k + 1))) / 2 ^ w := by
      have hsucc : n - k = n - (k + 1) + 1 := by omega
      rw [Nat.div_div_eq_div_mul, ← pow_add, hsucc, Nat.mul_succ]
    rw [prefixValue, ih (Nat.le_of_succ_le hk), hdigit, hshift, Nat.mul_succ, pow_add,
      Nat.mul_comm (2 ^ (w * k)), Nat.mod_mul, mul_comm (2 ^ w), add_comm]

theorem value_ofNat (x : ℕ) : value (ofNat w n x) = x % 2 ^ (w * n) := by
  rw [value, prefixValue_ofNat x le_rfl, Nat.sub_self, Nat.mul_zero, pow_zero, Nat.div_one]

theorem eq_ofNat_iff {v : Vector (BitVec w) n} {x : ℕ} :
    v = ofNat w n x ↔ value v = x % 2 ^ (w * n) := by
  rw [← value_ofNat, value_injective.eq_iff]

end EmbeddedSystems.BigEndian
