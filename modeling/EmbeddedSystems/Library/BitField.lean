import Mathlib

/-!
# Fields of bits

A vector of bits that is read and assigned field by field. An assignment to a field is seen
in that field (`get_set`), and in no field that is disjoint from it (`get_set_of_disjoint`);
vectors of different width that agree have the same fields (`get_setWidth`).

Clearing the low bits of an address tells the block it is in (`set_low_eq_iff`).
-/

namespace EmbeddedSystems.BitField

/-- A field of `n` bits, by the position of its lowest bit. -/
structure Field (n : ℕ) where
  lo : ℕ

namespace Field

variable {n m w w' : ℕ}

/-- The bits of a field. -/
def get (f : Field n) (v : BitVec w) : BitVec n := v.extractLsb' f.lo n

/-- The vector after an assignment to a field. -/
def set (f : Field n) (x : BitVec n) (v : BitVec w) : BitVec w :=
  BitVec.ofFnLE fun i => if f.lo ≤ i ∧ i < f.lo + n then x.getLsbD (i - f.lo) else v.getLsbD i

/-- A field of one bit. -/
def flag (f : Field 1) (v : BitVec w) : Bool := v.getLsbD f.lo

def setFlag (f : Field 1) (b : Bool) (v : BitVec w) : BitVec w := f.set (BitVec.ofBool b) v

/-- No bit is in both fields. -/
def Disjoint (f : Field n) (g : Field m) : Prop := f.lo + n ≤ g.lo ∨ g.lo + m ≤ f.lo

instance (f : Field n) (g : Field m) : Decidable (f.Disjoint g) :=
  inferInstanceAs (Decidable (_ ∨ _))

variable {f : Field n} {g : Field m} {b c : Field 1}

theorem getLsbD_set (f : Field n) (x : BitVec n) (v : BitVec w) {i : ℕ} (hi : i < w) :
    (f.set x v).getLsbD i =
      if f.lo ≤ i ∧ i < f.lo + n then x.getLsbD (i - f.lo) else v.getLsbD i := by
  rw [set, BitVec.getLsbD_ofFnLE, dif_pos hi]

@[simp] theorem get_set (h : f.lo + n ≤ w) (x : BitVec n) (v : BitVec w) :
    f.get (f.set x v) = x := by
  apply BitVec.eq_of_getLsbD_eq
  intro i hi
  rw [get, BitVec.getLsbD_extractLsb', getLsbD_set f x v (by omega), if_pos (by omega),
    decide_eq_true hi, Bool.true_and, Nat.add_sub_cancel_left]

@[simp] theorem get_set_of_disjoint (h : f.Disjoint g) (x : BitVec m) (v : BitVec w) :
    f.get (g.set x v) = f.get v := by
  apply BitVec.eq_of_getLsbD_eq
  intro i hi
  rw [get, get, BitVec.getLsbD_extractLsb', BitVec.getLsbD_extractLsb']
  rcases Nat.lt_or_ge (f.lo + i) w with hw | hw
  · rw [getLsbD_set g x v hw, if_neg]
    rcases h with h | h <;> omega
  · rw [BitVec.getLsbD_of_ge _ _ hw, BitVec.getLsbD_of_ge _ _ hw]

@[simp] theorem get_setWidth (h : f.lo + n ≤ w') (v : BitVec w) :
    f.get (v.setWidth w') = f.get v := by
  apply BitVec.eq_of_getLsbD_eq
  intro i hi
  rw [get, get, BitVec.getLsbD_extractLsb', BitVec.getLsbD_extractLsb', BitVec.getLsbD_setWidth,
    decide_eq_true (by omega : f.lo + i < w'), Bool.true_and]

theorem flag_eq_get (b : Field 1) (v : BitVec w) : b.flag v = (b.get v).getLsbD 0 := by
  rw [flag, get, BitVec.getLsbD_extractLsb', decide_eq_true Nat.one_pos, Bool.true_and, add_zero]

@[simp] theorem flag_setFlag (h : b.lo + 1 ≤ w) (x : Bool) (v : BitVec w) :
    b.flag (b.setFlag x v) = x := by
  rw [flag_eq_get, setFlag, get_set h, BitVec.getLsbD_ofBool, decide_eq_true rfl, Bool.true_and]

@[simp] theorem flag_set_of_disjoint (h : b.Disjoint g) (x : BitVec m) (v : BitVec w) :
    b.flag (g.set x v) = b.flag v := by
  rw [flag_eq_get, flag_eq_get, get_set_of_disjoint h]

@[simp] theorem flag_setFlag_of_disjoint (h : b.Disjoint c) (x : Bool) (v : BitVec w) :
    b.flag (c.setFlag x v) = b.flag v :=
  flag_set_of_disjoint h _ v

@[simp] theorem get_setFlag_of_disjoint (h : f.Disjoint c) (x : Bool) (v : BitVec w) :
    f.get (c.setFlag x v) = f.get v :=
  get_set_of_disjoint h _ v

@[simp] theorem flag_setWidth (h : b.lo + 1 ≤ w') (v : BitVec w) :
    b.flag (v.setWidth w') = b.flag v := by
  rw [flag_eq_get, flag_eq_get, get_setWidth h]

/-! ## The low bits -/

/-- The `p` low bits. -/
def low (p : ℕ) : Field p := ⟨0⟩

theorem toNat_set_low {p : ℕ} (hp : p ≤ w) (a : BitVec w) :
    ((low p).set 0#p a).toNat = a.toNat / 2 ^ p * 2 ^ p := by
  apply Nat.eq_of_testBit_eq
  intro i
  rw [← Nat.shiftRight_eq_div_pow, ← Nat.shiftLeft_eq, Nat.testBit_shiftLeft,
    Nat.testBit_shiftRight, BitVec.testBit_toNat, BitVec.testBit_toNat]
  rcases Nat.lt_or_ge i w with hw | hw
  · rw [getLsbD_set _ _ _ hw]
    rcases Nat.lt_or_ge i p with hip | hip
    · rw [if_pos ⟨Nat.zero_le i, by change i < 0 + p; omega⟩, BitVec.getLsbD_zero,
        decide_eq_false (Nat.not_le.2 hip), Bool.false_and]
    · rw [if_neg fun h => Nat.not_le.2 (h.2.trans_eq (Nat.zero_add p)) hip, decide_eq_true hip,
        Bool.true_and, Nat.add_sub_cancel' hip]
  · rw [BitVec.getLsbD_of_ge _ _ hw, decide_eq_true (hp.trans hw), Bool.true_and,
      Nat.add_sub_cancel' (hp.trans hw), BitVec.getLsbD_of_ge _ _ hw]

/-- An address is in the block that its high bits tell. -/
theorem set_low_eq_iff {p : ℕ} (hp : p ≤ w) {base : BitVec w} (hbase : 2 ^ p ∣ base.toNat)
    (a : BitVec w) :
    (low p).set 0#p a = base ↔ base.toNat ≤ a.toNat ∧ a.toNat < base.toNat + 2 ^ p := by
  rcases hbase with ⟨k, hk⟩
  rw [← BitVec.toNat_inj, toNat_set_low hp, hk, mul_comm (2 ^ p) k,
    Nat.mul_left_inj (Nat.two_pow_pos p).ne', Nat.div_eq_iff (Nat.two_pow_pos p)]
  have hpos := Nat.two_pow_pos p
  constructor <;> rintro ⟨h, h'⟩ <;> constructor <;> omega

end Field

end EmbeddedSystems.BitField
