import Mathlib

/-!
# The first set bit

The bits of `~x + 2 ^ p`, and with them the first set bit of `x` at an index that is
not below `p`: it is the only bit that `x` and `~x + 2 ^ p` have in common
(`getLsbD_and_not_add_twoPow`). The carry of the sum reaches an index above `p` if and
only if `x` has no bit set from `p` up to there (`carry_not_twoPow`).
-/

namespace EmbeddedSystems.BitScan

variable {w : ℕ}

theorem carry_not_twoPow (x : BitVec w) {p i : ℕ} (hp : p < w) (hi : i ≤ w) :
    BitVec.carry i (~~~x) (BitVec.twoPow w p) false = true ↔
      p < i ∧ ∀ j, p ≤ j → j < i → x.getLsbD j = false := by
  induction i with
  | zero => simp
  | succ i ih =>
    have ih := ih (Nat.le_of_succ_le hi)
    have hnot : (~~~x).getLsbD i = !x.getLsbD i := by
      rw [BitVec.getLsbD_not, decide_eq_true (Nat.lt_of_succ_le hi), Bool.true_and]
    rw [BitVec.carry_succ, hnot, BitVec.getLsbD_twoPow, decide_eq_true hp, Bool.true_and]
    rcases lt_trichotomy p i with hlt | rfl | hlt
    · -- Above `p` the carry goes on where `x` has no bit.
      rw [decide_eq_false hlt.ne, Bool.atLeastTwo_false_mid, Bool.and_eq_true, ih,
        Bool.not_eq_true']
      constructor
      · rintro ⟨hx, -, hall⟩
        refine ⟨Nat.lt_succ_of_lt hlt, fun j hpj hj => ?_⟩
        rcases Nat.lt_succ_iff_lt_or_eq.1 hj with hj | rfl
        · exact hall j hpj hj
        · exact hx
      · rintro ⟨-, hall⟩
        exact ⟨hall i hlt.le i.lt_succ_self, hlt, fun j hpj hj => hall j hpj (Nat.lt_succ_of_lt hj)⟩
    · -- At `p` there is no carry in.
      have hcarry : BitVec.carry p (~~~x) (BitVec.twoPow w p) false = false := by
        rw [Bool.eq_false_iff]
        exact fun h => lt_irrefl p (ih.1 h).1
      rw [hcarry, decide_eq_true rfl, Bool.atLeastTwo_false_right, Bool.and_true,
        Bool.not_eq_true']
      constructor
      · intro hx
        refine ⟨p.lt_succ_self, fun j hpj hj => ?_⟩
        rwa [Nat.le_antisymm (Nat.lt_succ_iff.1 hj) hpj]
      · exact fun h => h.2 p le_rfl p.lt_succ_self
    · -- Below `p` both the carry in and the bit of `2 ^ p` are zero.
      have hcarry : BitVec.carry i (~~~x) (BitVec.twoPow w p) false = false := by
        rw [Bool.eq_false_iff]
        exact fun h => lt_asymm hlt (ih.1 h).1
      rw [hcarry, decide_eq_false hlt.ne', Bool.atLeastTwo_false_right, Bool.and_false]
      exact iff_of_false Bool.false_ne_true fun h => absurd h.1 (not_lt.2 hlt)

theorem getLsbD_and_not_add_twoPow (x : BitVec w) {p i : ℕ} (hp : p < w) :
    (x &&& (~~~x + BitVec.twoPow w p)).getLsbD i = true ↔
      x.getLsbD i = true ∧ p ≤ i ∧ ∀ j, p ≤ j → j < i → x.getLsbD j = false := by
  rw [BitVec.getLsbD_and, Bool.and_eq_true]
  refine and_congr_right fun hx => ?_
  have hi : i < w := BitVec.lt_of_getLsbD hx
  have hcarry := carry_not_twoPow x hp hi.le
  rw [BitVec.getLsbD_add hi, BitVec.getLsbD_not, hx, BitVec.getLsbD_twoPow, decide_eq_true hi,
    decide_eq_true hp]
  rcases eq_or_ne p i with rfl | hne
  · have hfalse : BitVec.carry p (~~~x) (BitVec.twoPow w p) false = false := by
      rw [Bool.eq_false_iff]
      exact fun h => lt_irrefl p (hcarry.1 h).1
    rw [hfalse, decide_eq_true rfl]
    exact iff_of_true rfl ⟨le_rfl, fun j hpj hj => absurd hj (not_lt.2 hpj)⟩
  · rw [decide_eq_false hne, Bool.not_true, Bool.and_false, Bool.false_xor, Bool.false_xor,
      hcarry]
    exact and_congr_left fun _ => ⟨le_of_lt, fun h => lt_of_le_of_ne h hne⟩

end EmbeddedSystems.BitScan
