import Mathlib

/-!
# Chains of registers

Shift registers of `w` bits, by what has been shifted into them:

* a delay line (`delay`) holds in its bit `j` what went in `j + 1` edges ago
  (`getLsbD_delay_run`);
* a pulse stretcher (`stretch`) is filled with ones by a pulse, and shifts them out one by
  one: its bit `j` is set if there was a pulse at one of the last `w - j` edges
  (`getLsbD_stretch_run`).

What the registers hold at first leaves them after `w` edges.
-/

namespace EmbeddedSystems.ShiftChain

/-- `p` holds at one of the last `n` instants before `t`. -/
def Recent (p : ℕ → Prop) (n t : ℕ) : Prop := ∃ u < t, t ≤ u + n ∧ p u

variable {p : ℕ → Prop} {w n t : ℕ}

theorem recent_zero : ¬Recent p n 0 := fun ⟨_, hu, _⟩ => Nat.not_lt_zero _ hu

theorem not_recent_zero : ¬Recent p 0 t := fun ⟨_, hu, hle, _⟩ => Nat.not_lt.2 hle hu

theorem recent_succ : Recent p (n + 1) (t + 1) ↔ p t ∨ Recent p n t := by
  constructor
  · rintro ⟨u, hu, hle, hp⟩
    rcases Nat.lt_succ_iff_lt_or_eq.1 hu with hlt | rfl
    · exact Or.inr ⟨u, hlt, by omega, hp⟩
    · exact Or.inl hp
  · rintro (hp | ⟨u, hu, hle, hp⟩)
    · exact ⟨t, t.lt_succ_self, by omega, hp⟩
    · exact ⟨u, Nat.lt_succ_of_lt hu, by omega, hp⟩

/-! ## Delay lines -/

/-- `{c[w-2:0], a}`. -/
def delay (a : Bool) (c : BitVec w) : BitVec w := (c.concat a).setWidth w

theorem getLsbD_delay_zero (hw : 0 < w) (a : Bool) (c : BitVec w) :
    (delay a c).getLsbD 0 = a := by
  rw [delay, BitVec.getLsbD_setWidth, BitVec.getLsbD_concat, decide_eq_true hw, Bool.true_and,
    if_pos rfl]

theorem getLsbD_delay_succ {j : ℕ} (hj : j + 1 < w) (a : Bool) (c : BitVec w) :
    (delay a c).getLsbD (j + 1) = c.getLsbD j := by
  rw [delay, BitVec.getLsbD_setWidth, BitVec.getLsbD_concat, decide_eq_true hj, Bool.true_and,
    if_neg j.succ_ne_zero, Nat.add_sub_cancel]

theorem getLsbD_delay_run {c : ℕ → BitVec w} {a : ℕ → Bool}
    (h : ∀ t, c (t + 1) = delay (a t) (c t)) {j : ℕ} (hj : j < w) (t : ℕ) :
    (c (t + 1 + j)).getLsbD j = a t := by
  induction j with
  | zero => rw [Nat.add_zero, h, getLsbD_delay_zero hj]
  | succ j ih => rw [← Nat.add_assoc, h, getLsbD_delay_succ hj, ih (Nat.lt_of_succ_lt hj)]

/-! ## Pulse stretchers -/

/-- All ones if there is a pulse, and `{0, c[w-1:1]}` otherwise. -/
def stretch (a : Bool) (c : BitVec w) : BitVec w := if a = true then BitVec.allOnes w else c >>> 1

theorem getLsbD_stretch {j : ℕ} (hj : j < w) (a : Bool) (c : BitVec w) :
    (stretch a c).getLsbD j = (a || c.getLsbD (j + 1)) := by
  rw [stretch]
  split_ifs with ha
  · rw [ha, BitVec.getLsbD_allOnes, decide_eq_true hj, Bool.true_or]
  · rw [Bool.eq_false_iff.2 ha, BitVec.getLsbD_ushiftRight, Bool.false_or, Nat.add_comm]

/-- By induction on the edges; the bit `j` comes from the bit `j + 1`. -/
theorem getLsbD_stretch_run {c : ℕ → BitVec w} {a : ℕ → Bool}
    (h : ∀ t, c (t + 1) = stretch (a t) (c t)) {j : ℕ} (hj : j ≤ w) (t : ℕ) :
    (c t).getLsbD j = true ↔
      Recent (fun u => a u = true) (w - j) t ∨ (c 0).getLsbD (j + t) = true := by
  induction t generalizing j with
  | zero => rw [or_iff_right recent_zero, Nat.add_zero]
  | succ t ih =>
    rcases Nat.lt_or_eq_of_le hj with hlt | rfl
    · obtain ⟨n, hn⟩ := Nat.exists_eq_add_of_lt hlt
      have hwidth : w - j = n + 1 := by omega
      have hrest : w - (j + 1) = n := by omega
      have hplace : j + 1 + t = j + (t + 1) := by omega
      rw [h, getLsbD_stretch hlt, Bool.or_eq_true, ih hlt, hwidth, hrest, recent_succ, or_assoc,
        hplace]
    · rw [Nat.sub_self, or_iff_right not_recent_zero, BitVec.getLsbD_of_ge _ _ le_rfl,
        BitVec.getLsbD_of_ge _ _ (Nat.le_add_right _ _)]

/-- When the first contents have been shifted out, there only are the pulses. -/
theorem getLsbD_stretch_late {c : ℕ → BitVec w} {a : ℕ → Bool}
    (h : ∀ t, c (t + 1) = stretch (a t) (c t)) {j : ℕ} (hj : j ≤ w) (ht : w ≤ j + t) :
    (c t).getLsbD j = true ↔ Recent (fun u => a u = true) (w - j) t := by
  rw [getLsbD_stretch_run h hj, or_iff_left]
  rw [BitVec.getLsbD_of_ge _ _ ht]
  exact Bool.false_ne_true

end EmbeddedSystems.ShiftChain
