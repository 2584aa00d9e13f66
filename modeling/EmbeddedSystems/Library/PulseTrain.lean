import Mathlib

/-!
# Pulse trains

The output of a pulse width modulator: high while a counter that runs through
`0, …, period - 1` is below `duty` (`pulse`). It is periodic, every window of
one period holds `min duty period` high clocks (`count_pulse`), and they are
consecutive, when the end of the window is joined to its start
(`cyclicRun_pulse`). These are the laws of a pulse train (`IsPulseTrain`).
-/

namespace EmbeddedSystems.PulseTrain

variable {period duty phase : ℕ}

/-- The output at the clock `n`, where the counter is `phase` at the clock `0`. -/
def pulse (period duty phase n : ℕ) : Bool := decide ((phase + n) % period < duty)

/-- Among the `period` clocks from `n` on, exactly `len` are high, and they are consecutive: the
    clocks `a, a + 1, …, a + len - 1` of the window, modulo its length. -/
def CyclicRun (wave : ℕ → Bool) (n period len : ℕ) : Prop :=
  ∃ a < period, ∀ k < period, wave (n + k) = true ↔ ∃ j < len, k = (a + j) % period

/-- The laws of a pulse train. -/
structure IsPulseTrain (wave : ℕ → Bool) (period duty : ℕ) : Prop where
  periodic : Function.Periodic wave period
  /-- The number of high clocks in every window of one period. -/
  count : ∀ n, Nat.count (fun k => wave (n + k) = true) period = min duty period
  /-- They are consecutive, cyclically. -/
  run : ∀ n, CyclicRun wave n period (min duty period)
  low : duty = 0 → ∀ n, wave n = false
  high : period ≤ duty → ∀ n, wave n = true

theorem pulse_periodic (period duty phase : ℕ) :
    Function.Periodic (pulse period duty phase) period := by
  intro n
  rw [pulse, pulse, ← Nat.add_assoc, Nat.add_mod_right]

/-- A periodic predicate holds equally often in every window of one period. -/
theorem count_add_of_periodic {p : ℕ → Prop} [DecidablePred p] (hp : Function.Periodic p period)
    (n : ℕ) : Nat.count (fun k => p (n + k)) period = Nat.count p period := by
  have hshift : Nat.count (fun k => p (period + k)) n = Nat.count p n := by
    congr 1
    funext k
    rw [Nat.add_comm, hp k]
  have hsum : Nat.count p n + Nat.count (fun k => p (n + k)) period =
      Nat.count p n + Nat.count p period := by
    rw [← Nat.count_add, Nat.add_comm n, Nat.count_add, hshift, Nat.add_comm]
  exact Nat.add_left_cancel hsum

theorem count_mod_lt (period duty : ℕ) :
    Nat.count (fun k => k % period < duty) period = min duty period := by
  rw [Nat.count_eq_card_filter_range, ← Finset.card_range (min duty period)]
  congr 1
  ext k
  rw [Finset.mem_filter, Finset.mem_range, Finset.mem_range, lt_min_iff, and_comm]
  exact and_congr_left fun hk => by rw [Nat.mod_eq_of_lt hk]

/-- The number of high clocks in a window of one period. -/
theorem count_pulse (period duty phase n : ℕ) :
    Nat.count (fun k => pulse period duty phase (n + k) = true) period = min duty period := by
  have hperiodic : Function.Periodic (fun k => k % period < duty) period := by
    intro k
    simp only [Nat.add_mod_right]
  rw [← count_mod_lt, ← count_add_of_periodic hperiodic (phase + n)]
  simp only [pulse, decide_eq_true_eq, Nat.add_assoc]

/-- The high clocks of a window are consecutive. -/
theorem cyclicRun_pulse (hperiod : 0 < period) (duty phase n : ℕ) :
    CyclicRun (pulse period duty phase) n period (min duty period) := by
  -- The run starts where the counter comes back to zero.
  obtain ⟨a, ha, hzero⟩ : ∃ a < period, (phase + n + a) % period = 0 := by
    refine ⟨(period - (phase + n) % period) % period, Nat.mod_lt _ hperiod, ?_⟩
    rw [Nat.add_mod_mod, ← Nat.mod_add_mod, Nat.add_sub_cancel' (Nat.mod_lt _ hperiod).le,
      Nat.mod_self]
  have hcounter : ∀ j, (phase + (n + (a + j) % period)) % period = j % period := by
    intro j
    rw [← Nat.add_assoc, Nat.add_mod_mod, ← Nat.add_assoc, ← Nat.mod_add_mod, hzero, Nat.zero_add]
  refine ⟨a, ha, fun k hk => ⟨fun hhigh => ?_, ?_⟩⟩
  · rw [pulse, decide_eq_true_eq] at hhigh
    refine ⟨(phase + (n + k)) % period, lt_min hhigh (Nat.mod_lt _ hperiod), ?_⟩
    have hback : (a + (phase + (n + k))) % period = k := by
      rw [show a + (phase + (n + k)) = phase + n + a + k by omega, ← Nat.mod_add_mod, hzero,
        Nat.zero_add, Nat.mod_eq_of_lt hk]
    rw [Nat.add_mod_mod, hback]
  · rintro ⟨j, hj, rfl⟩
    rw [lt_min_iff] at hj
    rw [pulse, decide_eq_true_eq, hcounter, Nat.mod_eq_of_lt hj.2]
    exact hj.1

theorem pulse_of_duty_eq_zero (h : duty = 0) (n : ℕ) : pulse period duty phase n = false := by
  rw [pulse, h, decide_eq_false_iff_not]
  exact Nat.not_lt_zero _

theorem pulse_of_period_le (hperiod : 0 < period) (h : period ≤ duty) (n : ℕ) :
    pulse period duty phase n = true := by
  rw [pulse, decide_eq_true_eq]
  exact (Nat.mod_lt _ hperiod).trans_le h

theorem isPulseTrain_pulse (hperiod : 0 < period) (duty phase : ℕ) :
    IsPulseTrain (pulse period duty phase) period duty where
  periodic := pulse_periodic period duty phase
  count := count_pulse period duty phase
  run := cyclicRun_pulse hperiod duty phase
  low := pulse_of_duty_eq_zero
  high := pulse_of_period_le hperiod

end EmbeddedSystems.PulseTrain
