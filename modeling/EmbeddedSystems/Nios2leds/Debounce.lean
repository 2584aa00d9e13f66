import EmbeddedSystems.Library.Streak

/-!
# The debouncer

The module `debounce`, whose text is the same in Lesson 2 and in Lesson 3: one
counter for each input, of `TIMEOUT_WIDTH` bits, which counts the edges of the
clock in a row at which the input is active, up to `TIMEOUT`. The output is
active when the counter is at `TIMEOUT`.

The debouncer does so for exactly the parameters with which the counter can
represent `TIMEOUT` (`debounces_iff`). The comment of the source prescribes
`ceil(log2(TIMEOUT))` bits, which is enough unless `TIMEOUT` is a power of two
(`debounce_sizing_rule`): the counter then wraps, and the output is never active.

The reset input is active low: `Pins.reset` holds while `reset_n` is zero.
-/

namespace EmbeddedSystems.Nios2leds

open Clocked Streak

/-- The parameter `POLARITY`: `"HIGH"`, or any other text. -/
inductive Polarity
  | high
  | low

/-- The parameters of the module. -/
structure DebounceParams where
  width : ℕ
  polarity : Polarity
  timeout : ℕ
  timeoutWidth : ℕ

namespace Debounce

variable (p : DebounceParams)

/-- The array `counter`. -/
abbrev State := Fin p.width → BitVec p.timeoutWidth

/-- The wire `counter_reset[i]`. -/
def counterReset (dataIn : BitVec p.width) (i : Fin p.width) : Bool :=
  match p.polarity with
  | .high => dataIn.getLsb i = false
  | .low => dataIn.getLsb i = true

/-- The wire `counter_enable[i]`. The comparison extends the counter to the width of `TIMEOUT`. -/
def counterEnable (dataIn : BitVec p.width) (s : State p) (i : Fin p.width) : Bool :=
  match p.polarity with
  | .high => dataIn.getLsb i = true && (s i).toNat < p.timeout
  | .low => dataIn.getLsb i = false && (s i).toNat < p.timeout

/-- The output `data_out[i]`. -/
def dataOut (s : State p) (i : Fin p.width) : Bool :=
  match p.polarity with
  | .high => if (s i).toNat = p.timeout then true else false
  | .low => if (s i).toNat = p.timeout then false else true

/-- The block of the loop `debounce_counter_loop`, at a rising edge of the clock. -/
def counterClock (i : Fin p.width) (dataIn : BitVec p.width) (s : State p) :
    BitVec p.timeoutWidth :=
  -- resetting the counter needs to win
  if counterReset p dataIn i = true then 0
  else if counterEnable p dataIn s i = true then s i + 1
  else s i

/-- All blocks, at an instant of the waveform. -/
def step (old new : Pins (BitVec p.width)) (s : State p) : State p := fun i =>
  verilogAlways (fun s => s i) 0 (counterClock p i) old new s

/-- The state at every instant, from reset. -/
def run (ω : Waveform (BitVec p.width)) : ℕ → State p := states (step p) (fun _ => 0) ω

/-! ## What it is for -/

/-- The input `i` is in the active state. -/
def active (i : Fin p.width) (dataIn : BitVec p.width) : Bool :=
  match p.polarity with
  | .high => dataIn.getLsb i
  | .low => !dataIn.getLsb i

/-- The output `i` is in the active state. -/
def outActive (s : State p) (i : Fin p.width) : Bool :=
  match p.polarity with
  | .high => dataOut p s i
  | .low => !dataOut p s i

/-- In every run, the output `i` is active exactly when the input `i` has been active at at least
    `TIMEOUT` edges of the clock in a row up to now, since reset; and the counter is never
    incremented at its greatest value. -/
def Debounces (i : Fin p.width) : Prop :=
  ∀ (ω : Waveform (BitVec p.width)) (t : ℕ),
    (outActive p (run p ω t) i = true ↔ ActiveFor (active p i) ω t p.timeout) ∧
    ∀ dataIn, counterEnable p dataIn (run p ω t) i = true →
      run p ω t i ≠ BitVec.allOnes p.timeoutWidth

variable {p} {i : Fin p.width}

theorem outActive_iff {s : State p} : outActive p s i = true ↔ (s i).toNat = p.timeout := by
  rw [outActive]
  cases h : p.polarity <;> simp [dataOut, h]

theorem counterReset_eq (dataIn : BitVec p.width) :
    counterReset p dataIn i = !active p i dataIn := by
  rw [counterReset, active]
  cases p.polarity <;> simp

theorem counterEnable_eq (dataIn : BitVec p.width) (s : State p) :
    counterEnable p dataIn s i = (active p i dataIn && (s i).toNat < p.timeout) := by
  rw [counterEnable, active]
  cases p.polarity <;> simp

/-- A counter saturates at `TIMEOUT`. -/
theorem counterClock_eq (dataIn : BitVec p.width) (s : State p) :
    counterClock p i dataIn s =
      saturate p.timeout (if active p i dataIn = true then .count else .clear) (s i) := by
  rw [counterClock, counterReset_eq, counterEnable_eq]
  cases active p i dataIn <;> simp [saturate]

/-- While the reset is active, the counters are zero. -/
theorem heldInReset_run (ω : Waveform (BitVec p.width)) (t : ℕ) (i : Fin p.width) :
    HeldInReset (fun s : State p => s i) 0 (ω t) (run p ω t) := by
  refine states_invariant (fun q s => HeldInReset (fun s : State p => s i) 0 q s) ω
    (fun _ => rfl) (fun old new s hold hreset => ?_) t
  change verilogAlways (fun s => s i) 0 (counterClock p i) old new s = 0
  rw [verilogAlways_eq hold, clocked_of_reset hreset]

/-- A counter follows the samples of its input. -/
theorem run_succ (ω : Waveform (BitVec p.width)) (t : ℕ) (i : Fin p.width) :
    run p ω (t + 1) i = saturate p.timeout (sampled (active p i) ω t) (run p ω t i) := by
  have hstep : run p ω (t + 1) i = clocked (fun s => s i) 0 (counterClock p i) (ω t) (ω (t + 1))
      (run p ω t) := verilogAlways_eq (heldInReset_run ω t i)
  rw [hstep, clocked, sampled, counterClock_eq]
  split_ifs <;> rfl

/-- A counter that can represent `TIMEOUT` is at the streak of its input, up to `TIMEOUT`. -/
theorem toNat_run (hwidth : p.timeout < 2 ^ p.timeoutWidth) (ω : Waveform (BitVec p.width)) (t : ℕ)
    (i : Fin p.width) :
    (run p ω t i).toNat = min p.timeout (streak (sampled (active p i) ω) t) := by
  induction t with
  | zero => exact (Nat.min_zero _).symm
  | succ t ih =>
    rw [run_succ]
    exact toNat_saturate hwidth _ ih

theorem ne_allOnes_of_counterEnable (hwidth : p.timeout < 2 ^ p.timeoutWidth)
    {dataIn : BitVec p.width} {s : State p} (h : counterEnable p dataIn s i = true) :
    s i ≠ BitVec.allOnes p.timeoutWidth := by
  rw [counterEnable_eq, Bool.and_eq_true, decide_eq_true_eq] at h
  exact ne_allOnes ((Nat.succ_le_of_lt h.2).trans_lt hwidth)

/-! ## Where it fails -/

variable (p) in
/-- Every input is active for ever, from reset on: the clock rises at every second instant. -/
def heldActive : Waveform (BitVec p.width) := fun t =>
  { clk := t % 2 = 1
    reset := false
    inp := match p.polarity with
      | .high => BitVec.allOnes p.width
      | .low => 0 }

theorem active_heldActive (t : ℕ) : active p i (heldActive p t).inp = true := by
  rw [active, heldActive]
  cases p.polarity <;> simp

theorem edges_heldActive (n : ℕ) : edges (heldActive p) 0 (2 * n) = n := by
  induction n with
  | zero => rfl
  | succ n ih =>
    have hrise : EdgeAt (heldActive p) (0 + 2 * n) := by
      simp [EdgeAt, heldActive, rises]
    have hfall : ¬EdgeAt (heldActive p) (0 + (2 * n + 1)) := by
      simp [EdgeAt, heldActive, rises]
    rw [Nat.mul_succ, edges_succ_of_not_edge hfall, edges_succ_of_edge hrise, ih]

theorem activeFor_heldActive (i : Fin p.width) (n : ℕ) :
    ActiveFor (active p i) (heldActive p) (2 * n) n := by
  refine ⟨0, Nat.zero_le _, (edges_heldActive n).ge, fun u _ _ => ⟨rfl, fun _ => ?_⟩⟩
  exact active_heldActive _

/-- A counter that cannot represent `TIMEOUT` never reaches it. -/
theorem not_outActive (hwidth : 2 ^ p.timeoutWidth ≤ p.timeout) (s : State p) :
    outActive p s i = false := by
  rw [← Bool.not_eq_true, outActive_iff]
  exact ((s i).isLt.trans_le hwidth).ne

/-- The debouncer works for exactly the parameters with which its counters can represent
    `TIMEOUT`. -/
theorem debounces_iff : Debounces p i ↔ p.timeout < 2 ^ p.timeoutWidth := by
  refine ⟨fun h => ?_, fun hwidth ω t => ⟨?_, fun _ => ne_allOnes_of_counterEnable hwidth⟩⟩
  · by_contra hwidth
    have hout := (h (heldActive p) (2 * p.timeout)).1.2 (activeFor_heldActive i p.timeout)
    rw [not_outActive (Nat.le_of_not_lt hwidth)] at hout
    exact Bool.false_ne_true hout
  · rw [outActive_iff, toNat_run hwidth, activeFor_iff]
    omega

/-! ## The documented width -/

/-- The parameters with the width that the comment of the source prescribes. -/
def documented (width : ℕ) (polarity : Polarity) (timeout : ℕ) : DebounceParams where
  width := width
  polarity := polarity
  timeout := timeout
  timeoutWidth := Nat.clog 2 timeout

theorem lt_two_pow_clog_iff (n : ℕ) : n < 2 ^ Nat.clog 2 n ↔ ¬∃ k, n = 2 ^ k := by
  have hle : n ≤ 2 ^ Nat.clog 2 n := Nat.le_pow_clog (by decide) n
  refine ⟨?_, fun h => hle.lt_of_ne fun heq => h ⟨_, heq⟩⟩
  rintro hlt ⟨k, rfl⟩
  rw [Nat.clog_pow 2 k (by decide)] at hlt
  exact lt_irrefl _ hlt

/-- The documented width is enough exactly for the values of `TIMEOUT` that are not a power of
    two, for every number of inputs, in both polarities. -/
theorem debounce_sizing_rule (width : ℕ) (polarity : Polarity) (timeout : ℕ) (i : Fin width) :
    Debounces (documented width polarity timeout) i ↔ ¬∃ k, timeout = 2 ^ k :=
  debounces_iff.trans (lt_two_pow_clog_iff timeout)

/-- With `TIMEOUT = 65536` and the documented 16 bits, a key that is held for 65536 edges is not
    reported. -/
theorem debounce_sizing_rule_65536 :
    ActiveFor (active (documented 2 .low 65536) (0 : Fin 2)) (heldActive (documented 2 .low 65536))
      (2 * 65536) 65536 ∧
    outActive (documented 2 .low 65536) (run (documented 2 .low 65536)
      (heldActive (documented 2 .low 65536)) (2 * 65536)) (0 : Fin 2) = false := by
  have hwidth : 2 ^ Nat.clog 2 65536 ≤ 65536 :=
    Nat.not_lt.1 fun hlt => (lt_two_pow_clog_iff 65536).1 hlt ⟨16, rfl⟩
  exact ⟨activeFor_heldActive (p := documented 2 .low 65536) (0 : Fin 2) 65536,
    not_outActive hwidth _⟩

end Debounce

end EmbeddedSystems.Nios2leds
