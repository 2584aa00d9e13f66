import EmbeddedSystems.Library.PulseTrain
import EmbeddedSystems.Pwm.Designs

/-!
# The waveform of the peripheral

Once the registers are no longer written, the output is a pulse train of period
`modulus + 1` (`pwm_waveform`). A write may leave the counter above the new
modulus: the first edge of the clock brings it back within the period, and
from the second edge on the output shows it.
-/

namespace EmbeddedSystems.Pwm

open Clocked PulseTrain

/-- After the instant `t` there is no reset, and no write at an edge of the clock. -/
structure Quiet {α : Type} (ω : Waveform (Bus α)) (t : ℕ) : Prop where
  reset : ∀ n, (ω (t + n + 1)).reset = false
  write : ∀ n, rises (ω (t + n)).clk (ω (t + n + 1)).clk = true →
    (ω (t + n + 1)).inp.write = false

/-! ## One edge of the clock -/

/-- The counter after an edge of the clock. -/
def nextCounter (s : State) : BitVec 32 := if s.counter < s.modulus then s.counter + 1 else 0

theorem nextCounter_le (s : State) : (nextCounter s).toNat ≤ s.modulus.toNat := by
  rw [nextCounter]
  split_ifs with h
  · rw [toNat_add_one_of_lt h]
    exact h
  · exact Nat.zero_le _

/-- The counter runs modulo `modulus + 1`, once it is within. -/
theorem toNat_nextCounter {s : State} (h : s.counter.toNat ≤ s.modulus.toNat) :
    (nextCounter s).toNat = (s.counter.toNat + 1) % (s.modulus.toNat + 1) := by
  rw [nextCounter]
  split_ifs with hlt
  · rw [toNat_add_one_of_lt hlt, Nat.mod_eq_of_lt (Nat.succ_lt_succ hlt)]
  · have heq : s.counter.toNat = s.modulus.toNat := le_antisymm h (Nat.le_of_not_lt hlt)
    rw [heq, Nat.mod_self]
    rfl

variable {g : Generics} {ω : Waveform (Bus Bool)} {t n : ℕ}

/-- An instant after which there is no reset and no write. -/
theorem run_succ_of_quiet (h : Quiet ω t) (n : ℕ) :
    Lesson2.run g ω (t + n + 1) =
      if rises (ω (t + n)).clk (ω (t + n + 1)).clk = true then
        { toRegisters := (Lesson2.run g ω (t + n)).toRegisters
          toGenerator := Vhdl.pwmGenClock (ω (t + n + 1)).inp (Lesson2.run g ω (t + n)) }
      else Lesson2.run g ω (t + n) := by
  refine (Vhdl.run_succ (h.reset n)).trans ?_
  split_ifs with hclk
  · have hregisters : Vhdl.registersClock Lesson2.addressIsZero (ω (t + n + 1)).inp
        (Lesson2.run g ω (t + n)) = (Lesson2.run g ω (t + n)).toRegisters := by
      rw [Vhdl.registersClock, h.write n hclk, if_neg (by decide)]
    rw [← hregisters]
    rfl
  · rfl

/-! ## Any number of edges -/

/-- What holds when the clock has risen `e` times since the state `s`, and nothing else has
    happened. -/
structure QuietInv (s : State) (e : ℕ) (r : State) : Prop where
  registers : r.toRegisters = s.toRegisters
  start : e = 0 → r = s
  counter : 1 ≤ e →
    r.counter.toNat = ((nextCounter s).toNat + (e - 1)) % (s.modulus.toNat + 1)
  pwmOut : 2 ≤ e →
    r.pwmOut = pulse (s.modulus.toNat + 1) s.duty.toNat (nextCounter s).toNat (e - 2)

theorem quietInv_zero (s : State) : QuietInv s 0 s where
  registers := rfl
  start _ := rfl
  counter h := absurd h (by decide)
  pwmOut h := absurd h (by decide)

theorem quietInv_edge {s r : State} {e : ℕ} (h : QuietInv s e r) (bus : Bus Bool) :
    QuietInv s (e + 1)
      { toRegisters := r.toRegisters, toGenerator := Vhdl.pwmGenClock bus r } := by
  have hmodulus : r.modulus = s.modulus := congrArg Registers.modulus h.registers
  have hduty : r.duty = s.duty := congrArg Registers.duty h.registers
  refine ⟨h.registers, fun he => absurd he e.succ_ne_zero, fun _ => ?_, fun he => ?_⟩
  · change (nextCounter r).toNat = _
    rcases Nat.eq_zero_or_pos e with rfl | he
    · rw [h.start rfl, Nat.zero_add, Nat.sub_self, Nat.add_zero,
        Nat.mod_eq_of_lt (Nat.lt_succ_of_le (nextCounter_le s))]
    · have hcounter := h.counter he
      have hle : r.counter.toNat ≤ r.modulus.toNat := by
        rw [hcounter, hmodulus]
        exact Nat.le_of_lt_succ (Nat.mod_lt _ (Nat.succ_pos _))
      rw [toNat_nextCounter hle, hcounter, hmodulus, Nat.mod_add_mod, Nat.add_sub_cancel,
        Nat.add_assoc, Nat.sub_add_cancel he]
  · have hcounter := h.counter (Nat.le_of_succ_le_succ he)
    change (if r.counter < r.duty then true else false) = _
    rw [pulse, Nat.add_sub_add_right e 1 1, ← hcounter, hduty]
    by_cases hlt : r.counter < s.duty
    · rw [if_pos hlt]
      exact (decide_eq_true hlt).symm
    · rw [if_neg hlt]
      exact (decide_eq_false hlt).symm

theorem quietInv_run (g : Generics) (h : Quiet ω t) (n : ℕ) :
    QuietInv (Lesson2.run g ω t) (edges ω t n) (Lesson2.run g ω (t + n)) := by
  induction n with
  | zero => exact quietInv_zero _
  | succ n ih =>
    rw [edges, ← Nat.add_assoc, run_succ_of_quiet h]
    split_ifs with hclk
    · exact quietInv_edge ih _
    · exact ih

/-! ## The waveform -/

/-- A clock, after a reset at its first instant, with a write of the modulus at its first edge
    and of the duty at its second edge. -/
def configure (modulus duty : BitVec 32) : Waveform (Bus Bool) := fun t =>
  { clk := t % 2 = 1
    reset := t = 0
    inp :=
      { address := t = 3
        write := t = 1 ∨ t = 3
        writedata := if t = 1 then modulus else duty
        read := false } }

theorem quiet_configure (modulus duty : BitVec 32) : Quiet (configure modulus duty) 3 where
  reset n := by simp [configure]
  write n _ := by simp [configure]; omega

/-- Every setting of the registers is reached. -/
theorem registers_configure (g : Generics) (modulus duty : BitVec 32) :
    (Lesson2.run g (configure modulus duty) 3).toRegisters = ⟨modulus, duty⟩ := rfl

/-- The waveform of the peripheral, in every state it reaches from reset. Let the registers hold
    the modulus `M` and the duty `D`, and let there be no reset and no write any more. Then from
    the second edge of the clock on the output is a pulse train of period `M + 1` with
    `min D (M + 1)` consecutive high clocks in each period; so it is always low if `D` is zero,
    and always high if `D` is greater than `M`. -/
theorem pwm_waveform (g : Generics) (ω : Waveform (Bus Bool)) (t : ℕ) (h : Quiet ω t) :
    ∃ wave : ℕ → Bool,
      IsPulseTrain wave ((Lesson2.run g ω t).modulus.toNat + 1) (Lesson2.run g ω t).duty.toNat ∧
      ∀ n, 2 ≤ edges ω t n →
        (Lesson2.run g ω (t + n)).pwmOut = wave (edges ω t n - 2) :=
  ⟨_, isPulseTrain_pulse (Nat.succ_pos _) _ _, fun n => (quietInv_run g h n).pwmOut⟩

/-- The peripheral whose registers are zero after a reset. -/
def zeroGenerics : Generics := ⟨0, 0, by decide, by decide⟩

theorem pwm_waveform_configure : Quiet (configure 11 6) 3 ∧
    (Lesson2.run zeroGenerics (configure 11 6) 3).toRegisters = ⟨11, 6⟩ ∧ ∃ wave : ℕ → Bool,
    IsPulseTrain wave ((Lesson2.run zeroGenerics (configure 11 6) 3).modulus.toNat + 1)
      (Lesson2.run zeroGenerics (configure 11 6) 3).duty.toNat ∧
    ∀ n, 2 ≤ edges (configure 11 6) 3 n →
      (Lesson2.run zeroGenerics (configure 11 6) (3 + n)).pwmOut =
        wave (edges (configure 11 6) 3 n - 2) :=
  ⟨quiet_configure 11 6, registers_configure zeroGenerics 11 6,
    pwm_waveform zeroGenerics (configure 11 6) 3 (quiet_configure 11 6)⟩

end EmbeddedSystems.Pwm
