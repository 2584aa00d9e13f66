import EmbeddedSystems.Pwm.Agreement
import EmbeddedSystems.Pwm.Waveform

/-!
# Reprogramming the peripheral while it runs

The registers may be written at any edge of the clock, also at one at which the
counter and the output change. The waveform stays free of glitches
(`pwm_glitch_free`): the counter never wraps, a counter above a new modulus is
back at zero after one edge, and a period in which the duty is rewritten is high
for a number of clocks that the values of the duty bound.

The proof counts the high clocks of an unfinished period, edge by edge
(`WindowInv`): the counter is the number of edges so far, and the output is high
at one of them if the duty is greater.
-/

namespace EmbeddedSystems.Pwm

open Clocked

variable {ι : Type}

/-- There is no reset in the `n` instants after the instant `t`. -/
def NoReset (ω : Waveform ι) (t n : ℕ) : Prop := ∀ k < n, (ω (t + k + 1)).reset = false

/-- The number of edges in the `n` instants after the instant `t` at which the output is set
    high. -/
def highEdges (ω : Waveform ι) (s : ℕ → State) (t n : ℕ) : ℕ :=
  Nat.count
    (fun k => (rises (ω (t + k)).clk (ω (t + k + 1)).clk && (s (t + k + 1)).pwmOut) = true) n

/-- At every edge in the `n` instants after the instant `t`, the modulus is `M` and the duty
    between `lo` and `hi`. -/
def Within (ω : Waveform ι) (s : ℕ → State) (t n : ℕ) (M : BitVec 32) (lo hi : ℕ) : Prop :=
  ∀ k < n, EdgeAt ω (t + k) →
    (s (t + k)).modulus = M ∧ lo ≤ (s (t + k)).duty.toNat ∧ (s (t + k)).duty.toNat ≤ hi

/-- A run without glitches, whatever is written to the registers. -/
structure GlitchFree (ω : Waveform ι) (s : ℕ → State) : Prop where
  /-- An edge adds one to the counter, as a number, or brings it to zero once the counter has
      reached the modulus. -/
  noWrap : ∀ t, NoReset ω t 1 → EdgeAt ω t →
    ((s t).counter < (s t).modulus ∧
      (s (t + 1)).counter.toNat = (s t).counter.toNat + 1) ∨
    ((s t).modulus ≤ (s t).counter ∧ (s (t + 1)).counter = 0)
  /-- A counter above the modulus is zero after the next edge. -/
  lowered : ∀ t n, NoReset ω t (n + 1) → (s t).modulus < (s t).counter → edges ω t n = 0 →
    EdgeAt ω (t + n) → (s (t + n + 1)).counter = 0
  /-- When an edge takes the modulus below the counter, the counter either comes to zero with
      that edge, or is above the modulus after it. -/
  written : ∀ t, NoReset ω t 1 → EdgeAt ω t → (s (t + 1)).modulus < (s t).counter →
    (s (t + 1)).counter = 0 ∨ (s (t + 1)).modulus < (s (t + 1)).counter
  /-- The high edges of a period, which is complete after `M + 1` edges. -/
  period : ∀ t n (M : BitVec 32) (lo hi : ℕ), NoReset ω t n → (s t).counter = 0 →
    edges ω t n = M.toNat + 1 → Within ω s t n M lo hi →
    min lo (M.toNat + 1) ≤ highEdges ω s t n ∧ highEdges ω s t n ≤ min hi (M.toNat + 1) ∧
      (s (t + n)).counter = 0

/-! ## One edge -/

variable {α : Type} {addressIsZero : α → Bool} {g : Generics} {ω : Waveform (Bus α)} {t n : ℕ}

theorem generator_edge (hreset : (ω (t + 1)).reset = false) (hclk : EdgeAt ω t) :
    (Vhdl.run addressIsZero g ω (t + 1)).toGenerator =
      Vhdl.pwmGenClock (ω (t + 1)).inp (Vhdl.run addressIsZero g ω t) :=
  congrArg State.toGenerator ((Vhdl.run_succ hreset).trans (if_pos hclk))

theorem run_of_not_edge (hreset : (ω (t + 1)).reset = false) (hclk : ¬EdgeAt ω t) :
    Vhdl.run addressIsZero g ω (t + 1) = Vhdl.run addressIsZero g ω t :=
  (Vhdl.run_succ hreset).trans (if_neg hclk)

/-- Before the next edge nothing happens. -/
theorem run_of_edges_eq_zero (hreset : NoReset ω t n) (h : edges ω t n = 0) :
    Vhdl.run addressIsZero g ω (t + n) = Vhdl.run addressIsZero g ω t := by
  induction n with
  | zero => rfl
  | succ n ih =>
    have hclk : ¬EdgeAt ω (t + n) := by
      intro hclk
      rw [edges_succ_of_edge hclk] at h
      exact absurd h (Nat.succ_ne_zero _)
    rw [edges_succ_of_not_edge hclk] at h
    rw [← Nat.add_assoc, run_of_not_edge (hreset n n.lt_succ_self) hclk]
    exact ih (fun k hk => hreset k (Nat.lt_succ_of_lt hk)) h

theorem counter_eq_zero_of_modulus_le {s : State} (h : s.modulus ≤ s.counter) (bus : Bus α) :
    (Vhdl.pwmGenClock bus s).counter = 0 :=
  if_neg (BitVec.not_lt.2 h)

theorem counter_lowered (hreset : NoReset ω t (n + 1))
    (hlt : (Vhdl.run addressIsZero g ω t).modulus < (Vhdl.run addressIsZero g ω t).counter)
    (hedges : edges ω t n = 0) (hclk : EdgeAt ω (t + n)) :
    (Vhdl.run addressIsZero g ω (t + n + 1)).counter = 0 := by
  have hsame : Vhdl.run addressIsZero g ω (t + n) = Vhdl.run addressIsZero g ω t :=
    run_of_edges_eq_zero (fun k hk => hreset k (Nat.lt_succ_of_lt hk)) hedges
  rw [generator_edge (hreset n n.lt_succ_self) hclk, hsame]
  exact counter_eq_zero_of_modulus_le (BitVec.le_of_lt hlt) _

/-- What an edge does to the counter. -/
theorem counter_edge (hreset : NoReset ω t 1) (hclk : EdgeAt ω t) :
    ((Vhdl.run addressIsZero g ω t).counter < (Vhdl.run addressIsZero g ω t).modulus ∧
      (Vhdl.run addressIsZero g ω (t + 1)).counter.toNat =
        (Vhdl.run addressIsZero g ω t).counter.toNat + 1) ∨
    ((Vhdl.run addressIsZero g ω t).modulus ≤ (Vhdl.run addressIsZero g ω t).counter ∧
      (Vhdl.run addressIsZero g ω (t + 1)).counter = 0) := by
  have hgen : (Vhdl.run addressIsZero g ω (t + 1)).toGenerator =
      Vhdl.pwmGenClock (ω (t + 1)).inp (Vhdl.run addressIsZero g ω t) :=
    generator_edge (hreset 0 Nat.one_pos) hclk
  by_cases hlt : (Vhdl.run addressIsZero g ω t).counter < (Vhdl.run addressIsZero g ω t).modulus
  · -- Below the modulus the counter is not at its greatest value.
    have hcounter : (Vhdl.run addressIsZero g ω (t + 1)).counter =
        (Vhdl.run addressIsZero g ω t).counter + 1 := by
      rw [hgen]
      exact if_pos hlt
    exact Or.inl ⟨hlt, by rw [hcounter, toNat_add_one_of_lt hlt]⟩
  · have hle := BitVec.not_lt.1 hlt
    exact Or.inr ⟨hle, by rw [hgen]; exact counter_eq_zero_of_modulus_le hle _⟩

theorem counter_written (hreset : NoReset ω t 1) (hclk : EdgeAt ω t)
    (hlt : (Vhdl.run addressIsZero g ω (t + 1)).modulus < (Vhdl.run addressIsZero g ω t).counter) :
    (Vhdl.run addressIsZero g ω (t + 1)).counter = 0 ∨
      (Vhdl.run addressIsZero g ω (t + 1)).modulus <
        (Vhdl.run addressIsZero g ω (t + 1)).counter := by
  obtain ⟨-, hcounter⟩ | ⟨-, hzero⟩ :=
    @counter_edge α addressIsZero g ω t hreset hclk
  · right
    rw [BitVec.lt_def] at hlt ⊢
    omega
  · exact Or.inl hzero

/-! ## An unfinished period -/

/-- What holds after `e` edges of a period, `h` of which have set the output high. -/
structure WindowInv (M : BitVec 32) (lo hi e h : ℕ) (s : State) : Prop where
  counter : s.counter.toNat = e % (M.toNat + 1)
  low : min lo e ≤ h
  high : h ≤ min hi e

theorem windowInv_edge {M : BitVec 32} {lo hi e h : ℕ} {s : State} (hinv : WindowInv M lo hi e h s)
    (he : e ≤ M.toNat) (hmodulus : s.modulus = M) (hlo : lo ≤ s.duty.toNat)
    (hhi : s.duty.toNat ≤ hi) (registers : Registers) (bus : Bus α) :
    WindowInv M lo hi (e + 1) (h + if (Vhdl.pwmGenClock bus s).pwmOut = true then 1 else 0)
      { toRegisters := registers, toGenerator := Vhdl.pwmGenClock bus s } := by
  have hcounter : s.counter.toNat = e := by
    rw [hinv.counter, Nat.mod_eq_of_lt (Nat.lt_succ_of_le he)]
  have hlow := hinv.low
  have hhigh := hinv.high
  -- the output is set high while the duty is greater than the number of edges so far
  have hout : (Vhdl.pwmGenClock bus s).pwmOut = true ↔ e < s.duty.toNat := by
    rw [← hcounter, ← BitVec.lt_def, Vhdl.pwmGenClock]
    simp
  refine ⟨?_, ?_, ?_⟩
  · have hle : s.counter.toNat ≤ s.modulus.toNat := by rwa [hcounter, hmodulus]
    change (nextCounter s).toNat = _
    rw [toNat_nextCounter hle, hcounter, hmodulus]
  · simp only [hout]
    split_ifs <;> omega
  · simp only [hout]
    split_ifs <;> omega

theorem windowInv_run {M : BitVec 32} {lo hi : ℕ} (hreset : NoReset ω t n)
    (hzero : (Vhdl.run addressIsZero g ω t).counter = 0) (hedges : edges ω t n ≤ M.toNat + 1)
    (hwithin : Within ω (Vhdl.run addressIsZero g ω) t n M lo hi) :
    WindowInv M lo hi (edges ω t n) (highEdges ω (Vhdl.run addressIsZero g ω) t n)
      (Vhdl.run addressIsZero g ω (t + n)) := by
  induction n with
  | zero => exact ⟨by rw [Nat.add_zero, hzero]; rfl, by simp [edges], by simp [highEdges]⟩
  | succ n ih =>
    have hreset' : NoReset ω t n := fun k hk => hreset k (Nat.lt_succ_of_lt hk)
    have hwithin' : Within ω (Vhdl.run addressIsZero g ω) t n M lo hi := fun k hk =>
      hwithin k (Nat.lt_succ_of_lt hk)
    have hlast := hreset n n.lt_succ_self
    rw [highEdges, Nat.count_succ, ← Nat.add_assoc]
    by_cases hclk : EdgeAt ω (t + n)
    · rw [edges_succ_of_edge hclk] at hedges ⊢
      obtain ⟨hmodulus, hlo, hhi⟩ := hwithin n n.lt_succ_self hclk
      have hinv := ih hreset' (Nat.le_of_succ_le hedges) hwithin'
      have hnext := windowInv_edge hinv (Nat.le_of_succ_le_succ hedges) hmodulus hlo hhi
        (Vhdl.registersClock addressIsZero (ω (t + n + 1)).inp (Vhdl.run addressIsZero g ω (t + n)))
        (ω (t + n + 1)).inp
      rw [EdgeAt] at hclk
      rw [Vhdl.run_succ hlast, if_pos hclk, hclk, Bool.true_and]
      exact hnext
    · rw [edges_succ_of_not_edge hclk] at hedges ⊢
      have hinv := ih hreset' hedges hwithin'
      rw [run_of_not_edge hlast hclk]
      rw [EdgeAt, Bool.not_eq_true] at hclk
      rw [hclk, Bool.false_and, if_neg Bool.false_ne_true, Nat.add_zero]
      exact hinv

theorem glitchFree_run (addressIsZero : α → Bool) (g : Generics) (ω : Waveform (Bus α)) :
    GlitchFree ω (Vhdl.run addressIsZero g ω) where
  noWrap _ := counter_edge
  lowered _ _ := counter_lowered
  written _ := counter_written
  period t n M lo hi hreset hzero hedges hwithin := by
    have hinv := windowInv_run hreset hzero hedges.le hwithin
    rw [hedges] at hinv
    have hcounter := hinv.counter
    rw [Nat.mod_self] at hcounter
    exact ⟨hinv.low, hinv.high, BitVec.eq_of_toNat_eq hcounter⟩

/-! ## The peripherals -/

/-- The variables of the module in Verilog as the signals of the architecture. -/
def State.ofVerilog (s : Verilog.State) : State where
  modulus := s.modulus
  duty := s.duty
  counter := s.counter
  pwmOut := Verilog.pwmOut s

/-- Live reprogramming is free of glitches, in every run from reset and whatever is written to the
    registers, in the text in VHDL of Lesson 2 and in the text in Verilog. -/
theorem pwm_glitch_free (g : Generics) :
    (∀ ω : Waveform (Bus Bool), GlitchFree ω (Lesson2.run g ω)) ∧
    ∀ ω : Waveform (Bus (BitVec 10)),
      GlitchFree ω fun t => State.ofVerilog (Verilog.run g ω t) := by
  refine ⟨fun ω => glitchFree_run Lesson2.addressIsZero g ω, fun ω => ?_⟩
  have hsame : (fun t => State.ofVerilog (Verilog.run g ω t)) =
      Vhdl.run Lesson3.addressIsZero g ω := by
    funext t
    rw [verilog_run]
    rfl
  rw [hsame]
  exact glitchFree_run Lesson3.addressIsZero g ω

end EmbeddedSystems.Pwm
