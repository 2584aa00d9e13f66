import Mathlib

/-!
# Clocked processes

The registers of a synchronous design with an asynchronous reset, in VHDL and in
Verilog, driven by a waveform: the pins at every instant at which one of them
changes (`Waveform`). The other inputs are stable when the clock rises, and all
processes read the state before the instant.

* `vhdlProcess`: `process (clk, reset)`, which runs at every event on the clock or
  the reset, and tells the rising edge of the clock apart;
* `verilogAlways`: `always @(posedge clk or posedge reset)`, which only runs at a
  rising edge.

The two do the same to registers that hold their reset value while the reset is
active (`vhdlProcess_eq`, `verilogAlways_eq`), which every register does that
starts so (`HeldInReset`). What every step of a design preserves holds at every
instant (`states_invariant`, `states_simulation`).
-/

namespace EmbeddedSystems.Clocked

/-- The pins of a design: clock, reset and the other inputs. -/
structure Pins (ι : Type*) where
  clk : Bool
  reset : Bool
  inp : ι

variable {ι κ σ ρ τ : Type*}

def Pins.map (f : ι → κ) (p : Pins ι) : Pins κ := { p with inp := f p.inp }

/-- The pins at every instant. -/
abbrev Waveform (ι : Type*) := ℕ → Pins ι

/-- A rising edge of a signal. -/
def rises (old new : Bool) : Bool := !old && new

/-! ## Processes -/

/-- The registers `own` of a VHDL process, after an instant:
    `process (clk, reset)`, with the body
    `if reset = '1' then … elsif rising_edge(clk) then … end if`. -/
def vhdlProcess (own : σ → τ) (onReset : τ) (onClock : ι → σ → τ) (old new : Pins ι) (s : σ) : τ :=
  if new.clk ≠ old.clk ∨ new.reset ≠ old.reset then
    if new.reset = true then onReset
    else if rises old.clk new.clk = true then onClock new.inp s
    else own s
  else own s

/-- The registers `own` of a Verilog block, after an instant:
    `always @(posedge clk or posedge reset)`, with the body `if (reset == 1) … else …`. -/
def verilogAlways (own : σ → τ) (onReset : τ) (onClock : ι → σ → τ) (old new : Pins ι)
    (s : σ) : τ :=
  if rises old.clk new.clk = true ∨ rises old.reset new.reset = true then
    if new.reset = true then onReset else onClock new.inp s
  else own s

/-- Registers that hold their reset value while the reset is active. -/
def HeldInReset (own : σ → τ) (onReset : τ) (p : Pins ι) (s : σ) : Prop :=
  p.reset = true → own s = onReset

/-- What a clocked process does to its registers, in either language. -/
def clocked (own : σ → τ) (onReset : τ) (onClock : ι → σ → τ) (old new : Pins ι) (s : σ) : τ :=
  if new.reset = true then onReset
  else if rises old.clk new.clk = true then onClock new.inp s
  else own s

section

variable {own : σ → τ} {onReset : τ} {onClock : ι → σ → τ} {old new : Pins ι} {s : σ}

theorem vhdlProcess_eq (h : HeldInReset own onReset old s) :
    vhdlProcess own onReset onClock old new s = clocked own onReset onClock old new s := by
  rw [vhdlProcess, clocked]
  split_ifs with hevent hreset hclk hreset hclk
  · rfl
  · rfl
  · rfl
  · rw [not_or, not_not, not_not] at hevent
    exact h (hevent.2 ▸ hreset)
  · rw [not_or, not_not, not_not] at hevent
    rw [hevent.1] at hclk
    cases hold : old.clk <;> simp [rises, hold] at hclk
  · rfl

theorem verilogAlways_eq (h : HeldInReset own onReset old s) :
    verilogAlways own onReset onClock old new s = clocked own onReset onClock old new s := by
  rw [verilogAlways, clocked]
  split_ifs with hevent hreset hclk hreset hclk
  · rfl
  · rfl
  · rcases hevent with hevent | hevent
    · exact absurd hevent hclk
    · simp [rises, hreset] at hevent
  · have hold : old.reset = true := by
      by_contra hold
      exact hevent (Or.inr (by simp [rises, hreset, hold]))
    exact h hold
  · exact absurd (Or.inl hclk) hevent
  · rfl

/-- Processes that correspond on the reset, on the clock and on what they hold do so after every
    instant. -/
theorem map_clocked {τ' : Type*} {own' : ρ → τ'} {onReset' : τ'} {onClock' : κ → ρ → τ'}
    {old' new' : Pins κ} {r : ρ} (φ : τ → τ')
    (hclk : rises old'.clk new'.clk = rises old.clk new.clk) (hreset : new'.reset = new.reset)
    (hown : φ (own s) = own' r) (honReset : φ onReset = onReset')
    (honClock : φ (onClock new.inp s) = onClock' new'.inp r) :
    φ (clocked own onReset onClock old new s) = clocked own' onReset' onClock' old' new' r := by
  rw [clocked, clocked, apply_ite φ, apply_ite φ, hown, honReset, honClock, hclk, hreset]

theorem clocked_of_reset (h : new.reset = true) : clocked own onReset onClock old new s = onReset :=
  if_pos h

theorem clocked_of_rises (h : new.reset = false) (hclk : rises old.clk new.clk = true) :
    clocked own onReset onClock old new s = onClock new.inp s := by
  rw [clocked, if_neg (by simp [h]), if_pos hclk]

theorem clocked_of_not_rises (h : new.reset = false) (hclk : ¬rises old.clk new.clk = true) :
    clocked own onReset onClock old new s = own s := by
  rw [clocked, if_neg (by simp [h]), if_neg hclk]

end

/-! ## Runs -/

/-- The states of a design at every instant. -/
def states (step : Pins ι → Pins ι → σ → σ) (s : σ) (ω : Waveform ι) : ℕ → σ
  | 0 => s
  | t + 1 => step (ω t) (ω (t + 1)) (states step s ω t)

/-- The number of rising edges of the clock in the `n` instants after the instant `t`. -/
def edges (ω : Waveform ι) (t : ℕ) : (n : ℕ) → ℕ
  | 0 => 0
  | n + 1 => edges ω t n + if rises (ω (t + n)).clk (ω (t + n + 1)).clk = true then 1 else 0

/-- The clock rises after the instant `t`. -/
def EdgeAt (ω : Waveform ι) (t : ℕ) : Prop := rises (ω t).clk (ω (t + 1)).clk = true

theorem edges_succ_of_edge {ω : Waveform ι} {t n : ℕ} (h : EdgeAt ω (t + n)) :
    edges ω t (n + 1) = edges ω t n + 1 :=
  congrArg (edges ω t n + ·) (if_pos h)

theorem edges_succ_of_not_edge {ω : Waveform ι} {t n : ℕ} (h : ¬EdgeAt ω (t + n)) :
    edges ω t (n + 1) = edges ω t n :=
  congrArg (edges ω t n + ·) (if_neg h)

/-- The rule of invariants. -/
theorem states_invariant {step : Pins ι → Pins ι → σ → σ} {s : σ} (I : Pins ι → σ → Prop)
    (ω : Waveform ι) (h₀ : I (ω 0) s)
    (hstep : ∀ old new s, I old s → I new (step old new s)) (t : ℕ) :
    I (ω t) (states step s ω t) := by
  induction t with
  | zero => exact h₀
  | succ t ih => exact hstep _ _ _ ih

/-- The rule of simulations: two designs, the second driven by the inputs of the first through
    `f`, stay related if every instant keeps them so. -/
theorem states_simulation {step : Pins ι → Pins ι → σ → σ} {step' : Pins κ → Pins κ → ρ → ρ}
    {s : σ} {r : ρ} (f : ι → κ) (R : Pins ι → σ → ρ → Prop) (ω : Waveform ι) (h₀ : R (ω 0) s r)
    (hstep : ∀ old new s r, R old s r →
      R new (step old new s) (step' (old.map f) (new.map f) r)) (t : ℕ) :
    R (ω t) (states step s ω t) (states step' r (fun t => (ω t).map f) t) := by
  induction t with
  | zero => exact h₀
  | succ t ih => exact hstep _ _ _ _ ih

/-! ## Counters -/

/-- A counter that is incremented below a value of its type does not wrap. -/
theorem toNat_add_one {w : ℕ} {c : BitVec w} (h : c.toNat + 1 < 2 ^ w) :
    (c + 1).toNat = c.toNat + 1 := by
  have hone : (1 : BitVec w).toNat = 1 := by
    exact Nat.mod_eq_of_lt ((Nat.le_add_left 1 c.toNat).trans_lt h)
  rw [BitVec.toNat_add_of_lt (by rwa [hone]), hone]

theorem toNat_add_one_of_lt {w : ℕ} {a b : BitVec w} (h : a < b) : (a + 1).toNat = a.toNat + 1 :=
  toNat_add_one ((Nat.succ_le_of_lt h).trans_lt b.isLt)

theorem ne_allOnes {w : ℕ} {c : BitVec w} (h : c.toNat + 1 < 2 ^ w) : c ≠ BitVec.allOnes w := by
  rintro rfl
  rw [BitVec.toNat_allOnes, Nat.sub_add_cancel Nat.one_le_two_pow] at h
  exact absurd h (lt_irrefl _)

end EmbeddedSystems.Clocked
