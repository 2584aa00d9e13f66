import EmbeddedSystems.Pwm.Designs

/-!
# The texts of the peripheral agree

The module in Verilog simulates the architecture in VHDL of Lesson 3, and this
one that of Lesson 2 driven with the lowest bit of the address: from reset, and
whatever the inputs are, their registers and outputs are the same at every
instant (`avalon_pwm_agree`).
-/

namespace EmbeddedSystems.Pwm

open Clocked

/-! ## Verilog and VHDL -/

def Registers.toVerilog (r : Registers) : Verilog.Registers := ⟨r.modulus, r.duty⟩

def Generator.toVerilog (r : Generator) : Verilog.Generator := ⟨r.counter, r.pwmOut⟩

/-- The signals of the architecture as the variables of the module. -/
def State.toVerilog (s : State) : Verilog.State :=
  ⟨s.toRegisters.toVerilog, s.toGenerator.toVerilog⟩

/-- The default values convert to the same words. -/
theorem toVerilog_registersReset (g : Generics) :
    (Vhdl.registersReset g).toVerilog = Verilog.registersReset g := by
  have hconv : ∀ n : ℕ, Vhdl.toUnsigned n = BitVec.ofInt 32 n := fun n =>
    (BitVec.ofInt_natCast 32 n).symm
  rw [Registers.toVerilog, Vhdl.registersReset, Verilog.registersReset, hconv, hconv]

/-- The strobes of the module, one for each register, decode what the nested conditions of the
    architecture do. -/
theorem toVerilog_registersClock (bus : Bus (BitVec 10)) (s : State) :
    (Vhdl.registersClock Lesson3.addressIsZero bus s).toVerilog =
      Verilog.registersClock bus s.toVerilog := by
  have hreduction : ∀ b, Verilog.reductionAnd (BitVec.ofBool b) = b := by decide
  rw [Verilog.registersClock, hreduction, Vhdl.registersClock, Verilog.modulusEn, Verilog.dutyEn,
    Lesson3.addressIsZero]
  cases bus.write <;> cases bus.address.getLsbD 0 <;> rfl

theorem toVerilog_pwmGenClock (bus : Bus (BitVec 10)) (s : State) :
    (Vhdl.pwmGenClock bus s).toVerilog = Verilog.generatorClock bus s.toVerilog := rfl

variable {g : Generics}

theorem verilog_held {p : Pins (Bus (BitVec 10))} {s : State} (h : Vhdl.Held g p s) :
    HeldInReset Verilog.State.toRegisters (Verilog.registersReset g) p s.toVerilog ∧
      HeldInReset Verilog.State.toGenerator Verilog.generatorReset p s.toVerilog :=
  ⟨fun hreset => (congrArg Registers.toVerilog (h.1 hreset)).trans (toVerilog_registersReset g),
    fun hreset => congrArg Generator.toVerilog (h.2 hreset)⟩

theorem verilog_step {old new : Pins (Bus (BitVec 10))} {s : State} (h : Vhdl.Held g old s) :
    Verilog.step g old new s.toVerilog = (Lesson3.step g old new s).toVerilog := by
  obtain ⟨hregisters, hgenerator⟩ := verilog_held h
  have hregs : (clocked State.toRegisters (Vhdl.registersReset g)
      (Vhdl.registersClock Lesson3.addressIsZero) old new s).toVerilog =
        clocked Verilog.State.toRegisters (Verilog.registersReset g) Verilog.registersClock old new
          s.toVerilog :=
    map_clocked Registers.toVerilog rfl rfl rfl (toVerilog_registersReset g)
      (toVerilog_registersClock new.inp s)
  have hgen : (clocked State.toGenerator Vhdl.generatorReset Vhdl.pwmGenClock old new s).toVerilog =
      clocked Verilog.State.toGenerator Verilog.generatorReset Verilog.generatorClock old new
        s.toVerilog :=
    map_clocked Generator.toVerilog rfl rfl rfl rfl (toVerilog_pwmGenClock new.inp s)
  rw [Lesson3.step, Vhdl.step_eq h, Verilog.step, verilogAlways_eq hregisters,
    verilogAlways_eq hgenerator, ← hregs, ← hgen]
  rfl

/-- The module in Verilog runs as the architecture of Lesson 3 does. -/
theorem verilog_run (g : Generics) (ω : Waveform (Bus (BitVec 10))) (t : ℕ) :
    Verilog.run g ω t = (Lesson3.run g ω t).toVerilog := by
  have hstart : Verilog.resetState g = (Vhdl.resetState g).toVerilog :=
    congrArg (Verilog.State.mk · Verilog.generatorReset) (toVerilog_registersReset g).symm
  refine (states_simulation id (fun p s r => Vhdl.Held g p s ∧ r = s.toVerilog) ω
    ⟨Vhdl.held_resetState g _, hstart⟩ ?_ t).2
  rintro old new s _ ⟨hheld, rfl⟩
  exact ⟨Vhdl.held_step hheld, verilog_step hheld⟩

/-! ## Lesson 2 and Lesson 3 -/

/-- The inputs for Lesson 2: the address is the lowest bit. -/
def lowestBit (bus : Bus (BitVec 10)) : Bus Bool := { bus with address := bus.address.getLsbD 0 }

/-- The architecture of Lesson 2 runs as that of Lesson 3 does. -/
theorem lesson2_run (g : Generics) (ω : Waveform (Bus (BitVec 10))) (t : ℕ) :
    Lesson2.run g (fun t => (ω t).map lowestBit) t = Lesson3.run g ω t := by
  refine states_simulation lowestBit (fun _ s r => r = s) ω rfl ?_ t
  rintro old new s _ rfl
  rfl

/-! ## Agreement -/

/-- For all default values, all inputs and every instant of a run from reset, the three texts of
    the peripheral hold the same registers, counter and output, and answer the same to a read. -/
theorem avalon_pwm_agree (g : Generics) (ω : Waveform (Bus (BitVec 10))) (t : ℕ) :
    ((Verilog.run g ω t).modulus = (Lesson3.run g ω t).modulus ∧
      (Verilog.run g ω t).duty = (Lesson3.run g ω t).duty ∧
      (Verilog.run g ω t).counter = (Lesson3.run g ω t).counter ∧
      Verilog.pwmOut (Verilog.run g ω t) = (Lesson3.run g ω t).pwmOut ∧
      ((ω t).inp.read = true → Verilog.readdata (ω t).inp (Verilog.run g ω t) =
        some (Lesson3.readdata (ω t).inp (Lesson3.run g ω t)))) ∧
    Lesson2.run g (fun t => (ω t).map lowestBit) t = Lesson3.run g ω t ∧
      Lesson2.readdata (lowestBit (ω t).inp) (Lesson2.run g (fun t => (ω t).map lowestBit) t) =
        Lesson3.readdata (ω t).inp (Lesson3.run g ω t) := by
  rw [verilog_run, lesson2_run]
  refine ⟨⟨rfl, rfl, rfl, rfl, fun hread => ?_⟩, rfl, rfl⟩
  rw [Verilog.readdata, hread, Verilog.modulusEn, Lesson3.readdata, Vhdl.readdata,
    Lesson3.addressIsZero]
  cases (ω t).inp.address.getLsbD 0 <;> rfl

end EmbeddedSystems.Pwm
