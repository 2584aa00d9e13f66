import EmbeddedSystems.Library.Clocked

/-!
# The PWM peripherals

The peripheral `avalon_pwm` of the lessons, in the three texts of it: in VHDL for
Lesson 2 and for Lesson 3, which differ in the width of the address, and in
Verilog for Lesson 3. Each has two registers that the bus writes, the modulus and
the duty, and a counter that runs from zero to the modulus, the output being
high while it is below the duty.

The two texts in VHDL are one architecture (`Vhdl.step`), with the test of the
address as a parameter.
-/

namespace EmbeddedSystems.Pwm

open Clocked

/-- The generics `duty_default` and `modulus_default`: integers, which VHDL only converts to
    `unsigned` if they are not negative. -/
structure Generics where
  dutyDefault : ℕ
  modulusDefault : ℕ
  dutyDefault_lt : dutyDefault < 2 ^ 31
  modulusDefault_lt : modulusDefault < 2 ^ 31

/-- The inputs of the bus interface, with an address of type `α`. -/
structure Bus (α : Type) where
  address : α
  write : Bool
  writedata : BitVec 32
  read : Bool

/-! ## The architecture in VHDL -/

/-- The signals of the process that writes the registers. -/
structure Registers where
  modulus : BitVec 32
  duty : BitVec 32

/-- The signals of the process `pwm_gen`. -/
structure Generator where
  counter : BitVec 32
  pwmOut : Bool

/-- The signals of the architecture. -/
structure State extends Registers, Generator

namespace Vhdl

/-- `To_Unsigned`, to 32 bits. -/
def toUnsigned (n : ℕ) : BitVec 32 := BitVec.ofNat 32 n

def registersReset (g : Generics) : Registers where
  duty := toUnsigned g.dutyDefault
  modulus := toUnsigned g.modulusDefault

def generatorReset : Generator where
  counter := 0
  pwmOut := false

def resetState (g : Generics) : State where
  toRegisters := registersReset g
  toGenerator := generatorReset

variable {α : Type} (addressIsZero : α → Bool)

/-- The process that writes the registers, at a rising edge of the clock. -/
def registersClock (bus : Bus α) (s : State) : Registers :=
  if bus.write = true then
    if addressIsZero bus.address = true then { s.toRegisters with modulus := bus.writedata }
    else { s.toRegisters with duty := bus.writedata }
  else s.toRegisters

/-- The process `pwm_gen`, at a rising edge of the clock. -/
def pwmGenClock (_ : Bus α) (s : State) : Generator where
  pwmOut := if s.counter < s.duty then true else false
  counter := if s.counter < s.modulus then s.counter + 1 else 0

/-- Both processes, at an instant of the waveform. -/
def step (g : Generics) (old new : Pins (Bus α)) (s : State) : State where
  toRegisters :=
    vhdlProcess State.toRegisters (registersReset g) (registersClock addressIsZero) old new s
  toGenerator := vhdlProcess State.toGenerator generatorReset pwmGenClock old new s

/-- The output `readdata`. -/
def readdata (bus : Bus α) (s : State) : BitVec 32 :=
  if addressIsZero bus.address = true then s.modulus else s.duty

end Vhdl

namespace Lesson2

/-- `address = '0'`, for an address of one bit. -/
def addressIsZero (address : Bool) : Bool := address = false

def step (g : Generics) : Pins (Bus Bool) → Pins (Bus Bool) → State → State :=
  Vhdl.step addressIsZero g

def readdata : Bus Bool → State → BitVec 32 := Vhdl.readdata addressIsZero

/-- The state at every instant, from reset. -/
def run (g : Generics) (ω : Waveform (Bus Bool)) : ℕ → State :=
  states (step g) (Vhdl.resetState g) ω

end Lesson2

namespace Lesson3

/-- `address(0) = '0'`, for an address of ten bits. -/
def addressIsZero (address : BitVec 10) : Bool := address.getLsbD 0 = false

def step (g : Generics) : Pins (Bus (BitVec 10)) → Pins (Bus (BitVec 10)) → State → State :=
  Vhdl.step addressIsZero g

def readdata : Bus (BitVec 10) → State → BitVec 32 := Vhdl.readdata addressIsZero

/-- The state at every instant, from reset. -/
def run (g : Generics) (ω : Waveform (Bus (BitVec 10))) : ℕ → State :=
  states (step g) (Vhdl.resetState g) ω

end Lesson3

/-! ## The module in Verilog -/

namespace Verilog

/-- The variables of the block that writes the registers. -/
structure Registers where
  modulus : BitVec 32
  duty : BitVec 32

/-- The variables of the block that counts. -/
structure Generator where
  counter : BitVec 32
  pwm : Bool

/-- The variables of the module. -/
structure State extends Registers, Generator

/-- The reduction operator `&`: all bits of the operand are one. -/
def reductionAnd {w : ℕ} (x : BitVec w) : Bool := x = BitVec.allOnes w

/-- The wire `modulus_en`. -/
def modulusEn (bus : Bus (BitVec 10)) : Bool := !bus.address.getLsbD 0

/-- The wire `duty_en`. -/
def dutyEn (bus : Bus (BitVec 10)) : Bool := bus.address.getLsbD 0

/-- The parameters are signed integers of 32 bits. -/
def registersReset (g : Generics) : Registers where
  modulus := BitVec.ofInt 32 g.modulusDefault
  duty := BitVec.ofInt 32 g.dutyDefault

def generatorReset : Generator where
  counter := 0
  pwm := false

def resetState (g : Generics) : State where
  toRegisters := registersReset g
  toGenerator := generatorReset

/-- The block that writes the registers, at a rising edge of the clock. -/
def registersClock (bus : Bus (BitVec 10)) (s : State) : Registers where
  modulus := if (modulusEn bus && bus.write) = true then bus.writedata else s.modulus
  -- `duty_en & & write`: the second operator is a reduction
  duty := if (dutyEn bus && reductionAnd (BitVec.ofBool bus.write)) = true then bus.writedata
    else s.duty

/-- The block that counts, at a rising edge of the clock. -/
def generatorClock (_ : Bus (BitVec 10)) (s : State) : Generator where
  pwm := if s.counter < s.duty then true else false
  counter := if s.counter < s.modulus then s.counter + 1 else 0

/-- Both blocks, at an instant of the waveform. -/
def step (g : Generics) (old new : Pins (Bus (BitVec 10))) (s : State) : State where
  toRegisters := verilogAlways State.toRegisters (registersReset g) registersClock old new s
  toGenerator := verilogAlways State.toGenerator generatorReset generatorClock old new s

/-- The output `readdata`: unknown (`'bx`) unless `read` is set. -/
def readdata (bus : Bus (BitVec 10)) (s : State) : Option (BitVec 32) :=
  if (!bus.read) = true then none
  else if modulusEn bus = true then some s.modulus
  else some s.duty

/-- The wire `pwm_out`. -/
def pwmOut (s : State) : Bool := s.pwm

/-- The state at every instant, from reset. -/
def run (g : Generics) (ω : Waveform (Bus (BitVec 10))) : ℕ → State :=
  states (step g) (resetState g) ω

end Verilog

/-! ## Runs -/

namespace Vhdl

variable {α : Type} {addressIsZero : α → Bool} {g : Generics}

/-- Both processes hold their reset values while the reset is active. -/
def Held (g : Generics) (p : Pins (Bus α)) (s : State) : Prop :=
  HeldInReset State.toRegisters (registersReset g) p s ∧
    HeldInReset State.toGenerator generatorReset p s

theorem held_resetState (g : Generics) (p : Pins (Bus α)) : Held g p (resetState g) :=
  ⟨fun _ => rfl, fun _ => rfl⟩

/-- What both processes do, at an instant of the waveform. -/
theorem step_eq {old new : Pins (Bus α)} {s : State} (h : Held g old s) :
    step addressIsZero g old new s =
      { toRegisters :=
          clocked State.toRegisters (registersReset g) (registersClock addressIsZero) old new s
        toGenerator := clocked State.toGenerator generatorReset pwmGenClock old new s } := by
  rw [step, vhdlProcess_eq h.1, vhdlProcess_eq h.2]

theorem held_step {old new : Pins (Bus α)} {s : State} (h : Held g old s) :
    Held g new (step addressIsZero g old new s) := by
  rw [step_eq h]
  exact ⟨fun hreset => clocked_of_reset hreset, fun hreset => clocked_of_reset hreset⟩

/-- The state at every instant, from reset, whatever the test of the address is. -/
def run (addressIsZero : α → Bool) (g : Generics) (ω : Waveform (Bus α)) : ℕ → State :=
  states (step addressIsZero g) (resetState g) ω

theorem held_run (addressIsZero : α → Bool) (g : Generics) (ω : Waveform (Bus α)) (t : ℕ) :
    Held g (ω t) (run addressIsZero g ω t) :=
  states_invariant (Held g) ω (held_resetState g _) (fun _ _ _ h => held_step h) t

/-- An instant without reset: both processes run at an edge of the clock, and at no other. -/
theorem run_succ {ω : Waveform (Bus α)} {t : ℕ} (hreset : (ω (t + 1)).reset = false) :
    run addressIsZero g ω (t + 1) =
      if rises (ω t).clk (ω (t + 1)).clk = true then
        { toRegisters := registersClock addressIsZero (ω (t + 1)).inp (run addressIsZero g ω t)
          toGenerator := pwmGenClock (ω (t + 1)).inp (run addressIsZero g ω t) }
      else run addressIsZero g ω t := by
  have hstep : run addressIsZero g ω (t + 1) =
      step addressIsZero g (ω t) (ω (t + 1)) (run addressIsZero g ω t) := rfl
  rw [hstep, step_eq (held_run addressIsZero g ω t)]
  split_ifs with hclk
  · rw [clocked_of_rises hreset hclk, clocked_of_rises hreset hclk]
  · rw [clocked_of_not_rises hreset hclk, clocked_of_not_rises hreset hclk]

end Vhdl

end EmbeddedSystems.Pwm
