import EmbeddedSystems.Library.Clocked

/-!
# The input port of the keys

The generated module `HostSystem_key_pio`: the keys are sampled twice, a falling
edge shows as a difference of the two samples, and sets the bit of its key in the
register `edge_capture`. The module is configured without bit clearing
(`KEY_PIO_BIT_CLEARING_EDGE_REGISTER 0`): a write to the register clears both
bits, whatever the data, and wins over an edge at the same clock.

The reset input is active low: `Pins.reset` holds while `reset_n` is zero. The
output `irq`, which requests the handler, is left out: the handler may run at
any time.
-/

namespace EmbeddedSystems.Nios2leds.KeyPio

open Clocked

/-- The inputs of the module. -/
structure Bus where
  address : BitVec 2
  chipselect : Bool
  writeN : Bool
  writedata : BitVec 32
  inPort : BitVec 2

/-- The registers of the module. -/
structure State where
  readdata : BitVec 32
  irqMask : BitVec 2
  edgeCapture : Fin 2 → Bool
  d1DataIn : BitVec 2
  d2DataIn : BitVec 2

/-- The register `edge_capture` as a vector. -/
def State.edgeCaptureBits (s : State) : BitVec 2 := BitVec.ofFnLE s.edgeCapture

/-- `{2 {b}}`. -/
def replicate (b : Bool) : BitVec 2 := if b = true then BitVec.allOnes 2 else 0

/-- The wire `read_mux_out`. -/
def readMuxOut (bus : Bus) (s : State) : BitVec 2 :=
  (replicate (bus.address = 0) &&& bus.inPort) |||
    (replicate (bus.address = 2) &&& s.irqMask) |||
    (replicate (bus.address = 3) &&& s.edgeCaptureBits)

/-- The wire `edge_capture_wr_strobe`. -/
def edgeCaptureWrStrobe (bus : Bus) : Bool :=
  bus.chipselect && !bus.writeN && bus.address = 3

/-- The wire `edge_detect`. -/
def edgeDetect (s : State) : BitVec 2 := ~~~s.d1DataIn &&& s.d2DataIn

/-! ## The blocks, at a rising edge of the clock -/

def readdataClock (bus : Bus) (s : State) : BitVec 32 := (readMuxOut bus s).setWidth 32

def irqMaskClock (bus : Bus) (s : State) : BitVec 2 :=
  if (bus.chipselect && !bus.writeN && bus.address = 2) = true then bus.writedata.setWidth 2
  else s.irqMask

/-- The block of the bit `i` of `edge_capture`. -/
def edgeCaptureClock (i : Fin 2) (bus : Bus) (s : State) : Bool :=
  if edgeCaptureWrStrobe bus = true then false
  else if (edgeDetect s).getLsb i = true then true
  else s.edgeCapture i

def dataInClock (bus : Bus) (s : State) : BitVec 2 × BitVec 2 := (bus.inPort, s.d1DataIn)

/-- All blocks, at an instant of the waveform. -/
def step (old new : Pins Bus) (s : State) : State where
  readdata := verilogAlways State.readdata 0 readdataClock old new s
  irqMask := verilogAlways State.irqMask 0 irqMaskClock old new s
  edgeCapture i := verilogAlways (fun s => s.edgeCapture i) false (edgeCaptureClock i) old new s
  d1DataIn :=
    (verilogAlways (fun s => (s.d1DataIn, s.d2DataIn)) (0, 0) dataInClock old new s).1
  d2DataIn :=
    (verilogAlways (fun s => (s.d1DataIn, s.d2DataIn)) (0, 0) dataInClock old new s).2

/-- The state after a reset. -/
def resetState : State where
  readdata := 0
  irqMask := 0
  edgeCapture _ := false
  d1DataIn := 0
  d2DataIn := 0

/-- A rising edge of the clock, without reset. -/
def clock (bus : Bus) (s : State) : State := step ⟨false, false, bus⟩ ⟨true, false, bus⟩ s

/-! ## What an edge of the clock does -/

variable (bus : Bus) (s : State)

theorem clock_edgeCapture (i : Fin 2) :
    (clock bus s).edgeCapture i = edgeCaptureClock i bus s := rfl

theorem edgeDetect_clock (i : Fin 2) :
    (edgeDetect (clock bus s)).getLsb i = (!bus.inPort.getLsb i && s.d1DataIn.getLsb i) := by
  have hsamples : edgeDetect (clock bus s) = ~~~bus.inPort &&& s.d1DataIn := rfl
  simp [hsamples]

variable {bus s}

/-- A write to the register clears both bits. -/
theorem edgeCapture_of_strobe (h : edgeCaptureWrStrobe bus = true) (i : Fin 2) :
    (clock bus s).edgeCapture i = false :=
  if_pos h

/-- Otherwise a bit that is set stays so, and one whose key has fallen is set. -/
theorem edgeCapture_of_not_strobe (h : edgeCaptureWrStrobe bus = false) (i : Fin 2) :
    (clock bus s).edgeCapture i = true ↔
      (edgeDetect s).getLsb i = true ∨ s.edgeCapture i = true := by
  rw [clock_edgeCapture, edgeCaptureClock, h, if_neg Bool.false_ne_true]
  split_ifs with hdetect
  · exact iff_of_true rfl (Or.inl hdetect)
  · rw [or_iff_right hdetect]

/-- What a read of the register returns. -/
theorem getLsbD_readdata (h : bus.address = 3) (i : Fin 2) :
    (clock bus s).readdata.getLsbD i = s.edgeCapture i := by
  have hread : (clock bus s).readdata = (readMuxOut bus s).setWidth 32 := rfl
  have hmux : readMuxOut bus s = s.edgeCaptureBits := by
    rw [readMuxOut, h]
    change (0#2 &&& bus.inPort) ||| (0#2 &&& s.irqMask) |||
      (BitVec.allOnes 2 &&& s.edgeCaptureBits) = _
    simp only [BitVec.zero_and, BitVec.zero_or, BitVec.allOnes_and]
  have hlt : i.val < 32 := i.isLt.trans (by decide)
  rw [hread, hmux, BitVec.getLsbD_setWidth, State.edgeCaptureBits, BitVec.getLsbD_ofFnLE,
    dif_pos i.isLt, decide_eq_true hlt, Bool.true_and]

end EmbeddedSystems.Nios2leds.KeyPio
