import Mathlib

/-!
# The system clock timer

The generated module `HostSystem_sys_clk_timer`: a counter that is loaded from the
period registers, runs down, and is loaded again after zero. When it comes to zero it
sets `timeout_occurred`, which requests the interrupt until the status register is
written; at one clock the write wins over the timeout.

Once started in continuous mode with the period `P`, and as long as only the status
register is written, the counter takes the values `P, P - 1, …, 0` over and over, so that
there is a timeout every `P + 1` clocks (`timeoutEvent_iff`), `t / (P + 1)` of them in `t`
clocks (`count_timeoutEvent`).

The reset input is active low and asynchronous; it leads to `resetState`. The wire
`clk_en` is one.
-/

namespace EmbeddedSystems.HostSystem.SysClkTimer

/-- The inputs of the module. -/
structure Bus where
  address : BitVec 3
  chipselect : Bool
  writeN : Bool
  writedata : BitVec 16

/-- The registers of the module. -/
structure State where
  internalCounter : BitVec 32
  forceReload : Bool
  counterIsRunning : Bool
  /-- The register `delayed_unxcounter_is_zeroxx0`. -/
  delayedCounterIsZero : Bool
  timeoutOccurred : Bool
  readdata : BitVec 16
  periodLRegister : BitVec 16
  periodHRegister : BitVec 16
  counterSnapshot : BitVec 32
  controlRegister : BitVec 4

/-! ## The wires -/

/-- `chipselect && ~write_n && (address == a)`. -/
def wrStrobe (a : BitVec 3) (bus : Bus) : Bool := bus.chipselect && !bus.writeN && bus.address = a

def statusWrStrobe : Bus → Bool := wrStrobe 0

def controlWrStrobe : Bus → Bool := wrStrobe 1

def periodLWrStrobe : Bus → Bool := wrStrobe 2

def periodHWrStrobe : Bus → Bool := wrStrobe 3

def snapStrobe (bus : Bus) : Bool := wrStrobe 4 bus || wrStrobe 5 bus

def stopStrobe (bus : Bus) : Bool := bus.writedata.getLsbD 3 && controlWrStrobe bus

def startStrobe (bus : Bus) : Bool := bus.writedata.getLsbD 2 && controlWrStrobe bus

def controlContinuous (s : State) : Bool := s.controlRegister.getLsbD 1

def controlInterruptEnable (s : State) : Bool := s.controlRegister.getLsbD 0

def counterIsZero (s : State) : Bool := s.internalCounter = 0#32

def counterLoadValue (s : State) : BitVec 32 := s.periodHRegister ++ s.periodLRegister

def doStartCounter (bus : Bus) : Bool := startStrobe bus

def doStopCounter (bus : Bus) (s : State) : Bool :=
  stopStrobe bus || s.forceReload || (counterIsZero s && !controlContinuous s)

def timeoutEvent (s : State) : Bool := counterIsZero s && !s.delayedCounterIsZero

def irq (s : State) : Bool := s.timeoutOccurred && controlInterruptEnable s

/-- `{16 {b}}`. -/
def replicate (b : Bool) : BitVec 16 := if b = true then BitVec.allOnes 16 else 0#16

def readMuxOut (bus : Bus) (s : State) : BitVec 16 :=
  (replicate (bus.address = 2) &&& s.periodLRegister) |||
    (replicate (bus.address = 3) &&& s.periodHRegister) |||
    (replicate (bus.address = 4) &&& s.counterSnapshot.extractLsb' 0 16) |||
    (replicate (bus.address = 5) &&& s.counterSnapshot.extractLsb' 16 16) |||
    (replicate (bus.address = 1) &&& s.controlRegister.setWidth 16) |||
    (replicate (bus.address = 0) &&&
      (BitVec.ofBool s.counterIsRunning ++ BitVec.ofBool s.timeoutOccurred).setWidth 16)

/-! ## The blocks -/

/-- All blocks, at a rising edge of the clock. -/
def clock (bus : Bus) (s : State) : State where
  internalCounter :=
    if s.counterIsRunning || s.forceReload then
      if counterIsZero s || s.forceReload then counterLoadValue s else s.internalCounter - 1#32
    else s.internalCounter
  forceReload := periodHWrStrobe bus || periodLWrStrobe bus
  counterIsRunning :=
    if doStartCounter bus then true
    else if doStopCounter bus s then false
    else s.counterIsRunning
  delayedCounterIsZero := counterIsZero s
  timeoutOccurred :=
    if statusWrStrobe bus then false
    else if timeoutEvent s then true
    else s.timeoutOccurred
  readdata := readMuxOut bus s
  periodLRegister := if periodLWrStrobe bus then bus.writedata else s.periodLRegister
  periodHRegister := if periodHWrStrobe bus then bus.writedata else s.periodHRegister
  counterSnapshot := if snapStrobe bus then s.internalCounter else s.counterSnapshot
  controlRegister := if controlWrStrobe bus then bus.writedata.setWidth 4 else s.controlRegister

/-- The state after a reset. -/
def resetState : State where
  internalCounter := 0xC34F#32
  forceReload := false
  counterIsRunning := false
  delayedCounterIsZero := false
  timeoutOccurred := false
  readdata := 0#16
  periodLRegister := 49999#16
  periodHRegister := 0#16
  counterSnapshot := 0#32
  controlRegister := 0#4

/-! ## Running -/

/-- A bus on which nothing is written to the control register and the period registers. -/
structure Steady (bus : Bus) : Prop where
  control : controlWrStrobe bus = false
  periodL : periodLWrStrobe bus = false
  periodH : periodHWrStrobe bus = false

/-- The timer runs in continuous mode, with the interrupt enabled and the period `P`. -/
structure Running (P : ℕ) (s : State) : Prop where
  running : s.counterIsRunning = true
  reload : s.forceReload = false
  continuous : controlContinuous s = true
  enabled : controlInterruptEnable s = true
  period : (counterLoadValue s).toNat = P
  /-- The counter has not been at zero for longer than a clock. -/
  zero : counterIsZero s = true → s.delayedCounterIsZero = false

variable {bus : Bus} {s : State} {P : ℕ}

theorem counterIsZero_iff (s : State) : counterIsZero s = true ↔ s.internalCounter.toNat = 0 := by
  rw [counterIsZero, decide_eq_true_iff]
  exact BitVec.toNat_inj.symm

theorem Running.timeoutEvent_eq (h : Running P s) : timeoutEvent s = counterIsZero s := by
  rw [timeoutEvent]
  rcases Bool.eq_false_or_eq_true (counterIsZero s) with hzero | hzero
  · rw [hzero, h.zero hzero]
    rfl
  · rw [hzero, Bool.false_and]

/-- A running counter counts down, and is loaded after zero. -/
theorem Running.internalCounter_clock (h : Running P s) (bus : Bus) :
    (clock bus s).internalCounter.toNat =
      if s.internalCounter.toNat = 0 then P else s.internalCounter.toNat - 1 := by
  have hcounter : (clock bus s).internalCounter =
      if counterIsZero s then counterLoadValue s else s.internalCounter - 1#32 := by
    simp only [clock, h.running, h.reload, Bool.or_false, if_true]
  rw [hcounter]
  split_ifs with hzero hzero' hzero'
  · exact h.period
  · exact absurd ((counterIsZero_iff s).1 hzero) hzero'
  · exact absurd ((counterIsZero_iff s).2 hzero') hzero
  · exact BitVec.toNat_sub_of_le (BitVec.le_def.2 (Nat.one_le_iff_ne_zero.2 hzero'))

theorem controlRegister_clock (h : Steady bus) :
    (clock bus s).controlRegister = s.controlRegister :=
  if_neg (by rw [h.control]; exact Bool.false_ne_true)

theorem counterLoadValue_clock (h : Steady bus) :
    counterLoadValue (clock bus s) = counterLoadValue s := by
  have hl : (clock bus s).periodLRegister = s.periodLRegister :=
    if_neg (by rw [h.periodL]; exact Bool.false_ne_true)
  have hh : (clock bus s).periodHRegister = s.periodHRegister :=
    if_neg (by rw [h.periodH]; exact Bool.false_ne_true)
  rw [counterLoadValue, hl, hh, counterLoadValue]

theorem Running.clock (h : Running P s) (hP : P ≠ 0) (hbus : Steady bus) :
    Running P (clock bus s) where
  running := by
    have hstop : doStopCounter bus s = false := by
      rw [doStopCounter, stopStrobe, hbus.control, h.reload, h.continuous, Bool.and_false,
        Bool.not_true, Bool.and_false, Bool.or_false, Bool.or_false]
    change (if doStartCounter bus then true else if doStopCounter bus s then false
      else s.counterIsRunning) = true
    rw [hstop, h.running, if_neg Bool.false_ne_true, ite_self]
  reload := by
    change (periodHWrStrobe bus || periodLWrStrobe bus) = false
    rw [hbus.periodH, hbus.periodL, Bool.or_false]
  continuous := by rw [controlContinuous, controlRegister_clock hbus, ← h.continuous]; rfl
  enabled := by rw [controlInterruptEnable, controlRegister_clock hbus, ← h.enabled]; rfl
  period := by rw [counterLoadValue_clock hbus, h.period]
  zero hzero := by
    rw [counterIsZero_iff, h.internalCounter_clock] at hzero
    rw [Bool.eq_false_iff]
    intro hdelayed
    rw [if_pos ((counterIsZero_iff s).1 hdelayed)] at hzero
    exact hP hzero

/-! ## The start -/

/-- The timer after a reset, before it is started. -/
structure Stopped (s : State) : Prop where
  counter : s.internalCounter = 0xC34F#32
  reload : s.forceReload = false
  running : s.counterIsRunning = false
  delayed : s.delayedCounterIsZero = false
  timeout : s.timeoutOccurred = false
  period : counterLoadValue s = 49999#32

/-- The bus at `IOWR_ALTERA_AVALON_TIMER_CONTROL (base, ITO | CONT | START)`. -/
def startBus : Bus := ⟨1, true, false, 7⟩

theorem stopped_resetState : Stopped resetState := by
  constructor <;> rfl

theorem Stopped.counterIsZero (h : Stopped s) : counterIsZero s = false := by
  rw [SysClkTimer.counterIsZero, h.counter]
  decide

theorem Stopped.clock (h : Stopped s) (hbus : Steady bus) : Stopped (clock bus s) where
  counter := by
    rw [← h.counter]
    exact if_neg (by rw [h.running, h.reload]; decide)
  reload := by
    change (periodHWrStrobe bus || periodLWrStrobe bus) = false
    rw [hbus.periodH, hbus.periodL, Bool.or_false]
  running := by
    change (if doStartCounter bus then true else if doStopCounter bus s then false
      else s.counterIsRunning) = false
    rw [doStartCounter, startStrobe, hbus.control, Bool.and_false, h.running,
      if_neg Bool.false_ne_true, ite_self]
  delayed := h.counterIsZero
  timeout := by
    change (if statusWrStrobe bus then false else if timeoutEvent s then true
      else s.timeoutOccurred) = false
    rw [timeoutEvent, h.counterIsZero, Bool.false_and, h.timeout, if_neg Bool.false_ne_true,
      ite_self]
  period := by rw [counterLoadValue_clock hbus, h.period]

theorem controlRegister_start (s : State) : (clock startBus s).controlRegister = 7#4 := rfl

/-- The write of the driver starts the timer. -/
theorem Stopped.running_start (h : Stopped s) : Running 49999 (SysClkTimer.clock startBus s) where
  running := rfl
  reload := rfl
  continuous := by rw [controlContinuous, controlRegister_start]; rfl
  enabled := by rw [controlInterruptEnable, controlRegister_start]; rfl
  period := by
    change (counterLoadValue s).toNat = 49999
    rw [h.period]
    rfl
  zero _ := h.counterIsZero

theorem Stopped.counter_start (h : Stopped s) :
    (SysClkTimer.clock startBus s).internalCounter = 0xC34F#32 := by
  rw [← h.counter]
  exact if_neg (by rw [h.running, h.reload]; decide)

theorem Stopped.timeout_start (h : Stopped s) :
    (SysClkTimer.clock startBus s).timeoutOccurred = false := by
  change (if statusWrStrobe startBus then false else if timeoutEvent s then true
    else s.timeoutOccurred) = false
  rw [timeoutEvent, h.counterIsZero, Bool.false_and, h.timeout, if_neg Bool.false_ne_true, ite_self]

/-! ## Runs -/

/-- The state before the rising edge `t` of the clock. -/
def run (s : State) (ω : ℕ → Bus) : ℕ → State
  | 0 => s
  | t + 1 => clock (ω t) (run s ω t)

variable {ω : ℕ → Bus}

theorem running_run (h : Running P s) (hP : P ≠ 0) (hω : ∀ t, Steady (ω t)) (t : ℕ) :
    Running P (run s ω t) := by
  induction t with
  | zero => exact h
  | succ t ih => exact ih.clock hP (hω t)

/-- The counter goes through `P, P - 1, …, 0` over and over. -/
theorem internalCounter_run (h : Running P s) (hP : P ≠ 0) (hω : ∀ t, Steady (ω t))
    (hcounter : s.internalCounter.toNat = P) (t : ℕ) :
    (run s ω t).internalCounter.toNat = P - t % (P + 1) := by
  induction t with
  | zero => rw [Nat.zero_mod, run, hcounter, Nat.sub_zero]
  | succ t ih =>
    have hlt : t % (P + 1) < P + 1 := Nat.mod_lt t P.succ_pos
    rw [run, (running_run h hP hω t).internalCounter_clock, ih, Nat.add_mod_eq_ite,
      Nat.mod_eq_of_lt (Nat.succ_lt_succ (Nat.pos_of_ne_zero hP))]
    split_ifs <;> omega

/-- There is a timeout every `P + 1` clocks. -/
theorem timeoutEvent_iff (h : Running P s) (hP : P ≠ 0) (hω : ∀ t, Steady (ω t))
    (hcounter : s.internalCounter.toNat = P) (t : ℕ) :
    timeoutEvent (run s ω t) = true ↔ P + 1 ∣ t + 1 := by
  rw [(running_run h hP hω t).timeoutEvent_eq, counterIsZero_iff,
    internalCounter_run h hP hω hcounter, Nat.dvd_iff_mod_eq_zero, Nat.succ_mod_succ_eq_zero_iff]
  have hlt : t % (P + 1) < P + 1 := Nat.mod_lt t P.succ_pos
  omega

theorem count_timeoutEvent (h : Running P s) (hP : P ≠ 0) (hω : ∀ t, Steady (ω t))
    (hcounter : s.internalCounter.toNat = P) (t : ℕ) :
    Nat.count (fun u => timeoutEvent (run s ω u) = true) t = t / (P + 1) := by
  induction t with
  | zero => rw [Nat.count_zero, Nat.zero_div]
  | succ t ih =>
    rw [Nat.count_succ, ih, Nat.succ_div]
    simp only [timeoutEvent_iff h hP hω hcounter]

end EmbeddedSystems.HostSystem.SysClkTimer
