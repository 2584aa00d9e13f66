import EmbeddedSystems.Nios2leds.KeyPio

/-!
# The interrupt handler of the keys

An execution of `handle_key_interrupts` reads the register `edge_capture` into
`edge_pin`, and writes `edge_pin` back to clear what it has read. Here the handler
runs next to the port: at every edge of the clock the keys are sampled, and the
handler may take its next step (`Tick`), so that falling edges and the steps of
any number of executions come in every order.

The handler is written for a register that clears the bits that are written as
one. The port clears all of them, and a write wins over an edge that is detected at
the same clock, so that a key that falls between the read and the write is lost
(`noPressLost_lostPress`). A run loses no press exactly if in every execution no
falling edge is detected from the clock of the read to that of the write
(`noPressLost_iff`), whether the bit was set at the read or not.
-/

namespace EmbeddedSystems.Nios2leds

open KeyPio

/-- An edge of the clock: what the keys are at it, and whether the handler takes its next step. -/
structure Tick where
  inPort : BitVec 2
  advance : Bool

/-- The port, and the variable `edge_pin` of the execution between its read and its write. -/
structure System where
  pio : KeyPio.State
  edgePin : Option (BitVec 32)

/-- The bus while the handler does not use it. -/
def idleBus (inPort : BitVec 2) : Bus := ⟨0, false, true, 0, inPort⟩

/-- The bus at `IORD_ALTERA_AVALON_PIO_EDGE_CAP(KEY_PIO_BASE)`. -/
def readBus (inPort : BitVec 2) : Bus := ⟨3, true, true, 0, inPort⟩

/-- The bus at `IOWR_ALTERA_AVALON_PIO_EDGE_CAP(KEY_PIO_BASE, edge_pin)`. -/
def writeBus (edgePin : BitVec 32) (inPort : BitVec 2) : Bus := ⟨3, true, false, edgePin, inPort⟩

/-- An edge of the clock. An execution starts with the read, which returns the register
    `readdata`, and is done with the port after the write. -/
def System.tick (s : System) (x : Tick) : System :=
  match x.advance, s.edgePin with
  | false, _ => { s with pio := clock (idleBus x.inPort) s.pio }
  | true, none =>
    let pio := clock (readBus x.inPort) s.pio
    { pio := pio, edgePin := some pio.readdata }
  | true, some edgePin => { pio := clock (writeBus edgePin x.inPort) s.pio, edgePin := none }

namespace KeyInterrupts

/-- The state before the tick `t`, from a state of the port in which no execution is under way. -/
def run (pio : KeyPio.State) (ω : ℕ → Tick) : ℕ → System
  | 0 => { pio := pio, edgePin := none }
  | t + 1 => (run pio ω t).tick (ω t)

variable (pio : KeyPio.State) (ω : ℕ → Tick)

/-- The edge-capture bit of the key `i` before the tick `t`. -/
def bit (t : ℕ) (i : Fin 2) : Bool := (run pio ω t).pio.edgeCapture i

/-- A falling edge of the key `i` is detected: `edge_detect` has its bit at the tick `t`. -/
def Falls (t : ℕ) (i : Fin 2) : Prop := (edgeDetect (run pio ω t).pio).getLsb i = true

/-- An execution reads the register at the tick `t`. -/
def Reads (t : ℕ) : Prop := (ω t).advance = true ∧ (run pio ω t).edgePin = none

/-- An execution with the value `edgePin` writes the register at the tick `t`. -/
def Writes (t : ℕ) (edgePin : BitVec 32) : Prop :=
  (ω t).advance = true ∧ (run pio ω t).edgePin = some edgePin

/-- An execution reads the register at the tick `r` and writes it at the tick `w`. -/
structure Execution (r w : ℕ) (edgePin : BitVec 32) : Prop where
  reads : Reads pio ω r
  lt : r < w
  waits : ∀ t, r < t → t < w → (ω t).advance = false
  writes : Writes pio ω w edgePin

/-- No key press is lost. -/
structure NoPressLost : Prop where
  /-- Every bit that a write clears has been reported by the same execution. -/
  reported : ∀ r w edgePin i, Execution pio ω r w edgePin →
    bit pio ω w i = true → bit pio ω (w + 1) i = false → edgePin.getLsbD i = true
  /-- An edge from the clock of the read to that of the write is pending after the write. -/
  pending : ∀ r w edgePin k i, Execution pio ω r w edgePin → r ≤ k → k ≤ w →
    Falls pio ω k i → bit pio ω (w + 1) i = true
  /-- Every edge is delivered by the next execution that reads the register. -/
  delivered : ∀ k r i, Falls pio ω k i → k < r → Reads pio ω r →
    (∀ t, k < t → t < r → ¬Reads pio ω t) →
    ∃ edgePin, (run pio ω (r + 1)).edgePin = some edgePin ∧ edgePin.getLsbD i = true

/-- From the clock of the read of an execution to that of its write, no falling edge is
    detected. -/
def Undisturbed : Prop :=
  ∀ r w edgePin, Execution pio ω r w edgePin → ∀ k i, r ≤ k → k ≤ w → ¬Falls pio ω k i

/-! ## One tick -/

variable {pio ω} {t : ℕ} {i : Fin 2} {edgePin : BitVec 32}

/-- What a tick can be: a read, a write, or one at which the handler does not use the bus. -/
theorem tick_cases (pio : KeyPio.State) (ω : ℕ → Tick) (t : ℕ) :
    (Reads pio ω t ∧ run pio ω (t + 1) =
      { pio := clock (readBus (ω t).inPort) (run pio ω t).pio
        edgePin := some (clock (readBus (ω t).inPort) (run pio ω t).pio).readdata }) ∨
    (∃ edgePin, Writes pio ω t edgePin ∧ run pio ω (t + 1) =
      { pio := clock (writeBus edgePin (ω t).inPort) (run pio ω t).pio, edgePin := none }) ∨
    ((ω t).advance = false ∧ run pio ω (t + 1) =
      { pio := clock (idleBus (ω t).inPort) (run pio ω t).pio
        edgePin := (run pio ω t).edgePin }) := by
  rcases Bool.eq_false_or_eq_true (ω t).advance with hadvance | hadvance
  · cases hpin : (run pio ω t).edgePin with
    | none =>
      left
      exact ⟨⟨hadvance, hpin⟩, by rw [run, System.tick, hadvance, hpin]⟩
    | some edgePin =>
      right
      left
      exact ⟨edgePin, ⟨hadvance, hpin⟩, by rw [run, System.tick, hadvance, hpin]⟩
  · right
    right
    rw [run, System.tick, hadvance]
    exact ⟨rfl, rfl⟩

theorem Reads.not_writes (h : Reads pio ω t) (edgePin : BitVec 32) : ¬Writes pio ω t edgePin := by
  intro hwrites
  rw [Writes, h.2] at hwrites
  exact absurd hwrites.2 (by simp)

theorem not_writes_of_not_advance (h : (ω t).advance = false) (edgePin : BitVec 32) :
    ¬Writes pio ω t edgePin := by
  intro hwrites
  rw [Writes, h] at hwrites
  exact Bool.false_ne_true hwrites.1

/-- A write clears every bit. -/
theorem bit_of_writes (h : Writes pio ω t edgePin) (i : Fin 2) : bit pio ω (t + 1) i = false := by
  rcases tick_cases pio ω t with ⟨hreads, -⟩ | ⟨edgePin', -, htick⟩ | ⟨hadvance, -⟩
  · exact absurd h (hreads.not_writes edgePin)
  · rw [bit, htick]
    exact edgeCapture_of_strobe rfl i
  · exact absurd h (not_writes_of_not_advance hadvance edgePin)

/-- Without a write, the bits of the keys that have fallen are set. -/
theorem bit_of_not_writes (h : ∀ edgePin, ¬Writes pio ω t edgePin) (i : Fin 2) :
    bit pio ω (t + 1) i = true ↔ Falls pio ω t i ∨ bit pio ω t i = true := by
  rcases tick_cases pio ω t with ⟨-, htick⟩ | ⟨edgePin, hwrites, -⟩ | ⟨-, htick⟩
  · have hstrobe : edgeCaptureWrStrobe (readBus (ω t).inPort) = false := rfl
    rw [bit, htick]
    exact edgeCapture_of_not_strobe hstrobe i
  · exact absurd hwrites (h edgePin)
  · have hstrobe : edgeCaptureWrStrobe (idleBus (ω t).inPort) = false := rfl
    rw [bit, htick]
    exact edgeCapture_of_not_strobe hstrobe i

/-- A read reports the bits that are set. -/
theorem edgePin_of_reads (h : Reads pio ω t) :
    ∃ edgePin, (run pio ω (t + 1)).edgePin = some edgePin ∧
      ∀ i : Fin 2, edgePin.getLsbD i = bit pio ω t i := by
  rcases tick_cases pio ω t with ⟨-, htick⟩ | ⟨edgePin, hwrites, -⟩ | ⟨hadvance, -⟩
  · rw [htick]
    exact ⟨_, rfl, fun i => getLsbD_readdata rfl i⟩
  · exact absurd hwrites (h.not_writes edgePin)
  · exact absurd (h.1.symm.trans hadvance) (by decide)

/-- The port sees the keys at every tick. -/
theorem exists_clock (pio : KeyPio.State) (ω : ℕ → Tick) (t : ℕ) :
    ∃ bus : Bus, bus.inPort = (ω t).inPort ∧
      (run pio ω (t + 1)).pio = clock bus (run pio ω t).pio := by
  rcases tick_cases pio ω t with ⟨-, htick⟩ | ⟨edgePin, -, htick⟩ | ⟨-, htick⟩
  · exact ⟨readBus (ω t).inPort, rfl, by rw [htick]⟩
  · exact ⟨writeBus edgePin (ω t).inPort, rfl, by rw [htick]⟩
  · exact ⟨idleBus (ω t).inPort, rfl, by rw [htick]⟩

/-- A key has fallen if it was high at one tick and low at the next. -/
theorem falls_iff (t : ℕ) (i : Fin 2) : Falls pio ω (t + 2) i ↔
    (ω t).inPort.getLsb i = true ∧ (ω (t + 1)).inPort.getLsb i = false := by
  obtain ⟨bus₁, hin₁, hclock₁⟩ := exists_clock pio ω t
  obtain ⟨bus₂, hin₂, hclock₂⟩ := exists_clock pio ω (t + 1)
  have hsample : (run pio ω (t + 1)).pio.d1DataIn = (ω t).inPort := by
    rw [hclock₁, ← hin₁]
    rfl
  rw [Falls, hclock₂, edgeDetect_clock, hsample, hin₂, Bool.and_eq_true, Bool.not_eq_true',
    and_comm]

/-! ## Several ticks -/

/-- A bit that is set stays so until the next write. -/
theorem bit_mono {a b : ℕ} (hab : a ≤ b)
    (hwrites : ∀ t, a ≤ t → t < b → ∀ edgePin, ¬Writes pio ω t edgePin)
    (h : bit pio ω a i = true) : bit pio ω b i = true := by
  induction b, hab using Nat.le_induction with
  | base => exact h
  | succ b hab ih =>
    rw [bit_of_not_writes (hwrites b hab b.lt_succ_self)]
    exact Or.inr (ih fun t h₁ h₂ => hwrites t h₁ (Nat.lt_succ_of_lt h₂))

/-- A bit that is set without having been so has been set by an edge. -/
theorem exists_falls {a b : ℕ} (hab : a ≤ b)
    (hwrites : ∀ t, a ≤ t → t < b → ∀ edgePin, ¬Writes pio ω t edgePin)
    (h : bit pio ω b i = true) :
    bit pio ω a i = true ∨ ∃ t, a ≤ t ∧ t < b ∧ Falls pio ω t i := by
  induction b, hab using Nat.le_induction with
  | base => exact Or.inl h
  | succ b hab ih =>
    rw [bit_of_not_writes (hwrites b hab b.lt_succ_self)] at h
    rcases h with hfalls | hbit
    · exact Or.inr ⟨b, hab, b.lt_succ_self, hfalls⟩
    · obtain hbit | ⟨t, h₁, h₂, hfalls⟩ :=
        ih (fun t h₁ h₂ => hwrites t h₁ (Nat.lt_succ_of_lt h₂)) hbit
      · exact Or.inl hbit
      · exact Or.inr ⟨t, h₁, Nat.lt_succ_of_lt h₂, hfalls⟩

/-! ## Executions -/

/-- What holds between the read and the write of an execution. -/
theorem exists_reads (h : (run pio ω t).edgePin = some edgePin) :
    ∃ r < t, Reads pio ω r ∧ (∀ k, r < k → k < t → (ω k).advance = false) ∧
      ∀ i : Fin 2, edgePin.getLsbD i = bit pio ω r i := by
  induction t with
  | zero => exact absurd h (by simp [run])
  | succ t ih =>
    rcases tick_cases pio ω t with ⟨hreads, -⟩ | ⟨edgePin', -, htick⟩ | ⟨hadvance, htick⟩
    · obtain ⟨edgePin', hpin', hreport⟩ := edgePin_of_reads hreads
      obtain rfl : edgePin' = edgePin := Option.some.inj (hpin'.symm.trans h)
      exact ⟨t, t.lt_succ_self, hreads, fun k h₁ h₂ => by omega, hreport⟩
    · rw [htick] at h
      exact absurd h (by simp)
    · rw [htick] at h
      obtain ⟨r, hr, hreads, hwaits, hreport⟩ := ih h
      refine ⟨r, Nat.lt_succ_of_lt hr, hreads, fun k h₁ h₂ => ?_, hreport⟩
      rcases Nat.lt_succ_iff_lt_or_eq.1 h₂ with h₂ | rfl
      · exact hwaits k h₁ h₂
      · exact hadvance

/-- Every write is that of an execution. -/
theorem exists_execution {w : ℕ} (h : Writes pio ω w edgePin) :
    ∃ r, Execution pio ω r w edgePin := by
  obtain ⟨r, hr, hreads, hwaits, -⟩ := exists_reads h.2
  exact ⟨r, hreads, hr, hwaits, h⟩

variable {r w : ℕ}

/-- There is no write from the read of an execution up to its own write. -/
theorem Execution.not_writes (h : Execution pio ω r w edgePin) (t : ℕ) (h₁ : r ≤ t) (h₂ : t < w)
    (edgePin' : BitVec 32) : ¬Writes pio ω t edgePin' := by
  rcases Nat.eq_or_lt_of_le h₁ with rfl | hlt
  · exact h.reads.not_writes edgePin'
  · exact not_writes_of_not_advance (h.waits t hlt h₂) edgePin'

/-- An execution writes what it has read. -/
theorem Execution.getLsbD_edgePin (h : Execution pio ω r w edgePin) (i : Fin 2) :
    edgePin.getLsbD i = bit pio ω r i := by
  obtain ⟨r', hr', hreads, hwaits, hreport⟩ := exists_reads h.writes.2
  -- both `r` and `r'` are the last tick before `w` at which the handler takes a step
  obtain rfl : r' = r := by
    rcases Nat.lt_trichotomy r r' with hlt | heq | hlt
    · exact absurd hreads.1 (by simp [h.waits r' hlt hr'])
    · exact heq.symm
    · exact absurd h.reads.1 (by simp [hwaits r hlt h.lt])
  exact hreport i

/-! ## The condition -/

theorem Undisturbed.noPressLost (h : Undisturbed pio ω) : NoPressLost pio ω where
  reported r w edgePin i hexec hbit _ := by
    rw [hexec.getLsbD_edgePin]
    -- the bit would have to be set by an edge after the read
    obtain hread | ⟨k, h₁, h₂, hfalls⟩ := exists_falls hexec.lt.le hexec.not_writes hbit
    · exact hread
    · exact absurd hfalls (h r w edgePin hexec k i h₁ h₂.le)
  pending r w edgePin k i hexec h₁ h₂ hfalls := absurd hfalls (h r w edgePin hexec k i h₁ h₂)
  delivered k r i hfalls hlt hreads hnext := by
    -- a write since the edge would be that of an execution that has read by then
    have hwrites : ∀ t, k ≤ t → t < r → ∀ edgePin, ¬Writes pio ω t edgePin := by
      intro w h₁ h₂ edgePin hwrites
      obtain ⟨r', hexec⟩ := exists_execution hwrites
      have hr' : r' ≤ k := by
        by_contra hr'
        exact hnext r' (Nat.lt_of_not_le hr') (hexec.lt.trans h₂) hexec.reads
      exact h r' w edgePin hexec k i hr' h₁ hfalls
    have hset : bit pio ω (k + 1) i = true :=
      (bit_of_not_writes (hwrites k le_rfl hlt) i).2 (Or.inl hfalls)
    obtain ⟨edgePin, hpin, hreport⟩ := edgePin_of_reads hreads
    have hstays := bit_mono hlt (fun t h₁ => hwrites t (Nat.le_of_succ_le h₁)) hset
    exact ⟨edgePin, hpin, (hreport i).trans hstays⟩

theorem NoPressLost.undisturbed (h : NoPressLost pio ω) : Undisturbed pio ω := by
  intro r w edgePin hexec k i h₁ h₂ hfalls
  -- the write clears the bit, whether the edge has set it or comes at the same clock
  have hpending := h.pending r w edgePin k i hexec h₁ h₂ hfalls
  rw [bit_of_writes hexec.writes] at hpending
  exact Bool.false_ne_true hpending

/-- A run, of any number of executions and with falling edges at any time, loses no key press if
    and only if it is undisturbed. -/
theorem noPressLost_iff (pio : KeyPio.State) (ω : ℕ → Tick) :
    NoPressLost pio ω ↔ Undisturbed pio ω :=
  ⟨NoPressLost.undisturbed, Undisturbed.noPressLost⟩

/-- Key 0 falls, the handler reads its bit, key 1 falls, and the handler writes what it has
    read. -/
def lostPress : ℕ → Tick
  | 0 => ⟨0b11, false⟩
  | 1 => ⟨0b10, false⟩
  | 2 => ⟨0b10, false⟩
  | 3 => ⟨0b00, true⟩
  | 4 => ⟨0b00, false⟩
  | _ => ⟨0b00, true⟩

theorem noPressLost_lostPress : ¬NoPressLost resetState lostPress := by
  intro h
  have hwaits : ∀ t, 3 < t → t < 5 → (lostPress t).advance = false := by
    intro t h₁ h₂
    obtain rfl : t = 4 := by omega
    rfl
  have hexec : Execution resetState lostPress 3 5 1 :=
    ⟨⟨rfl, by decide⟩, by decide, hwaits, ⟨rfl, by decide⟩⟩
  exact absurd (h.reported 3 5 1 1 hexec (by decide) (by decide)) (by decide)

end KeyInterrupts

end EmbeddedSystems.Nios2leds
