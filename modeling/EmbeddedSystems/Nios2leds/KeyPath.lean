import EmbeddedSystems.HostSystem.ResetController
import EmbeddedSystems.Nios2leds.KeyPio
import EmbeddedSystems.Nios2leds.TopLevel

/-!
# From a key to the software

The way of the keys through the whole of `nios2leds`: the power-on reset goes to the
debouncer and, through the reset controller of the host system, to the input port of
the keys, which samples the debounced keys and captures their falling edges for
the software.

From power-up, whatever the registers without an initial value hold, and as long as the
debugger requests no reset: the host system is in reset up to the edge 20, and `reset_req` falls
one edge before that (`hostReset_run`). A key that becomes pressed at the edge `u`, after
50000 edges in a row, is captured at the edge `u + 2`, unless the software writes to the
register at that very edge. From the edge 10 on, a bit of `edge_capture` is set if and only
if its key has been captured so and there has been no write up to now (`key_captured_iff`).
-/

namespace EmbeddedSystems.Nios2leds

open Clocked HostSystem

/-! ## The port, from a reset on -/

namespace KeyPio

/-- The state after `t` edges without reset. -/
def run (bus : ℕ → Bus) : ℕ → State
  | 0 => resetState
  | t + 1 => clock (bus t) (run bus t)

variable {bus : ℕ → Bus} {t : ℕ} {i : Fin 2}

theorem d1DataIn_run_succ (t : ℕ) : (run bus (t + 1)).d1DataIn = (bus t).inPort := rfl

theorem edgeDetect_run_succ (t : ℕ) : (edgeDetect (run bus (t + 1))).getLsb i =
    (!(bus t).inPort.getLsb i && (run bus t).d1DataIn.getLsb i) := edgeDetect_clock _ _ i

/-- The edge detector sees a falling edge two edges of the clock after it, and none that is as old
    as the reset. -/
theorem edgeDetect_run_iff (t : ℕ) : (edgeDetect (run bus t)).getLsb i = true ↔
    ∃ u, u + 2 = t ∧ (bus u).inPort.getLsb i = true ∧ (bus (u + 1)).inPort.getLsb i = false := by
  match t with
  | 0 =>
    have hreset : (edgeDetect (run bus 0)).getLsb i = false := by
      change (edgeDetect resetState).getLsb i = false
      simp [edgeDetect, resetState]
    rw [hreset]
    exact iff_of_false Bool.false_ne_true fun ⟨u, hu, _⟩ => by omega
  | 1 =>
    have hreset : (run bus 0).d1DataIn.getLsb i = false := by
      change (0 : BitVec 2).getLsb i = false
      simp
    refine iff_of_false ?_ fun ⟨u, hu, _⟩ => by omega
    rw [edgeDetect_run_succ, hreset, Bool.and_false]
    exact Bool.false_ne_true
  | t + 2 =>
    rw [edgeDetect_run_succ, d1DataIn_run_succ, Bool.and_eq_true, Bool.not_eq_true', and_comm]
    constructor
    · exact fun h => ⟨t, rfl, h⟩
    · rintro ⟨u, hu, h⟩
      obtain rfl : u = t := by omega
      exact h

theorem edgeCapture_run_iff (t : ℕ) : (run bus t).edgeCapture i = true ↔
    ∃ u, u + 3 ≤ t ∧ (bus u).inPort.getLsb i = true ∧ (bus (u + 1)).inPort.getLsb i = false ∧
      ∀ v, u + 2 ≤ v → v < t → edgeCaptureWrStrobe (bus v) = false := by
  induction t with
  | zero => exact iff_of_false Bool.false_ne_true fun ⟨u, hu, _⟩ => by omega
  | succ t ih =>
    rw [run]
    rcases Bool.eq_false_or_eq_true (edgeCaptureWrStrobe (bus t)) with hstrobe | hstrobe
    · rw [edgeCapture_of_strobe hstrobe]
      refine iff_of_false Bool.false_ne_true fun ⟨u, hu, _, _, hnone⟩ => ?_
      rw [hnone t (by omega) t.lt_succ_self] at hstrobe
      exact Bool.false_ne_true hstrobe
    · rw [edgeCapture_of_not_strobe hstrobe, edgeDetect_run_iff, ih]
      constructor
      · rintro (⟨u, rfl, hhigh, hlow⟩ | ⟨u, hu, hhigh, hlow, hnone⟩)
        · refine ⟨u, le_rfl, hhigh, hlow, fun v hv hv' => ?_⟩
          obtain rfl : v = u + 2 := by omega
          exact hstrobe
        · refine ⟨u, by omega, hhigh, hlow, fun v hv hv' => ?_⟩
          rcases Nat.lt_succ_iff_lt_or_eq.1 hv' with hlt | rfl
          · exact hnone v hv hlt
          · exact hstrobe
      · rintro ⟨u, hu, hhigh, hlow, hnone⟩
        rcases Nat.eq_or_lt_of_le hu with heq | hlt
        · exact Or.inl ⟨u, by omega, hhigh, hlow⟩
        · exact Or.inr ⟨u, by omega, hhigh, hlow, fun v hv hv' => hnone v hv (by omega)⟩

end KeyPio

/-! ## The whole way -/

namespace KeyPath

open ResetController (Inp Interval rstController mergedReset)

/-- The components on the way. -/
structure State where
  top : Nios2leds.State
  rst : ResetController.System rstController
  pio : KeyPio.State

/-- What comes from outside, for one edge of the clock: the values that the wire
    `cpu_debug_reset_request_reset` takes before it, the keys, and the bus of the port. -/
structure Input where
  debugResetRequest : List Bool
  key : BitVec 2
  address : BitVec 2
  chipselect : Bool
  writeN : Bool
  writedata : BitVec 32

theorem one_lt_sixteen : 1 < 16 := by decide

/-- The place of `reset_in1`. -/
def resetIn1 : Fin 16 := ⟨1, one_lt_sixteen⟩

/-- The inputs of `rst_controller`: `reset_in0` is `por_reset`, `reset_in1` the request of the
    debugger, and the others are low. -/
def resetInputs (porReset debugResetRequest : Bool) : Inp where
  resetIn i := if i.val = 0 then porReset else if i = resetIn1 then debugResetRequest else false
  resetReqIn _ := false

/-- The values that they take between two edges: `por_reset` changes first. -/
def interval (s : State) (x : Input) : Interval :=
  resetInputs s.top.por.porOut (s.rst.inp.resetIn resetIn1) ::
    x.debugResetRequest.map (resetInputs s.top.por.porOut)

/-- The bus of the port, with `in_port`. -/
def State.bus (s : State) (x : Input) : KeyPio.Bus where
  address := x.address
  chipselect := x.chipselect
  writeN := x.writeN
  writedata := x.writedata
  inPort := BitVec.ofFnLE s.top.debouncedKey

/-- An edge of the clock. All components see what was before it, and `reset_out` changes after. -/
def State.edge (s : State) (x : Input) : State :=
  let rst := ((interval s x).foldl ResetController.System.change s.rst).edge
  let before := s.rst.state.rSyncRst
  let pio := KeyPio.step ⟨false, before, s.bus x⟩ ⟨true, before, s.bus x⟩ s.pio
  { top := s.top.edge x.key
    rst := rst
    pio := KeyPio.step ⟨true, before, s.bus x⟩ ⟨true, rst.state.rSyncRst, s.bus x⟩ pio }

/-- The state after every edge of the clock. -/
def run (s : State) (ω : ℕ → Input) : ℕ → State
  | 0 => s
  | t + 1 => (run s ω t).edge (ω (t + 1))

variable {s : State} {ω : ℕ → Input} {t : ℕ} {porOut : Bool} {counters : Debounce.State u1}

/-! ## The components -/

theorem top_run (s : State) (ω : ℕ → Input) (t : ℕ) :
    (run s ω t).top = Nios2leds.run s.top (fun t => (ω t).key) t := by
  induction t with
  | zero => rfl
  | succ t ih =>
    rw [Nios2leds.run, ← ih]
    rfl

/-- The intervals of the reset controller. -/
def resets (s : State) (ω : ℕ → Input) (t : ℕ) : Interval := interval (run s ω t) (ω (t + 1))

theorem rst_run (s : State) (ω : ℕ → Input) (t : ℕ) :
    (run s ω t).rst = ResetController.run s.rst (resets s ω) t := by
  induction t with
  | zero => rfl
  | succ t ih =>
    rw [ResetController.run, ← ih]
    rfl

theorem pio_edge (s : State) (x : Input) : (s.edge x).pio =
    if (s.rst.state.rSyncRst || (s.edge x).rst.state.rSyncRst) = true then KeyPio.resetState
    else KeyPio.clock (s.bus x) s.pio := by
  have hpio : (s.edge x).pio = KeyPio.step ⟨true, s.rst.state.rSyncRst, s.bus x⟩
      ⟨true, (s.edge x).rst.state.rSyncRst, s.bus x⟩
      (KeyPio.step ⟨false, s.rst.state.rSyncRst, s.bus x⟩
        ⟨true, s.rst.state.rSyncRst, s.bus x⟩ s.pio) := rfl
  rw [hpio]
  cases s.rst.state.rSyncRst <;> cases (s.edge x).rst.state.rSyncRst <;> rfl

/-! ## The reset of the host system -/

/-- The state when the power comes up. -/
def powerUp (porOut : Bool) (counters : Debounce.State u1)
    (rst : ResetController.State rstController) (pio : KeyPio.State) : State where
  top := Nios2leds.powerUp porOut counters
  rst := ⟨rst, resetInputs porOut false⟩
  pio := pio

/-- The debugger does not request a reset. -/
def NoDebugReset (ω : ℕ → Input) : Prop := ∀ t, ∀ b ∈ (ω t).debugResetRequest, b = false

variable {rst : ResetController.State rstController} {pio : KeyPio.State}

theorem mergedReset_resetInputs (porReset : Bool) :
    mergedReset (resetInputs porReset false) = porReset := by
  rw [mergedReset, Bool.eq_iff_iff, decide_eq_true_iff]
  constructor
  · rintro ⟨i, hi⟩
    by_contra hpor
    rw [resetInputs, Bool.eq_false_iff.2 hpor] at hi
    simp at hi
  · exact fun hpor => ⟨0, hpor⟩

theorem inp_foldl_change {l : Interval} {x : ResetController.System rstController} {inp : Inp}
    (hx : x.inp = inp) (hl : ∀ inp' ∈ l, inp' = inp) :
    (l.foldl ResetController.System.change x).inp = inp := by
  induction l generalizing x with
  | nil => exact hx
  | cons inp' l ih =>
    exact ih (hl inp' List.mem_cons_self) fun inp' h => hl inp' (List.mem_cons_of_mem _ h)

/-- Without a request of the debugger, `reset_in0` is what `por_out` has been since the edge
    before. -/
theorem interval_quiet {x : Input} (hlevel : s.rst.inp.resetIn resetIn1 = false)
    (hquiet : ∀ b ∈ x.debugResetRequest, b = false) :
    ∀ inp ∈ interval s x, inp = resetInputs s.top.por.porOut false := by
  intro inp hinp
  rcases List.mem_cons.1 hinp with rfl | hinp
  · rw [hlevel]
  · obtain ⟨b, hb, rfl⟩ := List.mem_map.1 hinp
    rw [hquiet b hb]

theorem inp_edge {x : Input} (hlevel : s.rst.inp.resetIn resetIn1 = false)
    (hquiet : ∀ b ∈ x.debugResetRequest, b = false) :
    (s.edge x).rst.inp = resetInputs s.top.por.porOut false := by
  have hall := interval_quiet hlevel hquiet
  rw [interval] at hall
  exact inp_foldl_change (x := s.rst.change _) (hall _ List.mem_cons_self)
    fun inp hinp => hall inp (List.mem_cons_of_mem _ hinp)

theorem resetIn_run (porOut : Bool) (counters : Debounce.State u1)
    (rst : ResetController.State rstController) (pio : KeyPio.State)
    (hquiet : NoDebugReset ω) (t : ℕ) :
    (run (powerUp porOut counters rst pio) ω t).rst.inp.resetIn resetIn1 = false := by
  induction t with
  | zero => rfl
  | succ t ih =>
    rw [run, inp_edge ih (hquiet (t + 1))]
    rfl

/-- A reset is requested until the power-on reset is over. -/
theorem requested_iff (hquiet : NoDebugReset ω) (ht : 1 ≤ t) :
    ResetController.Requested (powerUp porOut counters rst pio).rst
      (resets (powerUp porOut counters rst pio) ω) t = true ↔ t ≤ 11 := by
  have hpor : ∀ u, 1 ≤ u →
      ((run (powerUp porOut counters rst pio) ω u).top.por.porOut = true ↔ u < 11) := by
    intro u hu
    rw [top_run]
    exact porOut_run hu
  obtain ⟨u, rfl⟩ := Nat.exists_eq_add_of_le' ht
  have hany : (resets (powerUp porOut counters rst pio) ω (u + 1)).any mergedReset =
      (run (powerUp porOut counters rst pio) ω (u + 1)).top.por.porOut := by
    rw [Bool.eq_iff_iff, List.any_eq_true]
    have hall := interval_quiet (resetIn_run porOut counters rst pio hquiet (u + 1))
      (hquiet (u + 2))
    constructor
    · rintro ⟨inp, hinp, hreset⟩
      rwa [hall inp hinp, mergedReset_resetInputs] at hreset
    · intro h
      refine ⟨_, List.mem_cons_self, ?_⟩
      rw [hall _ List.mem_cons_self, mergedReset_resetInputs, h]
  rw [ResetController.Requested, hany, ← rst_run, run,
    inp_edge (resetIn_run porOut counters rst pio hquiet u) (hquiet (u + 1)),
    mergedReset_resetInputs, ← run, Bool.or_eq_true, hpor (u + 1) ht]
  rcases Nat.eq_zero_or_pos u with rfl | hu
  · exact iff_of_true (Or.inr (by decide)) (by decide)
  · rw [hpor u hu]
    omega

open ResetController in
/-- The reset of the host system after power-up, with `reset_req` one edge ahead at the end. -/
theorem hostReset_run (porOut : Bool) (counters : Debounce.State u1)
    (rst : ResetController.State rstController) (pio : KeyPio.State)
    (hquiet : NoDebugReset ω) :
    (∀ t, 9 < t → ((run (powerUp porOut counters rst pio) ω t).rst.state.rSyncRst = true ↔
      t ≤ 20)) ∧
    (run (powerUp porOut counters rst pio) ω 19).rst.state.rEarlyRst = true ∧
    (run (powerUp porOut counters rst pio) ω 20).rst.state.rEarlyRst = false := by
  have hout : ∀ t, 9 < t →
      (resetOut (powerUp porOut counters rst pio).rst
        (resets (powerUp porOut counters rst pio) ω) t = true ↔ t ≤ 20) := by
    intro t ht
    constructor
    · intro h
      obtain ⟨a, hrequest, -, hle⟩ := requested_of_resetOut fits_rstController h ht
      have hstartup : rstController.startup = 9 := rfl
      rw [requested_iff hquiet (by omega)] at hrequest
      omega
    · intro hle
      have ha : 1 ≤ t - 9 := by omega
      exact resetOut_of_requested fits_rstController ha ((requested_iff hquiet ha).2 (by omega))
        (by change t - 9 + 5 + 1 ≤ t; omega) (by change t ≤ t - 9 + 9; omega)
  have hfall := resetReq_of_fall (v := 20) fits_rstController rfl (by decide)
    ((hout 20 (by decide)).2 le_rfl)
    (Bool.eq_false_iff.2 fun h => absurd ((hout 21 (by decide)).1 h) (by decide))
  refine ⟨fun t ht => ?_, ?_, ?_⟩
  · rw [rst_run]
    exact hout t ht
  · rw [rst_run]
    exact hfall.1
  · rw [rst_run]
    exact hfall.2 20 (by decide) (by decide)

/-! ## The keys -/

/-- The port from the end of the reset on. -/
theorem pio_run (hquiet : NoDebugReset ω) (n : ℕ) :
    (run (powerUp porOut counters rst pio) ω (n + 21)).pio =
      KeyPio.run
        (fun n => (run (powerUp porOut counters rst pio) ω (n + 21)).bus (ω (n + 22))) n := by
  have hreset := (hostReset_run porOut counters rst pio hquiet).1
  induction n with
  | zero =>
    have hbefore := (hreset 20 (by decide)).2 le_rfl
    rw [Nat.zero_add, run, pio_edge, hbefore, Bool.true_or, if_pos rfl]
    rfl
  | succ n ih =>
    have hbefore : (run (powerUp porOut counters rst pio) ω (n + 21)).rst.state.rSyncRst = false :=
      Bool.eq_false_iff.2 fun h => absurd ((hreset _ (by omega)).1 h) (by omega)
    have hafter : (run (powerUp porOut counters rst pio) ω (n + 22)).rst.state.rSyncRst = false :=
      Bool.eq_false_iff.2 fun h => absurd ((hreset _ (by omega)).1 h) (by omega)
    have hplace : n + 1 + 21 = n + 21 + 1 := by omega
    rw [run] at hafter
    rw [hplace, run, pio_edge, hbefore, hafter, KeyPio.run, ← ih]
    rfl

/-- The key `i` has been low at the last 50000 edges, all after the power-on reset. -/
def Pressed (ω : ℕ → Input) (i : Fin 2) (t : ℕ) : Prop :=
  ∀ n < 50000, 11 < t - n ∧ (ω (t - n)).key.getLsb i = false

/-- A write to `edge_capture`. -/
def Cleared (x : Input) : Prop := x.chipselect = true ∧ x.writeN = false ∧ x.address = 3

theorem inPort_eq_false_iff (porOut : Bool) (counters : Debounce.State u1)
    (rst : ResetController.State rstController) (pio : KeyPio.State)
    (ht : 1 ≤ t) (x : Input) (i : Fin 2) :
    ((run (powerUp porOut counters rst pio) ω t).bus x).inPort.getLsb i = false ↔
      Pressed ω i t := by
  have hport : ((run (powerUp porOut counters rst pio) ω t).bus x).inPort.getLsb i =
      (run (powerUp porOut counters rst pio) ω t).top.debouncedKey i := by
    simp [State.bus]
  rw [hport, top_run]
  exact debouncedKey_eq_false_iff ht i

theorem edgeCaptureWrStrobe_bus (x : Input) :
    KeyPio.edgeCaptureWrStrobe (s.bus x) = false ↔ ¬Cleared x := by
  have hstrobe : KeyPio.edgeCaptureWrStrobe (s.bus x) =
      (x.chipselect && !x.writeN && x.address = 3) := rfl
  rw [hstrobe, Cleared, Bool.eq_false_iff, ne_eq, Bool.and_eq_true, Bool.and_eq_true,
    Bool.not_eq_true', decide_eq_true_iff, and_assoc]

/-- While the host system is in reset, nothing is captured. -/
theorem edgeCapture_of_reset (hquiet : NoDebugReset ω) (ht : 9 < t) (ht' : t ≤ 20) (i : Fin 2) :
    (run (powerUp porOut counters rst pio) ω t).pio.edgeCapture i = false := by
  have hreset := ((hostReset_run porOut counters rst pio hquiet).1 t ht).2 ht'
  obtain ⟨u, rfl⟩ := Nat.exists_eq_add_of_le' (Nat.one_le_of_lt ht)
  rw [run] at hreset
  rw [run, pio_edge, hreset, Bool.or_true, if_pos rfl]
  rfl

/-- After a press of 50000 edges, all after the power-on reset, the reset of the host system is
    over. -/
theorem Pressed.le {u : ℕ} {i : Fin 2} (h : Pressed ω i u) : 50011 ≤ u := by
  have hlate : 11 < u - 49999 := (h 49999 (by decide)).1
  omega

theorem captured_of_reset_over (hquiet : NoDebugReset ω) (ht : 21 ≤ t) (i : Fin 2) :
    (run (powerUp porOut counters rst pio) ω t).pio.edgeCapture i = true ↔
      ∃ u, u + 2 ≤ t ∧ Pressed ω i u ∧ ¬Pressed ω i (u - 1) ∧
        ∀ v, u + 2 ≤ v → v ≤ t → ¬Cleared (ω v) := by
  obtain ⟨n, rfl⟩ := Nat.exists_eq_add_of_le' ht
  rw [pio_run hquiet, KeyPio.edgeCapture_run_iff]
  constructor
  · rintro ⟨u, hu, hhigh, hlow, hnone⟩
    have hlate : u + 1 + 21 = u + 22 := by omega
    rw [hlate, inPort_eq_false_iff porOut counters rst pio (by omega)] at hlow
    refine ⟨u + 22, by omega, hlow, fun hpressed => ?_, fun v hv hv' => ?_⟩
    · have hearly := (inPort_eq_false_iff porOut counters rst pio (by omega) (ω (u + 22)) i).2
        hpressed
      exact Bool.false_ne_true (hearly.symm.trans hhigh)
    · obtain ⟨w, rfl⟩ := Nat.exists_eq_add_of_le' (by omega : 22 ≤ v)
      exact (edgeCaptureWrStrobe_bus _).1 (hnone w (by omega) (by omega))
  · rintro ⟨u, hu, hpressed, hbefore, hnone⟩
    have hlate := hpressed.le
    obtain ⟨w, rfl⟩ := Nat.exists_eq_add_of_le' (by omega : 22 ≤ u)
    refine ⟨w, by omega, ?_, ?_, fun v hv hv' => ?_⟩
    · have hhigh := (inPort_eq_false_iff porOut counters rst pio (by omega : 1 ≤ w + 21)
        (ω (w + 22)) i).not.2 hbefore
      rwa [Bool.not_eq_false] at hhigh
    · have hplace : w + 1 + 21 = w + 22 := by omega
      rw [hplace, inPort_eq_false_iff porOut counters rst pio (by omega)]
      exact hpressed
    · exact (edgeCaptureWrStrobe_bus _).2 (hnone _ (by omega) (by omega))

/-- From the edge 10 after power-up on, the software finds a bit of `edge_capture` set if and only
    if its key has become pressed, for 50000 edges in a row, at an edge `u` at least two edges ago,
    and there has been no write to the register from the edge `u + 2` on, at which the press is
    captured. -/
theorem key_captured_iff (porOut : Bool) (counters : Debounce.State u1)
    (rst : ResetController.State rstController) (pio : KeyPio.State) {ω : ℕ → Input}
    (hquiet : NoDebugReset ω) {t : ℕ} (ht : 9 < t) (i : Fin 2) :
    (run (powerUp porOut counters rst pio) ω t).pio.edgeCapture i = true ↔
      ∃ u, u + 2 ≤ t ∧ Pressed ω i u ∧ ¬Pressed ω i (u - 1) ∧
        ∀ v, u + 2 ≤ v → v ≤ t → ¬Cleared (ω v) := by
  rcases Nat.lt_or_ge 20 t with hover | hreset
  · exact captured_of_reset_over hquiet hover i
  · -- Neither has the port captured anything, nor can a key have been pressed for so long.
    rw [edgeCapture_of_reset hquiet ht hreset]
    refine iff_of_false Bool.false_ne_true fun ⟨u, hu, hpressed, _⟩ => ?_
    have hlate := hpressed.le
    omega

/-- Both keys are held from power-up on, and the bus is not used. -/
def heldKeys : Input := ⟨[], 0#2, 0#2, false, true, 0#32⟩

theorem key_captured_iff_heldKeys :
    (run (powerUp false (fun _ => 0#16) ResetController.atRest.state KeyPio.resetState)
      (fun _ => heldKeys) 50013).pio.edgeCapture 0 = true := by
  have hlow : heldKeys.key.getLsb 0 = false := by decide
  refine (key_captured_iff false (fun _ => 0#16) ResetController.atRest.state
    KeyPio.resetState (fun _ b hb => absurd hb List.not_mem_nil) (by decide) 0).2 ?_
  refine ⟨50011, le_rfl, fun n hn => ⟨by omega, hlow⟩, fun h => ?_, fun v _ _ h => ?_⟩
  · exact absurd (h 49999 (by decide)).1 (by decide)
  · exact Bool.false_ne_true h.1

end KeyPath

end EmbeddedSystems.Nios2leds
