import EmbeddedSystems.Library.Clocked
import EmbeddedSystems.Library.ShiftChain

/-!
# The reset controller

The modules `altera_reset_synchronizer` and `altera_reset_controller`, as generated for
`RESET_REQUEST_PRESENT = 1`, `ADAPT_RESET_REQUEST = 0` and
`OUTPUT_RESET_SYNC_EDGES = "deassert"`. The inputs may change at any time between two edges
of the clock (`run`), so that a pulse need not be seen by an edge.

* Every pulse on a reset input, however short, resets the system after
  `RESET_REQ_WAIT_TIME + 5` edges and for at least `MIN_RST_ASSERTION_TIME` edges, and there
  is no reset without one (`reset_of_request`).
* The output `reset_req` goes ahead of `reset_out`, by `RESET_REQ_WAIT_TIME` edges when it
  rises and by `RESET_REQ_EARLY_DSRT_TIME` edges when it falls (`request_ahead_of_reset`).
  This is for the instances without a `USE_RESET_REQUEST_IN*`: a `reset_req_in*` may keep
  `reset_req` active when `reset_out` falls.

Registers hold anything at first; it has left them after `Params.startup` edges.
-/

namespace EmbeddedSystems.HostSystem.ResetController

open Clocked ShiftChain

/-! ## Parameters -/

/-- The parameters of `altera_reset_controller`. -/
structure Params where
  useResetRequestIn : Fin 16 → Bool
  syncDepth : ℕ
  resetReqWaitTime : ℕ
  minRstAssertionTime : ℕ
  resetReqEarlyDsrtTime : ℕ

def minMetastable : ℕ := 3

namespace Params

variable (P : Params)

def rstreqAsrtSyncTap : ℕ := minMetastable + P.resetReqWaitTime

def larger : ℕ :=
  if P.resetReqWaitTime > P.resetReqEarlyDsrtTime then P.resetReqWaitTime
  else P.resetReqEarlyDsrtTime

def assertionChainLength : ℕ :=
  if minMetastable > P.larger then P.minRstAssertionTime + 1
  else if P.minRstAssertionTime > P.larger then
    P.minRstAssertionTime + (P.larger - minMetastable + 1) + 1
  else
    P.minRstAssertionTime + P.resetReqEarlyDsrtTime + P.resetReqWaitTime - minMetastable + 2

def resetReqDrstTap : ℕ := P.resetReqEarlyDsrtTime + 1

/-- Edges until the first contents of the registers have left them. -/
def startup : ℕ := P.syncDepth + P.assertionChainLength + 3

/-- The chain of the assertion is long enough for the request. -/
def Fits : Prop := P.resetReqWaitTime + P.resetReqEarlyDsrtTime + 2 ≤ P.assertionChainLength

end Params

variable {P : Params}

/-! ## The synchronizer -/

/-- The registers of `altera_reset_synchronizer`. -/
structure Synchronizer (depth : ℕ) where
  intChain : BitVec depth
  intChainOut : Bool

variable {depth : ℕ}

/-- `{DEPTH{1'b1}}` and `1'b1`. -/
def Synchronizer.ones : Synchronizer depth := ⟨BitVec.allOnes depth, true⟩

/-- The block with `ASYNC_RESET = 1`, at an edge of the clock without reset. -/
def Synchronizer.shift (s : Synchronizer depth) : Synchronizer depth where
  intChain := s.intChain >>> 1
  intChainOut := s.intChain.getLsbD 0

/-- The block with `ASYNC_RESET = 0`, at an edge of the clock. -/
def Synchronizer.sample (resetIn : Bool) (s : Synchronizer depth) : Synchronizer depth where
  intChain := BitVec.ofFnLE fun i =>
    if i.val + 1 < depth then s.intChain.getLsbD (i.val + 1) else resetIn
  intChainOut := s.intChain.getLsbD 0

/-! ## The controller -/

/-- The inputs `reset_in*` and `reset_req_in*`. -/
structure Inp where
  resetIn : Fin 16 → Bool
  resetReqIn : Fin 16 → Bool

def mergedReset (inp : Inp) : Bool := decide (∃ i, inp.resetIn i = true)

def mergedResetReqIn (P : Params) (inp : Inp) : Bool :=
  decide (∃ i, (if P.useResetRequestIn i = true then inp.resetReqIn i else false) = true)

/-- The registers of `altera_reset_controller`, with those of `alt_rst_sync_uq1` and
    `alt_rst_req_sync_uq1`. -/
structure State (P : Params) where
  rstSync : Synchronizer P.syncDepth
  rstReqSync : Synchronizer P.syncDepth
  intChain : BitVec (P.rstreqAsrtSyncTap + 1)
  rSyncRstChain : BitVec P.assertionChainLength
  rSyncRst : Bool
  rEarlyRst : Bool

/-- The new `r_sync_rst`, by `{intChain[RSTREQ_ASRT_SYNC_TAP], r_sync_rst_chain[1], r_sync_rst}`. -/
def syncRst : Bool → Bool → Bool → Bool
  | false, false, false => false -- Not reset
  | false, false, true => false
  | false, true, false => false
  | false, true, true => true
  | true, false, false => true
  | true, false, true => true
  | true, true, false => true
  | true, true, true => true -- In Reset

/-- The new `r_early_rst`, by
    `{r_sync_rst_chain[1], r_sync_rst_chain[RESET_REQ_DRST_TAP] | reset_req_pre}`. -/
def earlyRst : Bool → Bool → Bool
  | false, false => false -- Not reset
  | false, true => true -- Coming out of reset
  | true, false => false -- Spurious reset
  | true, true => true -- Held in reset

/-- The blocks `always @(posedge clk)`. -/
def clock (inp : Inp) (s : State P) : State P where
  rstSync := s.rstSync
  rstReqSync := s.rstReqSync.sample (mergedResetReqIn P inp)
  intChain := delay s.rstSync.intChainOut s.intChain
  rSyncRstChain := stretch (s.intChain.getLsbD (minMetastable - 1)) s.rSyncRstChain
  rSyncRst := syncRst (s.intChain.getLsbD P.rstreqAsrtSyncTap) (s.rSyncRstChain.getLsbD 1)
    s.rSyncRst
  rEarlyRst := earlyRst (s.rSyncRstChain.getLsbD 1)
    (s.rSyncRstChain.getLsbD P.resetReqDrstTap || s.rstReqSync.intChainOut)

/-- All blocks, at an instant at which the clock or an input changes. -/
def step (old new : Pins Inp) (s : State P) : State P :=
  { if rises old.clk new.clk = true then clock new.inp s else s with
    rstSync :=
      verilogAlways State.rstSync Synchronizer.ones (fun _ s => s.rstSync.shift) old new s }

/-- The pins, at a level of the clock. -/
def pins (clk : Bool) (inp : Inp) : Pins Inp := ⟨clk, mergedReset inp, inp⟩

/-! ## Runs -/

/-- The registers, and the inputs at the moment. -/
structure System (P : Params) where
  state : State P
  inp : Inp

/-- The inputs change. -/
def System.change (x : System P) (inp : Inp) : System P where
  state := step (pins false x.inp) (pins false inp) x.state
  inp := inp

/-- The clock rises. -/
def System.edge (x : System P) : System P where
  state := step (pins false x.inp) (pins true x.inp) x.state
  inp := x.inp

/-- The values that the inputs take between two edges, in turn. -/
abbrev Interval := List Inp

/-- The system when the edge `t` has passed. -/
def run (x : System P) (ω : ℕ → Interval) : ℕ → System P
  | 0 => x
  | t + 1 => ((ω t).foldl System.change (run x ω t)).edge

/-- The system before the edge `t + 1`. -/
def settled (x : System P) (ω : ℕ → Interval) (t : ℕ) : System P :=
  (ω t).foldl System.change (run x ω t)

/-- A reset is requested at some time between the edges `t` and `t + 1`. -/
def Requested (x : System P) (ω : ℕ → Interval) (t : ℕ) : Bool :=
  mergedReset (run x ω t).inp || (ω t).any mergedReset

/-- The outputs, after the edge `t`. -/
def resetOut (x : System P) (ω : ℕ → Interval) (t : ℕ) : Bool := (run x ω t).state.rSyncRst

def resetReq (x : System P) (ω : ℕ → Interval) (t : ℕ) : Bool := (run x ω t).state.rEarlyRst

/-! ## An edge, and what comes before it -/

theorem syncRst_eq (a b c : Bool) : syncRst a b c = (a || b && c) := by
  cases a <;> cases b <;> cases c <;> rfl

theorem earlyRst_eq (a b : Bool) : earlyRst a b = b := by cases a <;> cases b <;> rfl

/-- The synchronizer holds ones while a reset is requested. -/
def Held (x : System P) : Prop := mergedReset x.inp = true → x.state.rstSync = Synchronizer.ones

variable {x : System P} {ω : ℕ → Interval} {t : ℕ}

theorem change_state (x : System P) (inp : Inp) :
    (x.change inp).state = { x.state with
      rstSync := if rises (mergedReset x.inp) (mergedReset inp) = true then Synchronizer.ones
        else x.state.rstSync } := by
  rw [System.change, step, verilogAlways]
  cases hold : mergedReset x.inp <;> cases hnew : mergedReset inp <;>
    simp [pins, rises, hold, hnew]

theorem edge_state (x : System P) :
    x.edge.state = { clock x.inp x.state with
      rstSync := if mergedReset x.inp = true then Synchronizer.ones
        else x.state.rstSync.shift } := by
  rw [System.edge, step, verilogAlways]
  cases hreset : mergedReset x.inp <;> simp [pins, rises, hreset]

theorem held_edge (x : System P) : Held x.edge := by
  intro h
  rw [edge_state]
  exact if_pos h

theorem foldl_change_frame (l : Interval) (x : System P) :
    ∃ sync, (l.foldl System.change x).state = { x.state with rstSync := sync } := by
  induction l generalizing x with
  | nil => exact ⟨_, rfl⟩
  | cons inp l ih =>
    obtain ⟨sync, hsync⟩ := ih (x.change inp)
    exact ⟨sync, by rw [List.foldl_cons, hsync, change_state]⟩

/-- A pulse fills the synchronizer, also when it ends before the edge. -/
theorem foldl_change_rstSync (l : Interval) (h : Held x) :
    (l.foldl System.change x).state.rstSync =
      if (mergedReset x.inp || l.any mergedReset) = true then Synchronizer.ones
      else x.state.rstSync := by
  induction l generalizing x with
  | nil =>
    rw [List.any_nil, Bool.or_false]
    split_ifs with hreset
    · exact h hreset
    · rfl
  | cons inp l ih =>
    have hinp : (x.change inp).inp = inp := rfl
    have hstate := congrArg State.rstSync (change_state x inp)
    have hheld : Held (x.change inp) := by
      intro hnew
      rw [hinp] at hnew
      rw [hstate, hnew]
      rcases Bool.eq_false_or_eq_true (mergedReset x.inp) with hold | hold
      · rw [hold, h hold, ite_self]
      · rw [hold]
        rfl
    rw [List.foldl_cons, ih hheld, hinp, hstate, List.any_cons]
    rcases Bool.eq_false_or_eq_true (mergedReset x.inp) with hold | hold
    · simp [h hold]
    · cases hnew : mergedReset inp <;> simp [hold, rises]

theorem run_succ (t : ℕ) : run x ω (t + 1) = (settled x ω t).edge := rfl

/-- The registers but for those of the synchronizer of the reset. -/
theorem run_succ_state (x : System P) (ω : ℕ → Interval) (t : ℕ) :
    (run x ω (t + 1)).state.rstReqSync = (run x ω t).state.rstReqSync.sample
        (mergedResetReqIn P (settled x ω t).inp) ∧
    (run x ω (t + 1)).state.intChain = delay (settled x ω t).state.rstSync.intChainOut
        (run x ω t).state.intChain ∧
    (run x ω (t + 1)).state.rSyncRstChain = stretch ((run x ω t).state.intChain.getLsbD 2)
        (run x ω t).state.rSyncRstChain ∧
    resetOut x ω (t + 1) = ((run x ω t).state.intChain.getLsbD P.rstreqAsrtSyncTap ||
        (run x ω t).state.rSyncRstChain.getLsbD 1 && resetOut x ω t) ∧
    resetReq x ω (t + 1) = ((run x ω t).state.rSyncRstChain.getLsbD P.resetReqDrstTap ||
        (run x ω t).state.rstReqSync.intChainOut) := by
  obtain ⟨sync, hsync⟩ := foldl_change_frame (ω t) (run x ω t)
  have hsettled : (settled x ω t).state = { (run x ω t).state with rstSync := sync } := hsync
  rw [resetOut, resetReq, run_succ, edge_state, clock, syncRst_eq, earlyRst_eq, hsettled]
  exact ⟨rfl, rfl, rfl, rfl, rfl⟩

/-! ## The synchronizers -/

/-- The chain and the output, as one register. -/
def Synchronizer.bits (s : Synchronizer depth) : BitVec (depth + 1) :=
  s.intChain.concat s.intChainOut

theorem bits_ones : (Synchronizer.ones : Synchronizer depth).bits = BitVec.allOnes (depth + 1) := by
  apply BitVec.eq_of_getLsbD_eq
  intro j hj
  rw [Synchronizer.bits, BitVec.getLsbD_concat, BitVec.getLsbD_allOnes, decide_eq_true hj]
  rcases Nat.eq_zero_or_pos j with rfl | hpos
  · rfl
  · rw [if_neg hpos.ne', Synchronizer.ones, BitVec.getLsbD_allOnes, decide_eq_true (by omega)]

theorem bits_shift (s : Synchronizer depth) : s.shift.bits = s.bits >>> 1 := by
  apply BitVec.eq_of_getLsbD_eq
  intro j hj
  rw [BitVec.getLsbD_ushiftRight, Synchronizer.bits, Synchronizer.bits, BitVec.getLsbD_concat,
    BitVec.getLsbD_concat, Nat.add_comm 1 j, if_neg j.succ_ne_zero, Nat.add_sub_cancel]
  cases j with
  | zero => rfl
  | succ j => rw [if_neg j.succ_ne_zero, Synchronizer.shift, BitVec.getLsbD_ushiftRight,
      Nat.add_sub_cancel, Nat.add_comm 1 j]

theorem sample_false (s : Synchronizer depth) : s.sample false = s.shift := by
  rw [Synchronizer.sample, Synchronizer.shift]
  congr 1
  apply BitVec.eq_of_getLsbD_eq
  intro j hj
  rw [BitVec.getLsbD_ofFnLE, dif_pos hj, BitVec.getLsbD_ushiftRight, Nat.add_comm 1 j]
  split_ifs with hlt
  · rfl
  · rw [BitVec.getLsbD_of_ge _ _ (Nat.not_lt.1 hlt)]

theorem bits_zero (s : Synchronizer depth) : s.bits.getLsbD 0 = s.intChainOut := by
  rw [Synchronizer.bits, BitVec.getLsbD_concat, if_pos rfl]

/-- The synchronizer stretches the pulses. -/
theorem bits_settled (x : System P) (ω : ℕ → Interval) (t : ℕ) :
    (settled x ω (t + 1)).state.rstSync.bits =
      stretch (Requested x ω (t + 1)) (settled x ω t).state.rstSync.bits := by
  have hheld : Held (run x ω (t + 1)) := held_edge _
  rw [settled, foldl_change_rstSync _ hheld, stretch, Requested]
  split_ifs with hrequest
  · exact bits_ones
  · have hreset : ¬mergedReset (settled x ω t).inp = true := fun h => hrequest (by
      rw [Bool.or_eq_true]
      exact Or.inl h)
    rw [run_succ, edge_state, if_neg hreset, bits_shift]

/-- `reset_out_pre`, before the edge `t + 1`. -/
def resetOutPre (x : System P) (ω : ℕ → Interval) (t : ℕ) : Bool :=
  (settled x ω t).state.rstSync.intChainOut

theorem resetOutPre_iff (x : System P) (ω : ℕ → Interval) (t : ℕ) :
    resetOutPre x ω t = true ↔
      Recent (fun u => Requested x ω (u + 1) = true) (P.syncDepth + 1) t ∨
        (settled x ω 0).state.rstSync.bits.getLsbD t = true := by
  have hrun := getLsbD_stretch_run (c := fun t => (settled x ω t).state.rstSync.bits)
    (fun t => bits_settled x ω t) (Nat.zero_le _) t
  rwa [bits_zero, Nat.sub_zero, Nat.zero_add] at hrun

variable {a v w : ℕ}

theorem resetOutPre_of_requested (ha : 1 ≤ a) (h : Requested x ω a = true) (hv : a ≤ v)
    (hv' : v ≤ a + P.syncDepth) : resetOutPre x ω v = true := by
  obtain ⟨u, rfl⟩ := Nat.exists_eq_add_of_le' ha
  exact (resetOutPre_iff x ω v).2 (Or.inl ⟨u, hv, by omega, h⟩)

/-- The first contents of the synchronizer count as a request before the first edge. -/
theorem requested_of_resetOutPre (h : resetOutPre x ω v = true) :
    ∃ a ≤ v, v ≤ a + P.syncDepth ∧ (a = 0 ∨ Requested x ω a = true) := by
  rcases (resetOutPre_iff x ω v).1 h with ⟨u, hu, hle, hrequest⟩ | hjunk
  · exact ⟨u + 1, hu, by omega, Or.inr hrequest⟩
  · refine ⟨0, v.zero_le, ?_, Or.inl rfl⟩
    by_contra hlt
    rw [BitVec.getLsbD_of_ge _ _ (by omega)] at hjunk
    exact Bool.false_ne_true hjunk

/-- Without a parameter `USE_RESET_REQUEST_IN*`, nothing is requested that way. -/
theorem rstReqSync_run (hreq : P.useResetRequestIn = fun _ => false) (hv : P.syncDepth < v) :
    (run x ω v).state.rstReqSync.intChainOut = false := by
  have hmerged : ∀ inp, mergedResetReqIn P inp = false := by
    intro inp
    simp [mergedResetReqIn, hreq]
  have hrun := getLsbD_stretch_run (c := fun t => (run x ω t).state.rstReqSync.bits)
    (a := fun _ => false) (j := 0) (fun t => by
      rw [(run_succ_state x ω t).1, hmerged, sample_false, bits_shift]
      rfl) (Nat.zero_le _) v
  rw [bits_zero, Nat.zero_add, BitVec.getLsbD_of_ge _ _ hv] at hrun
  rw [Bool.eq_false_iff]
  intro hout
  rcases hrun.1 hout with ⟨_, _, _, hfalse⟩ | hfalse
  · exact Bool.false_ne_true hfalse
  · exact Bool.false_ne_true hfalse

/-! ## The chains -/

/-- The reset behind the registers for the metastability. -/
def sampled (x : System P) (ω : ℕ → Interval) (t : ℕ) : Bool :=
  (run x ω t).state.intChain.getLsbD 2

theorem intChain_run {j : ℕ} (hj : j ≤ P.rstreqAsrtSyncTap) (t : ℕ) :
    (run x ω (t + 1 + j)).state.intChain.getLsbD j = resetOutPre x ω t :=
  getLsbD_delay_run (c := fun t => (run x ω t).state.intChain)
    (fun t => (run_succ_state x ω t).2.1) (Nat.lt_succ_of_le hj) t

theorem sampled_add_three (t : ℕ) : sampled x ω (t + 3) = resetOutPre x ω t := by
  have htap : 2 ≤ P.rstreqAsrtSyncTap := by
    rw [Params.rstreqAsrtSyncTap, minMetastable]
    omega
  have hplace : t + 3 = t + 1 + 2 := rfl
  rw [sampled, hplace, intChain_run htap]

theorem rSyncRstChain_iff {j : ℕ} (hj : j ≤ P.assertionChainLength) (t : ℕ) :
    (run x ω t).state.rSyncRstChain.getLsbD j = true ↔
      Recent (fun u => sampled x ω u = true) (P.assertionChainLength - j) t ∨
        (run x ω 0).state.rSyncRstChain.getLsbD (j + t) = true :=
  getLsbD_stretch_run (c := fun t => (run x ω t).state.rSyncRstChain)
    (fun t => (run_succ_state x ω t).2.2.1) hj t

theorem rSyncRstChain_late {j : ℕ} (hj : j ≤ P.assertionChainLength)
    (ht : P.assertionChainLength ≤ j + t) :
    (run x ω t).state.rSyncRstChain.getLsbD j = true ↔
      Recent (fun u => sampled x ω u = true) (P.assertionChainLength - j) t :=
  getLsbD_stretch_late (c := fun t => (run x ω t).state.rSyncRstChain)
    (fun t => (run_succ_state x ω t).2.2.1) hj ht

/-- `reset_out` rises when the request reaches the tap, and falls when the chain is empty. -/
theorem resetOut_succ_iff (x : System P) (ω : ℕ → Interval) (v : ℕ) :
    resetOut x ω (v + 1) = true ↔
      (run x ω v).state.intChain.getLsbD P.rstreqAsrtSyncTap = true ∨
        (run x ω v).state.rSyncRstChain.getLsbD 1 = true ∧ resetOut x ω v = true := by
  rw [(run_succ_state x ω v).2.2.2.1, Bool.or_eq_true, Bool.and_eq_true]

/-! ## A reset, and its request -/

theorem Params.Fits.le (h : P.Fits) :
    P.resetReqWaitTime + 2 ≤ P.assertionChainLength ∧
      P.resetReqDrstTap + 1 ≤ P.assertionChainLength := by
  rw [Params.Fits] at h
  rw [Params.resetReqDrstTap]
  omega

theorem resetOut_of_requested (hfits : P.Fits) (ha : 1 ≤ a) (h : Requested x ω a = true)
    (hv : a + 5 + P.resetReqWaitTime ≤ v) (hv' : v ≤ a + P.startup) :
    resetOut x ω v = true := by
  have hlength := hfits.le.1
  rw [Params.startup] at hv'
  induction v, hv using Nat.le_induction with
  | base =>
    have htap : a + 1 + P.rstreqAsrtSyncTap = a + 4 + P.resetReqWaitTime := by
      rw [Params.rstreqAsrtSyncTap, minMetastable]
      omega
    have hbefore : a + 5 + P.resetReqWaitTime = a + 1 + P.rstreqAsrtSyncTap + 1 := by omega
    rw [hbefore, resetOut_succ_iff, intChain_run le_rfl]
    exact Or.inl (resetOutPre_of_requested ha h le_rfl (Nat.le_add_right _ _))
  | succ v hv ih =>
    -- The last of the ones that the request has left in the synchronizer, up to now.
    obtain ⟨d, hd, hsome⟩ : ∃ d ≤ P.syncDepth, a + d + 3 < v ∧
        v ≤ a + d + 3 + (P.assertionChainLength - 1) := by
      rcases Nat.le_total v (a + P.syncDepth + 4) with hle | hle
      · exact ⟨v - (a + 4), by omega, by omega, by omega⟩
      · rcases Nat.eq_or_lt_of_le hle with heq | hlt
        · exact ⟨P.syncDepth, le_rfl, by omega, by omega⟩
        · exact ⟨P.syncDepth, le_rfl, by omega, by omega⟩
    rw [resetOut_succ_iff, rSyncRstChain_iff (by omega)]
    refine Or.inr ⟨Or.inl ⟨a + d + 3, hsome.1, hsome.2, ?_⟩, ih (by omega)⟩
    exact (sampled_add_three _).trans
      (resetOutPre_of_requested ha h (Nat.le_add_right _ _) (by omega))

theorem requested_of_resetOut (hfits : P.Fits) (h : resetOut x ω v = true)
    (hv : P.startup < v) :
    ∃ a, Requested x ω a = true ∧ a + 5 ≤ v ∧ v ≤ a + P.startup := by
  have hlength := hfits.le.1
  obtain ⟨v, rfl⟩ := Nat.exists_eq_add_of_le' (Nat.one_le_of_lt hv)
  have htap : P.rstreqAsrtSyncTap = 3 + P.resetReqWaitTime := rfl
  rw [Params.startup] at hv ⊢
  have hpast : ∀ t, resetOutPre x ω t = true → t + 5 ≤ v + 1 →
      v + 1 ≤ t + P.assertionChainLength + 3 →
      ∃ a, Requested x ω a = true ∧ a + 5 ≤ v + 1 ∧
        v + 1 ≤ a + (P.syncDepth + P.assertionChainLength + 3) := by
    intro t hpre hfrom hto
    obtain ⟨a, hat, hta, rfl | hrequest⟩ := requested_of_resetOutPre hpre
    · omega
    · exact ⟨a, hrequest, by omega, by omega⟩
  rcases (resetOut_succ_iff x ω v).1 h with hint | ⟨hchain, -⟩
  · obtain ⟨t, ht⟩ : ∃ t, v = t + 1 + P.rstreqAsrtSyncTap :=
      ⟨v - (1 + P.rstreqAsrtSyncTap), by omega⟩
    rw [ht, intChain_run le_rfl] at hint
    exact hpast t hint (by omega) (by omega)
  · rw [rSyncRstChain_late (by omega) (by omega)] at hchain
    obtain ⟨u, huv, hvu, hsampled⟩ := hchain
    obtain ⟨t, rfl⟩ : ∃ t, u = t + 3 := ⟨u - 3, by omega⟩
    rw [sampled_add_three] at hsampled
    exact hpast t hsampled (by omega) (by omega)

theorem Params.startup_le (P : Params) (hdepth : 2 ≤ P.syncDepth) :
    P.minRstAssertionTime + P.resetReqWaitTime + 4 ≤ P.startup := by
  have hlarger : P.resetReqWaitTime ≤ P.larger ∧ P.resetReqEarlyDsrtTime ≤ P.larger := by
    rw [Params.larger]
    split_ifs <;> omega
  have hthree : minMetastable = 3 := rfl
  rw [Params.startup, Params.assertionChainLength]
  split_ifs <;> omega

theorem resetReq_succ_iff (x : System P) (ω : ℕ → Interval) (v : ℕ) :
    resetReq x ω (v + 1) = true ↔
      (run x ω v).state.rSyncRstChain.getLsbD P.resetReqDrstTap = true ∨
        (run x ω v).state.rstReqSync.intChainOut = true := by
  rw [(run_succ_state x ω v).2.2.2.2, Bool.or_eq_true]

theorem resetReq_of_rise (hfits : P.Fits) (hv : P.rstreqAsrtSyncTap < v)
    (hbefore : resetOut x ω v = false) (hafter : resetOut x ω (v + 1) = true)
    (hw : v + 1 ≤ w + P.resetReqWaitTime) (hw' : w ≤ v + 1) : resetReq x ω w = true := by
  have htap : P.rstreqAsrtSyncTap = 3 + P.resetReqWaitTime := rfl
  have hdrst : P.resetReqDrstTap = P.resetReqEarlyDsrtTime + 1 := rfl
  rw [Params.Fits] at hfits
  obtain ⟨t, rfl⟩ : ∃ t, v = t + 1 + P.rstreqAsrtSyncTap :=
    ⟨v - (1 + P.rstreqAsrtSyncTap), by omega⟩
  have hint := (resetOut_succ_iff x ω _).1 hafter
  rw [hbefore, intChain_run le_rfl, ← sampled_add_three,
    or_iff_left fun h => Bool.false_ne_true h.2] at hint
  obtain ⟨w, rfl⟩ := Nat.exists_eq_add_of_le' (by omega : 1 ≤ w)
  rw [resetReq_succ_iff, rSyncRstChain_iff (by omega)]
  exact Or.inl (Or.inl ⟨t + 3, by omega, by omega, hint⟩)

/-- `reset_out` falls when the last one of the request is at the end of the chain. -/
theorem sampled_of_fall (hfits : P.Fits) (hv : P.startup < v) (hbefore : resetOut x ω v = true)
    (hafter : resetOut x ω (v + 1) = false) :
    sampled x ω (v - P.assertionChainLength) = true ∧
      ∀ u, v - P.assertionChainLength < u → u < v → sampled x ω u = false := by
  have hlength := hfits.le.1
  have htap : P.rstreqAsrtSyncTap = 3 + P.resetReqWaitTime := rfl
  rw [Params.startup] at hv
  have hnone : ∀ u, v - P.assertionChainLength < u → u < v → sampled x ω u = false := by
    intro u hu huv
    rw [Bool.eq_false_iff]
    intro hsampled
    rw [Bool.eq_false_iff, ne_eq, resetOut_succ_iff, not_or, rSyncRstChain_iff (by omega)] at hafter
    exact hafter.2 ⟨Or.inl ⟨u, huv, by omega, hsampled⟩, hbefore⟩
  refine ⟨?_, hnone⟩
  -- What has kept the reset before is out of reach now.
  have hlast : ∀ u, u + 1 < v → v ≤ u + P.assertionChainLength → sampled x ω u = true →
      sampled x ω (v - P.assertionChainLength) = true := by
    intro u huv hvu hsampled
    rcases Nat.eq_or_lt_of_le (Nat.sub_le_of_le_add hvu) with heq | hlt
    · rwa [heq]
    · rw [hnone u hlt (by omega)] at hsampled
      exact absurd hsampled Bool.false_ne_true
  obtain ⟨v, rfl⟩ := Nat.exists_eq_add_of_le' (by omega : 1 ≤ v)
  rcases (resetOut_succ_iff x ω v).1 hbefore with hint | ⟨hchain, -⟩
  · obtain ⟨t, rfl⟩ : ∃ t, v = t + 1 + P.rstreqAsrtSyncTap :=
      ⟨v - (1 + P.rstreqAsrtSyncTap), by omega⟩
    rw [intChain_run le_rfl, ← sampled_add_three] at hint
    exact hlast _ (by omega) (by omega) hint
  · rw [rSyncRstChain_late (by omega) (by omega)] at hchain
    obtain ⟨u, huv, hvu, hsampled⟩ := hchain
    exact hlast u (by omega) (by omega) hsampled

theorem resetReq_of_fall (hfits : P.Fits) (hreq : P.useResetRequestIn = fun _ => false)
    (hv : P.startup < v) (hbefore : resetOut x ω v = true)
    (hafter : resetOut x ω (v + 1) = false) :
    resetReq x ω (v - P.resetReqEarlyDsrtTime) = true ∧
      ∀ w, v + 1 ≤ w + P.resetReqEarlyDsrtTime → w ≤ v + 1 → resetReq x ω w = false := by
  obtain ⟨hlast, hnone⟩ := sampled_of_fall hfits hv hbefore hafter
  have hdrst : P.resetReqDrstTap = P.resetReqEarlyDsrtTime + 1 := rfl
  rw [Params.startup] at hv
  rw [Params.Fits] at hfits
  constructor
  · obtain ⟨w, hw⟩ := Nat.exists_eq_add_of_le' (by omega : 1 ≤ v - P.resetReqEarlyDsrtTime)
    rw [hw, resetReq_succ_iff, rSyncRstChain_iff (by omega)]
    exact Or.inl (Or.inl ⟨_, by omega, by omega, hlast⟩)
  · intro w hw hw'
    obtain ⟨w, rfl⟩ := Nat.exists_eq_add_of_le' (by omega : 1 ≤ w)
    rw [Bool.eq_false_iff, ne_eq, resetReq_succ_iff, rSyncRstChain_late (by omega) (by omega),
      rstReqSync_run hreq (by omega)]
    rintro (⟨u, huw, hwu, hsampled⟩ | hout)
    · rw [hnone u (by omega) (by omega)] at hsampled
      exact Bool.false_ne_true hsampled
    · exact Bool.false_ne_true hout

/-! ## The outputs -/

/-- Every pulse on a reset input resets the system for at least `MIN_RST_ASSERTION_TIME` edges,
    and nothing else does, once the first contents of the registers have left them. -/
theorem reset_of_request (hfits : P.Fits) (hdepth : 2 ≤ P.syncDepth) (x : System P)
    (ω : ℕ → Interval) :
    (∀ a, 1 ≤ a → Requested x ω a = true →
      ∀ v, a + 5 + P.resetReqWaitTime ≤ v → v ≤ a + P.startup → resetOut x ω v = true) ∧
    (P.minRstAssertionTime + (5 + P.resetReqWaitTime) ≤ P.startup + 1) ∧
    ∀ v, P.startup < v → resetOut x ω v = true →
      ∃ a, Requested x ω a = true ∧ a + 5 ≤ v ∧ v ≤ a + P.startup := by
  refine ⟨fun a ha h v hv hv' => resetOut_of_requested hfits ha h hv hv', ?_,
    fun v hv h => requested_of_resetOut hfits h hv⟩
  have hstartup := P.startup_le hdepth
  omega

/-! ## The instance of the host system -/

/-- The generics of `rst_controller`. -/
def rstController : Params where
  useResetRequestIn _ := false
  syncDepth := 2
  resetReqWaitTime := 1
  minRstAssertionTime := 3
  resetReqEarlyDsrtTime := 1

theorem fits_rstController : rstController.Fits := by
  rw [Params.Fits]
  decide

def noReset : Inp := ⟨fun _ => false, fun _ => false⟩

/-- The registers while nothing is reset. -/
def atRest : System rstController where
  state := ⟨⟨0#2, false⟩, ⟨0#2, false⟩, 0#5, 0#4, false, false⟩
  inp := noReset

/-- Two pulses on `reset_in1` between the same two edges. -/
def pulses (t : ℕ) : Interval :=
  if t = 20 then
    [⟨fun i => i.val = 1, fun _ => false⟩, noReset, ⟨fun i => i.val = 1, fun _ => false⟩, noReset]
  else []

theorem reset_of_request_pulses :
    (∀ a, 1 ≤ a → Requested atRest pulses a = true →
      ∀ v, a + 5 + 1 ≤ v → v ≤ a + rstController.startup → resetOut atRest pulses v = true) ∧
    (3 + (5 + 1) ≤ rstController.startup + 1) ∧
    ∀ v, rstController.startup < v → resetOut atRest pulses v = true →
      ∃ a, Requested atRest pulses a = true ∧ a + 5 ≤ v ∧ v ≤ a + rstController.startup :=
  reset_of_request fits_rstController (by decide) atRest pulses

/-- Without the inputs `reset_req_in*`, `reset_req` goes ahead of `reset_out` at both ends of a
    reset, once the first contents of the registers have left them. -/
theorem request_ahead_of_reset (hfits : P.Fits) (hreq : P.useResetRequestIn = fun _ => false)
    (x : System P) (ω : ℕ → Interval) {v : ℕ} (hv : P.startup < v) :
    (resetOut x ω v = false → resetOut x ω (v + 1) = true →
      ∀ w, v + 1 ≤ w + P.resetReqWaitTime → w ≤ v + 1 → resetReq x ω w = true) ∧
    (resetOut x ω v = true → resetOut x ω (v + 1) = false →
      resetReq x ω (v - P.resetReqEarlyDsrtTime) = true ∧
        ∀ w, v + 1 ≤ w + P.resetReqEarlyDsrtTime → w ≤ v + 1 → resetReq x ω w = false) := by
  refine ⟨fun hbefore hafter w hw hw' => ?_, resetReq_of_fall hfits hreq hv⟩
  have htap : P.rstreqAsrtSyncTap = 3 + P.resetReqWaitTime := rfl
  have hlength := hfits.le.1
  rw [Params.startup] at hv
  exact resetReq_of_rise hfits (by omega) hbefore hafter hw hw'

set_option maxRecDepth 2000 in
/-- The pulses after the edge 20 reset the system from the edge 26 to the edge 29. -/
theorem request_ahead_of_reset_pulses :
    (resetOut atRest pulses 25 = false ∧ resetOut atRest pulses 26 = true ∧
      ∀ w, 26 ≤ w + 1 → w ≤ 26 → resetReq atRest pulses w = true) ∧
    (resetOut atRest pulses 29 = true ∧ resetOut atRest pulses 30 = false ∧
      resetReq atRest pulses 28 = true ∧
        ∀ w, 30 ≤ w + 1 → w ≤ 30 → resetReq atRest pulses w = false) := by
  have hrise : resetOut atRest pulses 25 = false ∧ resetOut atRest pulses 26 = true := by decide
  have hfall : resetOut atRest pulses 29 = true ∧ resetOut atRest pulses 30 = false := by decide
  exact ⟨⟨hrise.1, hrise.2, (request_ahead_of_reset fits_rstController rfl atRest pulses
      (v := 25) (by decide)).1 hrise.1 hrise.2⟩,
    ⟨hfall.1, hfall.2, (request_ahead_of_reset fits_rstController rfl atRest pulses
      (v := 29) (by decide)).2 hfall.1 hfall.2⟩⟩

end EmbeddedSystems.HostSystem.ResetController
