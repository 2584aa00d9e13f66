import EmbeddedSystems.HostSystem.Arbitrator

/-!
# Two masters, one slave

The multiplexer `HostSystem_mm_interconnect_0_cmd_mux_002` in front of a slave that
the data master and the instruction master share: two sinks of packets, and a source.
The grant is a register, which is updated from the arbitrator when a packet ends, and
while nothing is going on (`clock_cases`).

Whatever the masters and the slave do, every beat that a sink gives away leaves the
source, once and unchanged, in the same order, and between two beats of a packet there
is no beat of the other sink (`packets_pass`).

A sink that is granted has the other one next in turn (`Inv.behind`). So while a sink
offers a beat that is not taken, at most one packet of the other one ends, and with its
end the sink that waits is granted, and stays so (`bypassed_at_most_once`). If the slave
is ready again and again, and every packet of the other sink ends, then the beat is
taken (`beat_taken`).

The register `prev_request` is left out: the wire `request` only reads it for
`PIPELINE_ARB = 0`.
-/

namespace EmbeddedSystems.HostSystem.CmdMux

open Arbitrator RoundRobin

/-- What a sink offers, apart from `valid`. -/
structure Beat where
  data : BitVec 94
  channel : BitVec 8
  startofpacket : Bool
  endofpacket : Bool

/-- The inputs of the module. -/
structure Inp where
  sinkValid : Fin 2 → Bool
  sink : Fin 2 → Beat
  srcReady : Bool

/-- The registers of the module, and of its arbitrator. -/
structure State where
  locked : BitVec 2
  packetInProgress : Bool
  shareCount : BitVec 1
  shareCountZeroFlag : Bool
  savedGrant : BitVec 2
  topPriorityReg : BitVec 2

/-- `{PAYLOAD_W {b}}`. -/
def replicate {w : ℕ} (b : Bool) : BitVec w := if b = true then BitVec.allOnes w else 0#w

/-! ## The wires -/

/-- The bit `data[PKT_TRANS_LOCK]`. -/
def Beat.lock (b : Beat) : Bool := b.data.getLsbD 58

/-- The wire `sink0_payload`, or `sink1_payload`. -/
def Beat.payload (b : Beat) : BitVec (8 + 94 + 1 + 1) :=
  b.channel ++ b.data ++ BitVec.ofBool b.startofpacket ++ BitVec.ofBool b.endofpacket

/-- The outputs `src_channel`, `src_data`, `src_startofpacket` and `src_endofpacket`. -/
def Beat.ofPayload (v : BitVec (8 + 94 + 1 + 1)) : Beat where
  data := v.extractLsb' 2 94
  channel := v.extractLsb' 96 8
  startofpacket := v.getLsbD 1
  endofpacket := v.getLsbD 0

def valid (inp : Inp) : BitVec 2 := BitVec.ofFnLE inp.sinkValid

def lock (inp : Inp) : BitVec 2 := BitVec.ofFnLE fun i => (inp.sink i).lock

/-- The wire `src_payload`: a sum of products. -/
def srcPayload (inp : Inp) (s : State) : BitVec (8 + 94 + 1 + 1) :=
  ((inp.sink 0).payload &&& replicate (s.savedGrant.getLsbD 0)) |||
    ((inp.sink 1).payload &&& replicate (s.savedGrant.getLsbD 1))

def src (inp : Inp) (s : State) : Beat := Beat.ofPayload (srcPayload inp s)

def srcValid (inp : Inp) (s : State) : Bool := s.savedGrant &&& valid inp ≠ 0#2

def sinkReady (inp : Inp) (s : State) (i : Fin 2) : Bool :=
  inp.srcReady && s.savedGrant.getLsbD i

def lastCycle (inp : Inp) (s : State) : Bool :=
  srcValid inp s && inp.srcReady && (src inp s).endofpacket && lock inp &&& s.savedGrant = 0#2

def request (inp : Inp) (s : State) : BitVec 2 := valid inp ||| s.locked

def nextGrant (inp : Inp) (s : State) : BitVec 2 :=
  grant .roundRobin (request inp s) s.topPriorityReg

def updateGrant (inp : Inp) (s : State) : Bool :=
  (!s.packetInProgress && !srcValid inp s) || (lastCycle inp s && s.shareCountZeroFlag)

/-- The wire `next_grant_share`; `share_0` and `share_1` are zero. -/
def nextGrantShare (inp : Inp) (s : State) : BitVec 1 :=
  (0#1 &&& replicate ((nextGrant inp s).getLsbD 0)) |||
    (0#1 &&& replicate ((nextGrant inp s).getLsbD 1))

def p1ShareCount (s : State) : BitVec 1 :=
  if s.shareCountZeroFlag = true then 0#1 else s.shareCount - 1#1

/-- The inputs of the instance `arb`. -/
def arb (inp : Inp) (s : State) : Arbitrator.Inp 2 where
  request := request inp s
  incrementTopPriority := updateGrant inp s
  saveTopPriority := srcValid inp s

/-- All blocks, at a rising edge of the clock. -/
def clock (inp : Inp) (s : State) : State where
  locked := nextGrant inp s &&& lock inp
  packetInProgress :=
    if lastCycle inp s = true then false
    else if srcValid inp s = true then true
    else s.packetInProgress
  shareCount :=
    if updateGrant inp s = true then nextGrantShare inp s
    else if lastCycle inp s = true then p1ShareCount s
    else s.shareCount
  shareCountZeroFlag :=
    if updateGrant inp s = true then nextGrantShare inp s = 0#1
    else if lastCycle inp s = true then p1ShareCount s = 0#1
    else s.shareCountZeroFlag
  savedGrant := if updateGrant inp s = true then nextGrant inp s else s.savedGrant
  topPriorityReg := Arbitrator.clock .roundRobin true (arb inp s) s.topPriorityReg

/-- The state after a reset. -/
def resetState : State where
  locked := 0#2
  packetInProgress := false
  shareCount := 0#1
  shareCountZeroFlag := true
  savedGrant := 0#2
  topPriorityReg := Arbitrator.resetState

/-- The state before the rising edge `t` of the clock, from the reset on. -/
def run (ω : ℕ → Inp) : ℕ → State
  | 0 => resetState
  | t + 1 => clock (ω t) (run ω t)

/-! ## What is transferred -/

/-- The beat is the last one of a transfer: the end of a packet, and the sink does not hold the
    lock. -/
def Beat.ends (b : Beat) : Bool := b.endofpacket && !b.lock

/-- The beats that the sinks give away at an edge of the clock, and the sinks they are from. -/
def accepted (inp : Inp) (s : State) : List (Fin 2 × Beat) :=
  (List.finRange 2).filterMap fun i =>
    if inp.sinkValid i && sinkReady inp s i then some (i, inp.sink i) else none

/-- The beats that leave the source at an edge of the clock. -/
def emitted (inp : Inp) (s : State) : List Beat :=
  if srcValid inp s && inp.srcReady then [src inp s] else []

/-- All beats that the sinks have given away before the edge `t`. -/
def acceptedUpTo (ω : ℕ → Inp) (t : ℕ) : List (Fin 2 × Beat) :=
  (List.range t).flatMap fun u => accepted (ω u) (run ω u)

/-- All beats that have left the source before the edge `t`. -/
def emittedUpTo (ω : ℕ → Inp) (t : ℕ) : List Beat :=
  (List.range t).flatMap fun u => emitted (ω u) (run ω u)

/-- The number of packets that end in the `d` edges from `t` on. -/
def packetsEnded (ω : ℕ → Inp) (t d : ℕ) : ℕ :=
  Nat.count (fun s => lastCycle (ω (t + s)) (run ω (t + s)) = true) d

/-! ## One edge -/

variable {inp : Inp} {s : State} {i : Fin 2}

@[simp] theorem getLsbD_valid (inp : Inp) (i : Fin 2) :
    (valid inp).getLsbD i = inp.sinkValid i := by
  rw [valid, BitVec.getLsbD_ofFnLE, dif_pos i.isLt]

@[simp] theorem getLsbD_lock (inp : Inp) (i : Fin 2) :
    (lock inp).getLsbD i = (inp.sink i).lock := by
  rw [lock, BitVec.getLsbD_ofFnLE, dif_pos i.isLt]

@[simp] theorem ofPayload_payload (b : Beat) : Beat.ofPayload b.payload = b := by
  have hdata : b.payload.extractLsb' 2 94 = b.data := by
    apply BitVec.eq_of_getLsbD_eq
    intro j hj
    rw [BitVec.getLsbD_extractLsb', decide_eq_true hj, Bool.true_and, Beat.payload,
      BitVec.getLsbD_append, if_neg (by omega), BitVec.getLsbD_append, if_neg (by omega),
      BitVec.getLsbD_append, if_pos (by omega)]
    congr 1
    omega
  have hchannel : b.payload.extractLsb' 96 8 = b.channel := by
    apply BitVec.eq_of_getLsbD_eq
    intro j hj
    rw [BitVec.getLsbD_extractLsb', decide_eq_true hj, Bool.true_and, Beat.payload,
      BitVec.getLsbD_append, if_neg (by omega), BitVec.getLsbD_append, if_neg (by omega),
      BitVec.getLsbD_append, if_neg (by omega)]
    congr 1
    omega
  have hsop : b.payload.getLsbD 1 = b.startofpacket := by
    rw [Beat.payload, BitVec.getLsbD_append, if_neg (by decide), BitVec.getLsbD_append,
      if_pos (by decide), BitVec.getLsbD_ofBool, decide_eq_true rfl, Bool.true_and]
  have heop : b.payload.getLsbD 0 = b.endofpacket := by
    rw [Beat.payload, BitVec.getLsbD_append, if_pos (by decide), BitVec.getLsbD_ofBool,
      decide_eq_true rfl, Bool.true_and]
  rw [Beat.ofPayload, hdata, hchannel, hsop, heop]

theorem and_oneHot_eq_zero_iff (v : BitVec 2) (i : Fin 2) :
    v &&& oneHot i = 0#2 ↔ v.getLsbD i = false := by
  constructor
  · intro h
    have hbit := congrArg (fun u : BitVec 2 => u.getLsbD i) h
    rwa [BitVec.getLsbD_and, (getLsbD_oneHot i i).2 rfl, Bool.and_true, BitVec.getLsbD_zero] at hbit
  · intro h
    by_contra hne
    rcases exists_requests hne with ⟨j, hj⟩
    rw [Requests, BitVec.getLsbD_and, Bool.and_eq_true, getLsbD_oneHot] at hj
    rw [← hj.2, hj.1] at h
    exact absurd h.symm Bool.false_ne_true

theorem replicate_true {w : ℕ} (v : BitVec w) : v &&& replicate true = v := by
  rw [replicate, if_pos rfl, BitVec.and_allOnes]

theorem replicate_false {w : ℕ} (v : BitVec w) : v &&& replicate false = 0#w := by
  rw [replicate, if_neg Bool.false_ne_true, BitVec.and_zero]

/-- The source repeats the sink that is granted. -/
theorem src_of_granted (inp : Inp) (h : s.savedGrant = oneHot i) : src inp s = inp.sink i := by
  have hbit : ∀ j : Fin 2, s.savedGrant.getLsbD j = decide (j = i) := fun j => by
    rw [h, Bool.eq_iff_iff, getLsbD_oneHot, decide_eq_true_iff]
  have h0 := hbit 0
  have h1 := hbit 1
  rw [src, srcPayload]
  match i with
  | 0 =>
    rw [show s.savedGrant.getLsbD 0 = true from h0, show s.savedGrant.getLsbD 1 = false from h1,
      replicate_true, replicate_false, BitVec.or_zero, ofPayload_payload]
  | 1 =>
    rw [show s.savedGrant.getLsbD 0 = false from h0, show s.savedGrant.getLsbD 1 = true from h1,
      replicate_true, replicate_false, BitVec.zero_or, ofPayload_payload]

theorem srcValid_of_granted (inp : Inp) (h : s.savedGrant = oneHot i) :
    srcValid inp s = inp.sinkValid i := by
  rw [srcValid, h, BitVec.and_comm, Bool.eq_iff_iff, decide_eq_true_iff, ne_eq,
    and_oneHot_eq_zero_iff, getLsbD_valid, Bool.not_eq_false]

theorem lastCycle_of_granted (inp : Inp) (h : s.savedGrant = oneHot i) :
    lastCycle inp s = (inp.sinkValid i && inp.srcReady && (inp.sink i).ends) := by
  have hlock : decide (lock inp &&& oneHot i = 0#2) = !(inp.sink i).lock := by
    rw [Bool.eq_iff_iff, decide_eq_true_iff, and_oneHot_eq_zero_iff, getLsbD_lock,
      Bool.not_eq_true']
  rw [lastCycle, srcValid_of_granted inp h, src_of_granted inp h, h, hlock, Beat.ends,
    Bool.and_assoc]

theorem srcValid_of_no_grant (inp : Inp) (h : s.savedGrant = 0#2) : srcValid inp s = false := by
  rw [srcValid, h, BitVec.zero_and, decide_eq_false (not_not.2 rfl)]

/-! ## The invariant -/

/-- What holds of every state. -/
structure Inv (s : State) : Prop where
  flag : s.shareCountZeroFlag = true
  grant : s.savedGrant = 0#2 ∨ ∃ i, s.savedGrant = oneHot i
  priority : ∃ p, s.topPriorityReg = oneHot p
  /-- The priority is behind the sink that is granted. -/
  behind : ∀ i, s.savedGrant = oneHot i → s.topPriorityReg = oneHot (i + 1)
  busy : s.packetInProgress = true → s.savedGrant ≠ 0#2

theorem nextGrantShare_eq (inp : Inp) (s : State) : nextGrantShare inp s = 0#1 := by
  rw [nextGrantShare, BitVec.zero_and, BitVec.zero_and, BitVec.or_zero]

theorem nextGrant_cases (inp : Inp) (h : Inv s) :
    (request inp s = 0#2 ∧ nextGrant inp s = 0#2) ∨ ∃ i, nextGrant inp s = oneHot i := by
  rcases h.priority with ⟨p, hp⟩
  rw [nextGrant, hp]
  by_cases hzero : request inp s = 0#2
  · exact Or.inl ⟨hzero, by rw [hzero, grant_zero (by decide)]⟩
  · rcases exists_isNext p (exists_requests hzero) with ⟨i, hi⟩
    exact Or.inr ⟨i, grant_eq (by decide) hi⟩

/-- What happens at an edge: nothing is going on, or a packet ends, or one is under way. -/
theorem clock_cases (inp : Inp) (h : Inv s) :
    (lastCycle inp s = false ∧ srcValid inp s = false ∧ s.packetInProgress = false ∧
      updateGrant inp s = true ∧ (clock inp s).packetInProgress = false) ∨
    (lastCycle inp s = true ∧ updateGrant inp s = true) ∨
    (lastCycle inp s = false ∧ updateGrant inp s = false ∧
      (clock inp s).packetInProgress = true) := by
  have hprogress : (clock inp s).packetInProgress =
      if lastCycle inp s = true then false
      else if srcValid inp s = true then true else s.packetInProgress := rfl
  rw [hprogress, updateGrant, h.flag, Bool.and_true]
  rcases Bool.eq_false_or_eq_true (lastCycle inp s) with hlast | hlast
  · exact Or.inr (Or.inl ⟨hlast, by rw [hlast, Bool.or_true]⟩)
  · rw [hlast, Bool.or_false, if_neg Bool.false_ne_true]
    rcases Bool.eq_false_or_eq_true (srcValid inp s) with hvalid | hvalid
    · rw [hvalid]
      exact Or.inr (Or.inr ⟨rfl, by rw [Bool.not_true, Bool.and_false], rfl⟩)
    · rw [hvalid, if_neg Bool.false_ne_true]
      rcases Bool.eq_false_or_eq_true s.packetInProgress with hpip | hpip
      · exact Or.inr (Or.inr ⟨rfl, by rw [hpip]; rfl, hpip⟩)
      · exact Or.inl ⟨rfl, rfl, hpip, by rw [hpip]; rfl, hpip⟩

theorem savedGrant_of_not_updateGrant (h : updateGrant inp s = false) :
    (clock inp s).savedGrant = s.savedGrant :=
  if_neg (by rw [h]; exact Bool.false_ne_true)

theorem savedGrant_of_updateGrant (h : updateGrant inp s = true) :
    (clock inp s).savedGrant = nextGrant inp s :=
  if_pos h

theorem oneHot_ne_zero (i : Fin 2) : oneHot i ≠ 0#2 := fun h =>
  not_requests_zero i (h ▸ (getLsbD_oneHot i i).2 rfl)

theorem inv_resetState : Inv resetState where
  flag := rfl
  grant := Or.inl rfl
  priority := ⟨0, Arbitrator.resetState_eq 2⟩
  behind i hi := absurd hi.symm (oneHot_ne_zero i)
  busy hpip := absurd hpip Bool.false_ne_true

/-- What an update does to the priority: a new grant takes it to the place behind. -/
theorem topPriorityReg_of_updateGrant (h : Inv s) (hupdate : updateGrant inp s = true)
    (hgrant : nextGrant inp s = oneHot i) : (clock inp s).topPriorityReg = oneHot (i + 1) := by
  obtain ⟨p, hp⟩ := h.priority
  change Arbitrator.clock .roundRobin true (arb inp s) s.topPriorityReg = oneHot (i + 1)
  rw [nextGrant, hp] at hgrant
  rw [hp]
  obtain ⟨j, -, hj, hnext⟩ | ⟨hinc | hzero, -⟩ :=
    Arbitrator.clock_cases (by decide) (arb inp s) p
  · have hgrant' := grant_eq (by decide) hj
    rw [hnext, oneHot_injective (hgrant'.symm.trans hgrant)]
  · exact absurd (hupdate.symm.trans hinc) Bool.true_eq_false.mp
  · -- Without a request nobody is granted.
    rw [show request inp s = 0#2 from hzero, grant_zero (by decide)] at hgrant
    exact absurd hgrant.symm (oneHot_ne_zero i)

theorem topPriorityReg_of_not_updateGrant (h : Inv s) (hupdate : updateGrant inp s = false) :
    (clock inp s).topPriorityReg = s.topPriorityReg := by
  obtain ⟨p, hp⟩ := h.priority
  change Arbitrator.clock .roundRobin true (arb inp s) s.topPriorityReg = s.topPriorityReg
  rw [hp]
  obtain ⟨j, hinc, -⟩ | ⟨-, hstay⟩ := Arbitrator.clock_cases (by decide) (arb inp s) p
  · exact absurd (hinc.symm.trans hupdate) Bool.true_eq_false.mp
  · exact hstay

theorem inv_clock (inp : Inp) (h : Inv s) : Inv (clock inp s) where
  flag := by
    have hshare : p1ShareCount s = 0#1 := by rw [p1ShareCount, if_pos h.flag]
    change (if updateGrant inp s = true then decide (nextGrantShare inp s = 0#1)
      else if lastCycle inp s = true then decide (p1ShareCount s = 0#1)
      else s.shareCountZeroFlag) = true
    rw [nextGrantShare_eq, hshare, h.flag, decide_eq_true rfl, ite_self, ite_self]
  grant := by
    change (if updateGrant inp s = true then nextGrant inp s else s.savedGrant) = 0#2 ∨
      ∃ i, (if updateGrant inp s = true then nextGrant inp s else s.savedGrant) = oneHot i
    split_ifs
    · exact (nextGrant_cases inp h).imp_left And.right
    · exact h.grant
  priority := by
    rcases h.priority with ⟨p, hp⟩
    change ∃ q, Arbitrator.clock .roundRobin true (arb inp s) s.topPriorityReg = oneHot q
    rw [hp]
    rcases Arbitrator.clock_cases (by decide) (arb inp s) p with ⟨i, -, -, hi⟩ | ⟨-, hstay⟩
    · exact ⟨i + 1, hi⟩
    · exact ⟨p, hstay⟩
  behind j hj := by
    rcases Bool.eq_false_or_eq_true (updateGrant inp s) with hupdate | hupdate
    · rw [savedGrant_of_updateGrant hupdate] at hj
      exact topPriorityReg_of_updateGrant h hupdate hj
    · rw [savedGrant_of_not_updateGrant hupdate] at hj
      rw [topPriorityReg_of_not_updateGrant h hupdate, h.behind j hj]
  busy hpip := by
    obtain ⟨-, -, -, -, hpip'⟩ | ⟨hlast, -⟩ | ⟨-, hupdate, -⟩ := clock_cases inp h
    · exact absurd (hpip.symm.trans hpip') Bool.true_eq_false.mp
    · have hpip' : (clock inp s).packetInProgress = false := if_pos hlast
      exact absurd (hpip.symm.trans hpip') Bool.true_eq_false.mp
    · -- Without a grant nothing is going on, and there is an update.
      rw [savedGrant_of_not_updateGrant hupdate]
      intro hzero
      have hidle : s.packetInProgress = false :=
        Bool.eq_false_iff.2 fun hbusy => h.busy hbusy hzero
      rw [updateGrant, srcValid_of_no_grant inp hzero, hidle] at hupdate
      exact absurd hupdate (by simp)

theorem inv_run (ω : ℕ → Inp) (t : ℕ) : Inv (run ω t) := by
  induction t with
  | zero => exact inv_resetState
  | succ t ih => exact inv_clock (ω t) ih

/-! ## Packets -/

theorem accepted_of_granted (inp : Inp) (h : s.savedGrant = oneHot i) :
    accepted inp s = if inp.sinkValid i && inp.srcReady then [(i, inp.sink i)] else [] := by
  have hready : ∀ j : Fin 2, sinkReady inp s j = (inp.srcReady && decide (j = i)) := fun j => by
    rw [sinkReady, h, Bool.eq_iff_iff, Bool.and_eq_true, Bool.and_eq_true, getLsbD_oneHot,
      decide_eq_true_iff]
  have hlist : List.finRange 2 = [0, 1] := rfl
  rw [accepted, hlist]
  match i with
  | 0 => cases hvalid : inp.sinkValid 0 <;> cases hsrc : inp.srcReady <;>
      simp [hready, hvalid, hsrc]
  | 1 => cases hvalid : inp.sinkValid 1 <;> cases hsrc : inp.srcReady <;>
      simp [hready, hvalid, hsrc]

theorem accepted_of_no_grant (inp : Inp) (h : s.savedGrant = 0#2) : accepted inp s = [] := by
  simp [accepted, sinkReady, h]

/-- What leaves the source is what the sinks give away. -/
theorem emitted_eq (inp : Inp) (h : Inv s) :
    emitted inp s = (accepted inp s).map Prod.snd := by
  rcases h.grant with hzero | ⟨i, hi⟩
  · rw [emitted, srcValid_of_no_grant inp hzero, accepted_of_no_grant inp hzero]
    rfl
  · rw [emitted, srcValid_of_granted inp hi, src_of_granted inp hi, accepted_of_granted inp hi]
    split_ifs <;> rfl

theorem acceptedUpTo_succ (ω : ℕ → Inp) (t : ℕ) :
    acceptedUpTo ω (t + 1) = acceptedUpTo ω t ++ accepted (ω t) (run ω t) := by
  rw [acceptedUpTo, List.range_succ, List.flatMap_append, List.flatMap_singleton]
  rfl

theorem emittedUpTo_succ (ω : ℕ → Inp) (t : ℕ) :
    emittedUpTo ω (t + 1) = emittedUpTo ω t ++ emitted (ω t) (run ω t) := by
  rw [emittedUpTo, List.range_succ, List.flatMap_append, List.flatMap_singleton]
  rfl

/-- The sink of the last beat is granted until the last cycle of its packet. -/
def Owned (l : List (Fin 2 × Beat)) (s : State) : Prop :=
  ∀ x ∈ l.getLast?, x.2.ends = false → s.packetInProgress = true ∧ s.savedGrant = oneHot x.1

theorem owned_clock {l : List (Fin 2 × Beat)} (inp : Inp) (h : Inv s) (hl : Owned l s) :
    Owned (l ++ accepted inp s) (clock inp s) := by
  by_cases htaken : ∃ i, s.savedGrant = oneHot i ∧ (inp.sinkValid i && inp.srcReady) = true
  · -- A beat is given away: the sink keeps the grant unless the beat ends the packet.
    rcases htaken with ⟨i, hi, htaken⟩
    rw [accepted_of_granted inp hi, if_pos htaken]
    intro x hx hends
    rw [List.getLast?_concat, Option.mem_some_iff] at hx
    subst hx
    have hlast : lastCycle inp s = false := by
      rw [lastCycle_of_granted inp hi, hends, Bool.and_false]
    have hvalid : srcValid inp s = true := by
      rw [srcValid_of_granted inp hi]
      exact (Bool.and_eq_true_iff.1 htaken).1
    rcases clock_cases inp h with ⟨-, hidle, -⟩ | ⟨hend, -⟩ | ⟨-, hupdate, hpip⟩
    · exact absurd (hvalid.symm.trans hidle) Bool.true_eq_false.mp
    · exact absurd (hend.symm.trans hlast) Bool.true_eq_false.mp
    · exact ⟨hpip, by rw [savedGrant_of_not_updateGrant hupdate, hi]⟩
  · -- Nothing is given away: a packet under way stays so.
    have hnone : accepted inp s = [] := by
      rcases h.grant with hzero | ⟨i, hi⟩
      · exact accepted_of_no_grant inp hzero
      · rw [accepted_of_granted inp hi, if_neg fun htake => htaken ⟨i, hi, htake⟩]
    rw [hnone, List.append_nil]
    intro x hx hends
    rcases hl x hx hends with ⟨hpip, hgrant⟩
    rcases clock_cases inp h with ⟨-, -, hidle, -⟩ | ⟨hend, -⟩ | ⟨-, hupdate, hpip'⟩
    · exact absurd (hpip.symm.trans hidle) Bool.true_eq_false.mp
    · rw [lastCycle_of_granted inp hgrant, Bool.and_eq_true] at hend
      exact absurd ⟨x.1, hgrant, hend.1⟩ htaken
    · exact ⟨hpip', by rw [savedGrant_of_not_updateGrant hupdate, hgrant]⟩

/-- A beat that does not end its packet is followed by one of the same sink. -/
def Follows (x y : Fin 2 × Beat) : Prop := x.2.ends = false → y.1 = x.1

theorem isChain_accepted {l : List (Fin 2 × Beat)} (inp : Inp) (h : Inv s) (hl : Owned l s)
    (hchain : l.IsChain Follows) : (l ++ accepted inp s).IsChain Follows := by
  rcases h.grant with hzero | ⟨i, hi⟩
  · rwa [accepted_of_no_grant inp hzero, List.append_nil]
  · rw [accepted_of_granted inp hi]
    split_ifs
    · refine hchain.append (List.isChain_singleton _) fun x hx y hy hends => ?_
      rw [List.head?_cons, Option.mem_some_iff] at hy
      subst hy
      exact oneHot_injective (hi.symm.trans (hl x hx hends).2)
    · rwa [List.append_nil]

theorem owned_run (ω : ℕ → Inp) (t : ℕ) :
    Owned (acceptedUpTo ω t) (run ω t) ∧ (acceptedUpTo ω t).IsChain Follows := by
  induction t with
  | zero => exact ⟨fun _ hx => absurd hx (Option.not_mem_none _), List.isChain_nil⟩
  | succ t ih =>
    rw [acceptedUpTo_succ]
    exact ⟨owned_clock (ω t) (inv_run ω t) ih.1,
      isChain_accepted (ω t) (inv_run ω t) ih.1 ih.2⟩

/-- Every beat leaves the source once, unchanged and in its order, and a packet is not
    interrupted by beats of the other sink. -/
theorem packets_pass (ω : ℕ → Inp) (t : ℕ) :
    emittedUpTo ω t = (acceptedUpTo ω t).map Prod.snd ∧
      (acceptedUpTo ω t).IsChain fun x y => x.2.ends = false → y.1 = x.1 := by
  refine ⟨?_, (owned_run ω t).2⟩
  induction t with
  | zero => rfl
  | succ t ih =>
    rw [emittedUpTo_succ, acceptedUpTo_succ, List.map_append, ih, emitted_eq _ (inv_run ω t)]

/-! ## Waiting -/

/-- A packet of the sink `i` is under way: the sink is granted, and offers a beat or has not yet
    ended its packet. -/
def UnderWay (inp : Inp) (s : State) (i : Fin 2) : Prop :=
  s.savedGrant = oneHot i ∧ (inp.sinkValid i = true ∨ s.packetInProgress = true)

section

variable {k : Fin 2}

theorem eq_add_one_of_ne (h : i ≠ k) : i = k + 1 := by
  match i, k with
  | 0, 1 | 1, 0 => rfl
  | 0, 0 | 1, 1 => exact absurd rfl h

/-- A sink that is granted and waits is so because of the slave. -/
theorem srcReady_of_waits (hgrant : s.savedGrant = oneHot k)
    (hwait : sinkReady inp s k = false) : inp.srcReady = false := by
  rwa [sinkReady, hgrant, (getLsbD_oneHot k k).2 rfl, Bool.and_true] at hwait

theorem lastCycle_of_waits (hgrant : s.savedGrant = oneHot k)
    (hwait : sinkReady inp s k = false) : lastCycle inp s = false := by
  rw [lastCycle_of_granted inp hgrant, srcReady_of_waits hgrant hwait, Bool.and_false,
    Bool.false_and]

/-- A sink that is granted and waits stays granted. -/
theorem granted_of_waits (h : Inv s) (hgrant : s.savedGrant = oneHot k)
    (hoffer : inp.sinkValid k = true) (hwait : sinkReady inp s k = false) :
    (clock inp s).savedGrant = oneHot k := by
  have hlast := lastCycle_of_waits hgrant hwait
  have hvalid : srcValid inp s = true := (srcValid_of_granted inp hgrant).trans hoffer
  obtain ⟨-, hidle, -⟩ | ⟨hend, -⟩ | ⟨-, hupdate, -⟩ := clock_cases inp h
  · exact absurd (hvalid.symm.trans hidle) Bool.true_eq_false.mp
  · exact absurd (hend.symm.trans hlast) Bool.true_eq_false.mp
  · rw [savedGrant_of_not_updateGrant hupdate, hgrant]

theorem requests_of_offers (h : inp.sinkValid k = true) : Requests (request inp s) k := by
  rw [Requests, request, BitVec.getLsbD_or, getLsbD_valid, h, Bool.true_or]

/-- If the other sink is granted, the next update is for the one that waits. -/
theorem granted_of_updateGrant (h : Inv s) (hgrant : s.savedGrant = oneHot (k + 1))
    (hoffer : inp.sinkValid k = true) (hupdate : updateGrant inp s = true) :
    (clock inp s).savedGrant = oneHot k := by
  have hturn : k + 1 + 1 = k := (eq_add_one_of_ne (by match k with | 0 | 1 => decide)).symm
  have hnext : IsNext (Requests (request inp s)) k k :=
    ⟨requests_of_offers hoffer, fun j _ => by simp [ahead]⟩
  rw [savedGrant_of_updateGrant hupdate, nextGrant, h.behind _ hgrant, hturn,
    grant_eq (by decide) hnext]

/-- The end of a packet of the other sink passes the grant on to the one that waits. -/
theorem granted_of_lastCycle (h : Inv s) (hoffer : inp.sinkValid k = true)
    (hwait : sinkReady inp s k = false) (hlast : lastCycle inp s = true) :
    (clock inp s).savedGrant = oneHot k := by
  have hupdate : updateGrant inp s = true := by
    rw [updateGrant, hlast, h.flag, Bool.and_true, Bool.or_true]
  obtain hzero | ⟨i, hi⟩ := h.grant
  · rw [lastCycle, srcValid_of_no_grant inp hzero] at hlast
    exact absurd hlast (by simp)
  · have hne : i ≠ k := by
      rintro rfl
      exact absurd (hlast.symm.trans (lastCycle_of_waits hi hwait)) Bool.true_eq_false.mp
    exact granted_of_updateGrant h (eq_add_one_of_ne hne ▸ hi) hoffer hupdate

/-- Without a packet of the other sink under way, the one that waits is granted, unless nobody has
    been: then it may be the turn of the other one. -/
theorem granted_of_not_underWay (h : Inv s) (hoffer : inp.sinkValid k = true)
    (hwait : sinkReady inp s k = false) (hidle : ¬UnderWay inp s (k + 1)) :
    (clock inp s).savedGrant = oneHot k ∨
      s.savedGrant = 0#2 ∧ (clock inp s).savedGrant = oneHot (k + 1) := by
  obtain hzero | ⟨i, hi⟩ := h.grant
  · have hpip : s.packetInProgress = false :=
      Bool.eq_false_iff.2 fun hbusy => h.busy hbusy hzero
    have hupdate : updateGrant inp s = true := by
      rw [updateGrant, hpip, srcValid_of_no_grant inp hzero]
      rfl
    rw [savedGrant_of_updateGrant hupdate]
    obtain ⟨hnone, -⟩ | ⟨j, hj⟩ := nextGrant_cases inp h
    · exact absurd (hnone ▸ requests_of_offers hoffer) (not_requests_zero k)
    · by_cases hjk : j = k
      · exact Or.inl (hjk ▸ hj)
      · exact Or.inr ⟨hzero, eq_add_one_of_ne hjk ▸ hj⟩
  · by_cases hik : i = k
    · subst hik
      exact Or.inl (granted_of_waits h hi hoffer hwait)
    · obtain rfl := eq_add_one_of_ne hik
      rw [UnderWay, not_and_or, not_or, Bool.not_eq_true, Bool.not_eq_true] at hidle
      obtain ⟨hvalid, hpip⟩ := hidle.resolve_left (not_not.2 hi)
      have hupdate : updateGrant inp s = true := by
        rw [updateGrant, hpip, srcValid_of_granted inp hi, hvalid]
        rfl
      exact Or.inl (granted_of_updateGrant h hi hoffer hupdate)

end

section

variable {ω : ℕ → Inp} {t d : ℕ} {k : Fin 2}

/-- In the `d` edges from `t` on, the sink `k` offers a beat that is not taken. -/
structure Waits (ω : ℕ → Inp) (t d : ℕ) (k : Fin 2) : Prop where
  offers : ∀ u, t ≤ u → u < t + d → (ω u).sinkValid k = true
  notReady : ∀ u, t ≤ u → u < t + d → sinkReady (ω u) (run ω u) k = false

theorem Waits.succ (h : Waits ω t (d + 1) k) : Waits ω (t + 1) d k where
  offers u hu hd := h.offers u (Nat.le_of_succ_le hu) (by omega)
  notReady u hu hd := h.notReady u (Nat.le_of_succ_le hu) (by omega)

/-- Once it is granted, a sink that waits stays so. -/
theorem Waits.granted (h : Waits ω t d k) {u v : ℕ} (hu : t ≤ u) (huv : u ≤ v) (hv : v ≤ t + d)
    (hgrant : (run ω u).savedGrant = oneHot k) : (run ω v).savedGrant = oneHot k := by
  induction v, huv using Nat.le_induction with
  | base => exact hgrant
  | succ v huv ih =>
    have htv : t ≤ v := hu.trans huv
    exact granted_of_waits (inv_run ω v) (ih (Nat.le_of_succ_le hv)) (h.offers v htv hv)
      (h.notReady v htv hv)

/-- From the end of a packet on, the sink that waits is granted. -/
theorem Waits.granted_of_lastCycle (h : Waits ω t d k) {u v : ℕ} (hu : t ≤ u) (huv : u < v)
    (hv : v ≤ t + d) (hlast : lastCycle (ω u) (run ω u) = true) :
    (run ω v).savedGrant = oneHot k := by
  have hud : u < t + d := huv.trans_le hv
  exact h.granted (hu.trans u.le_succ) huv hv
    (CmdMux.granted_of_lastCycle (inv_run ω u) (h.offers u hu hud) (h.notReady u hu hud) hlast)

theorem packetsEnded_succ (ω : ℕ → Inp) (t d : ℕ) : packetsEnded ω t (d + 1) =
    packetsEnded ω (t + 1) d + if lastCycle (ω t) (run ω t) = true then 1 else 0 := by
  rw [packetsEnded, Nat.count_succ', packetsEnded]
  congr 2
  funext s
  rw [Nat.add_right_comm, Nat.add_assoc]

/-- After an end no further packet ends, as the sink that waits is granted. -/
theorem Waits.packetsEnded_le (h : Waits ω t d k) : packetsEnded ω t d ≤ 1 := by
  induction d generalizing t with
  | zero => exact Nat.zero_le 1
  | succ d ih =>
    rw [packetsEnded_succ]
    split_ifs with hlast
    · have hnone : packetsEnded ω (t + 1) d = 0 := by
        refine Nat.count_of_forall_not fun s hs hend => ?_
        have hgrant : (run ω (t + 1 + s)).savedGrant = oneHot k :=
          h.granted_of_lastCycle le_rfl (by omega) (by omega) hlast
        have hwait := h.notReady (t + 1 + s) (by omega) (by omega)
        exact absurd (hend.symm.trans (lastCycle_of_waits hgrant hwait)) Bool.true_eq_false.mp
      rw [hnone]
    · exact ih h.succ

theorem Waits.granted_of_not_underWay (h : Waits ω t d k) {u v : ℕ} (hu : t ≤ u)
    (huv : u + 2 ≤ v) (hv : v ≤ t + d) (hidle : ¬UnderWay (ω u) (run ω u) (k + 1))
    (hidle' : ¬UnderWay (ω (u + 1)) (run ω (u + 1)) (k + 1)) :
    (run ω v).savedGrant = oneHot k := by
  have hstep : ∀ w, t ≤ w → w < t + d → ¬UnderWay (ω w) (run ω w) (k + 1) →
      (run ω (w + 1)).savedGrant = oneHot k ∨
        (run ω w).savedGrant = 0#2 ∧ (run ω (w + 1)).savedGrant = oneHot (k + 1) :=
    fun w hw hd => CmdMux.granted_of_not_underWay (inv_run ω w) (h.offers w hw hd)
      (h.notReady w hw hd)
  obtain hgrant | ⟨-, hother⟩ := hstep u hu (by omega) hidle
  · exact h.granted (by omega) (by omega) hv hgrant
  · -- It was the turn of the other sink, which does not make use of it.
    obtain hgrant | ⟨hzero, -⟩ := hstep (u + 1) (by omega) (by omega) hidle'
    · exact h.granted (by omega) huv hv hgrant
    · exact absurd (hother.symm.trans hzero) (oneHot_ne_zero _)

/-- While a sink offers a beat that is not taken, at most one packet of the other one ends. From its
    end on the sink that waits is granted, and so it is after two edges without a packet of the
    other one under way. -/
theorem bypassed_at_most_once (ω : ℕ → Inp) (t d : ℕ) (k : Fin 2) (h : Waits ω t d k) :
    packetsEnded ω t d ≤ 1 ∧
      (∀ u v, t ≤ u → u < v → v ≤ t + d → lastCycle (ω u) (run ω u) = true →
        (run ω v).savedGrant = oneHot k) ∧
      (∀ u v, t ≤ u → u + 2 ≤ v → v ≤ t + d → ¬UnderWay (ω u) (run ω u) (k + 1) →
        ¬UnderWay (ω (u + 1)) (run ω (u + 1)) (k + 1) → (run ω v).savedGrant = oneHot k) :=
  ⟨h.packetsEnded_le, fun _ _ hu huv hv => h.granted_of_lastCycle hu huv hv,
    fun _ _ hu huv hv => h.granted_of_not_underWay hu huv hv⟩

/-- Both masters start at once: a packet of two beats passes, and then the slave keeps the other
    master waiting. -/
def slowSlave : ℕ → Inp
  | 0 | 1 => ⟨fun _ => true, fun _ => ⟨0#94, 0#8, true, false⟩, true⟩
  | 2 => ⟨fun _ => true, fun _ => ⟨0#94, 0#8, false, true⟩, true⟩
  | _ => ⟨fun i => i = 1, fun _ => ⟨0#94, 0#8, true, true⟩, false⟩

theorem waits_slowSlave : Waits slowSlave 0 6 1 where
  offers u _ hd := by
    match u with
    | 0 | 1 | 2 | 3 | 4 | 5 => rfl
  notReady u _ hd := by
    match u with
    | 0 | 1 | 2 | 3 | 4 | 5 => decide

theorem bypassed_slowSlave :
    packetsEnded slowSlave 0 6 = 1 ∧ packetsEnded slowSlave 0 6 ≤ 1 ∧
    (run slowSlave 3).savedGrant = oneHot 1 ∧ (run slowSlave 5).savedGrant = oneHot 1 :=
  ⟨by decide, (bypassed_at_most_once slowSlave 0 6 1 waits_slowSlave).1,
    (bypassed_at_most_once slowSlave 0 6 1 waits_slowSlave).2.1 2 3 (by decide) (by decide)
      (by decide) (by decide),
    (bypassed_at_most_once slowSlave 0 6 1 waits_slowSlave).2.2 3 5 (by decide) (by decide)
      (by decide) (fun h => absurd h.1 (by decide)) fun h => absurd h.1 (by decide)⟩

/-- If every packet of the other sink that is under way ends, a sink that goes on waiting is granted
    at some time. -/
theorem exists_granted (hwaits : ∀ d, Waits ω t d k)
    (hother : ∀ u, t ≤ u → UnderWay (ω u) (run ω u) (k + 1) →
      ∃ v, u ≤ v ∧ lastCycle (ω v) (run ω v) = true) :
    ∃ g, t ≤ g ∧ (run ω g).savedGrant = oneHot k := by
  have hends : ∀ u, t ≤ u → UnderWay (ω u) (run ω u) (k + 1) →
      ∃ g, t ≤ g ∧ (run ω g).savedGrant = oneHot k := by
    intro u hu hbusy
    obtain ⟨v, huv, hlast⟩ := hother u hu hbusy
    exact ⟨v + 1, by omega, (hwaits (v + 1)).granted_of_lastCycle (hu.trans huv)
      v.lt_succ_self (by omega) hlast⟩
  by_cases hbusy : UnderWay (ω t) (run ω t) (k + 1)
  · exact hends t le_rfl hbusy
  by_cases hbusy' : UnderWay (ω (t + 1)) (run ω (t + 1)) (k + 1)
  · exact hends (t + 1) t.le_succ hbusy'
  -- The other sink does not make use of its turn, if it gets one.
  exact ⟨t + 2, by omega, (hwaits 2).granted_of_not_underWay le_rfl le_rfl le_rfl hbusy hbusy'⟩

/-- If the slave is ready again and again, and every packet of the other sink that is under way
    ends, then a beat that a sink offers until it is taken is taken. -/
theorem beat_taken (ω : ℕ → Inp) (t : ℕ) (k : Fin 2)
    (hoffer : ∀ u, t ≤ u → (∀ v, t ≤ v → v < u → sinkReady (ω v) (run ω v) k = false) →
      (ω u).sinkValid k = true)
    (hslave : ∀ u, ∃ v, u ≤ v ∧ (ω v).srcReady = true)
    (hother : ∀ u, t ≤ u → UnderWay (ω u) (run ω u) (k + 1) →
      ∃ v, u ≤ v ∧ lastCycle (ω v) (run ω v) = true) :
    ∃ u, t ≤ u ∧ (ω u).sinkValid k = true ∧ sinkReady (ω u) (run ω u) k = true := by
  by_contra hnever
  -- The beat is offered as long as it has not been taken, so it is offered for ever.
  have hwait : ∀ u, t ≤ u → sinkReady (ω u) (run ω u) k = false := by
    intro u
    induction u using Nat.strong_induction_on with
    | _ u ih =>
      intro hu
      have hvalid := hoffer u hu fun v hv hvu => ih v hvu hv
      exact Bool.eq_false_iff.2 fun hready => hnever ⟨u, hu, hvalid, hready⟩
  have hwaits : ∀ d, Waits ω t d k := fun d =>
    ⟨fun u hu _ => hoffer u hu fun v hv _ => hwait v hv, fun u hu _ => hwait u hu⟩
  -- Once it is granted, it stays so up to an edge at which the slave is ready.
  obtain ⟨g, hg, hgrant⟩ := exists_granted hwaits hother
  obtain ⟨v, hgv, hready⟩ := hslave g
  have hstill := (hwaits v).granted hg hgv (Nat.le_add_left v t) hgrant
  have hslow := srcReady_of_waits hstill (hwait v (hg.trans hgv))
  exact absurd (hready.symm.trans hslow) Bool.true_eq_false.mp

/-- Both masters offer packets of one beat at every edge, and the slave is always ready. -/
def bothOffer (_ : ℕ) : Inp := ⟨fun _ => true, fun _ => ⟨0#94, 0#8, true, true⟩, true⟩

theorem beat_taken_bothOffer :
    ∃ u, 7 ≤ u ∧ (bothOffer u).sinkValid 1 = true ∧
      sinkReady (bothOffer u) (run bothOffer u) 1 = true :=
  beat_taken bothOffer 7 1 (fun _ _ _ => rfl) (fun u => ⟨u, le_rfl, rfl⟩) fun u _ hbusy => by
    have hends : Beat.ends ⟨0#94, 0#8, true, true⟩ = true := by decide
    refine ⟨u, le_rfl, (lastCycle_of_granted _ hbusy.1).trans ?_⟩
    simp only [bothOffer, hends, Bool.and_self]

end

end EmbeddedSystems.HostSystem.CmdMux
