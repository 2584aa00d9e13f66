import EmbeddedSystems.HostSystem.MasterPort
import EmbeddedSystems.HostSystem.SlavePort

/-!
# The interconnect

The module `HostSystem_mm_interconnect_0`: two masters, eight slaves, and what is between
them. A command goes from the port of a master through a router and a demultiplexer to the
slave, in front of which there is a multiplexer if it has two masters; a response goes from the
slave through a router and a demultiplexer to the multiplexer of a master. This one does not
arbitrate: it forms the sum of all responses, so there must never be two.

The invariant (`Inv`) tells the reads that are under way: a master has at most one, and
a slave keeps a header if and only if it is read. A slave thus answers only the master that
reads it (`Inv.rspValid_iff`), and no two slaves answer the same one.
-/

namespace EmbeddedSystems.HostSystem.Interconnect

open BitField

/-- The inputs at an edge of the clock. -/
structure Inp where
  dataMaster : AvMaster
  instructionMasterRead : Bool
  instructionMasterAddress : BitVec 18
  slave : (s : Slave) → AvSlave s.params

/-- The registers: those of the translators and of the agents of the masters, of the multiplexers
    in front of the slaves with two masters, and of the ports of the slaves. -/
structure State where
  translator : Master → MasterTranslator.State
  holdWaitrequest : Master → Bool
  cmdMux : Slave → CmdMux.State
  port : (s : Slave) → SlavePort.State s.params

/-- What a master drives; `cpu_instruction_master` only reads, and whole words. -/
def Inp.avMaster (x : Inp) : Master → AvMaster
  | .cpuDataMaster => x.dataMaster
  | .cpuInstructionMaster =>
    ⟨x.instructionMasterRead, false, x.instructionMasterAddress, 0b1111#4, 0#32, false⟩

theorem Master.index_lt (m : Master) : m.index < 2 := by
  cases m <;> decide

def Master.sink (m : Master) : Fin 2 := ⟨m.index, m.index_lt⟩

def Master.ofSink (i : Fin 2) : Master :=
  if i.val = 0 then .cpuDataMaster else .cpuInstructionMaster

/-- The number of the slaves of a master. -/
def Master.numOutputs : Master → ℕ
  | .cpuDataMaster => 8
  | .cpuInstructionMaster => 2

def Slave.masters (s : Slave) : List Master :=
  if s.shared = true then [.cpuDataMaster, .cpuInstructionMaster] else [.cpuDataMaster]

section

variable (x : Inp) (σ : State) (m : Master) (s : Slave)

/-! ## Commands -/

def uav : UavMaster := MasterTranslator.uav m (x.avMaster m) (σ.translator m)

def cpValid : Bool := MasterAgent.cpValid (uav x σ m) (σ.holdWaitrequest m)

/-- The source of the router of a master. -/
def routed : CmdMux.Beat := router m (MasterAgent.cpData m (uav x σ m))

/-- The valid signal from the demultiplexer of a master to a slave. -/
def demuxValid : Bool := (routed x σ m).channel.getLsbD (s.channel m) && cpValid x σ m

/-- What the demultiplexer of a master offers to all slaves. -/
def demuxSrc : CmdMux.Beat where
  data := (routed x σ m).data
  channel := (routed x σ m).channel >>> m.numOutputs
  startofpacket := (routed x σ m).startofpacket
  endofpacket := (routed x σ m).endofpacket

/-- The sinks of the multiplexer of a slave; its source does not depend on `src_ready`. -/
def sinks : CmdMux.Inp where
  sinkValid i := demuxValid x σ (Master.ofSink i) s
  sink i := demuxSrc x σ (Master.ofSink i)
  srcReady := false

/-- The command that a slave gets. -/
def cmdValid : Bool :=
  if s.shared = true then CmdMux.srcValid (sinks x σ s) (σ.cmdMux s)
  else demuxValid x σ .cpuDataMaster s

def cmd : CmdMux.Beat :=
  if s.shared = true then CmdMux.src (sinks x σ s) (σ.cmdMux s) else demuxSrc x σ .cpuDataMaster

def cmdReady : Bool := SlavePort.cpReady (cmdValid x σ s) (cmd x σ s) (x.slave s) (σ.port s)

/-- The inputs of the multiplexer of a slave. -/
def muxInp : CmdMux.Inp where
  sinkValid := (sinks x σ s).sinkValid
  sink := (sinks x σ s).sink
  srcReady := cmdReady x σ s

/-- The ready signal from a slave to the demultiplexer of a master. -/
def demuxReady : Bool :=
  if s.shared = true then CmdMux.sinkReady (muxInp x σ s) (σ.cmdMux s) m.sink
  else cmdReady x σ s

def cpReady : Bool :=
  m.slaves.any fun s => (routed x σ m).channel.getLsbD (s.channel m) && demuxReady x σ m s

def uavWaitrequest : Bool := MasterAgent.avWaitrequest (cpReady x σ m) (σ.holdWaitrequest m)

/-! ## Responses -/

/-- The channel of a response. -/
def rpChannel : BitVec 8 := responseChannel s (SlavePort.rpData (x.slave s) (σ.port s))

/-- The valid signal from the demultiplexer of a slave to a master. -/
def rspValid : Bool := (rpChannel x σ s).getLsbD m.index && SlavePort.rpValid (σ.port s)

/-- What the demultiplexer of a slave offers to its masters. -/
def rspSrc : CmdMux.Beat where
  data := (SlavePort.rp (x.slave s) (σ.port s)).data
  channel := rpChannel x σ s >>> s.masters.length
  startofpacket := (SlavePort.rp (x.slave s) (σ.port s)).startofpacket
  endofpacket := (SlavePort.rp (x.slave s) (σ.port s)).endofpacket

/-- The wire `src_payload` of the multiplexer of a master, which grants all requests. -/
def rspMuxPayload : BitVec (8 + 94 + 1 + 1) :=
  m.slaves.foldr
    (fun s v => ((rspSrc x σ s).payload &&& CmdMux.replicate (rspValid x σ m s)) ||| v) 0#_

def rspMuxValid : Bool := m.slaves.any fun s => rspValid x σ m s && rspValid x σ m s

def rsp : CmdMux.Beat := CmdMux.Beat.ofPayload (rspMuxPayload x σ m)

/-- The agents of the masters are always ready. -/
def rpReady : Bool :=
  s.masters.any fun m => (rpChannel x σ s).getLsbD m.index && rspValid x σ m s

/-! ## The outputs to the masters -/

def avReaddata : BitVec 32 := Pkt.data.get (rsp x σ m).data

def avWaitrequest : Bool :=
  MasterTranslator.avWaitrequest m (x.avMaster m) (σ.translator m) (uavWaitrequest x σ m)
    (rspMuxValid x σ m)

/-! ## The clock -/

/-- All blocks, at a rising edge of the clock. -/
def clock : State where
  translator m := MasterTranslator.clock m (x.avMaster m) (σ.translator m) (uavWaitrequest x σ m)
    (rspMuxValid x σ m)
  holdWaitrequest _ := false
  cmdMux s := CmdMux.clock (muxInp x σ s) (σ.cmdMux s)
  port s := SlavePort.clock (cmdValid x σ s) (cmd x σ s) (x.slave s) (rpReady x σ s) (σ.port s)

end

def resetState : State where
  translator _ := MasterTranslator.resetState
  holdWaitrequest _ := true
  cmdMux _ := CmdMux.resetState
  port s := SlavePort.resetState s.params

/-- The state before the rising edge `t` of the clock, from the reset on. -/
def run (ω : ℕ → Inp) : ℕ → State
  | 0 => resetState
  | t + 1 => clock (ω t) (run ω t)

/-! ## The way of a command -/

variable {x : Inp} {σ : State} {m : Master} {s : Slave}

theorem Master.ofSink_sink (m : Master) : Master.ofSink m.sink = m := by
  cases m <;> rfl

theorem Master.sink_ofSink (i : Fin 2) : (Master.ofSink i).sink = i := by
  match i with
  | 0 => rfl
  | 1 => rfl

/-- The slave that the request of a master is for. -/
def target (x : Inp) (m : Master) : Slave := addressed m (x.avMaster m).address

theorem target_mem (x : Inp) (m : Master) : target x m ∈ m.slaves := addressed_mem m _

theorem getLsbD_routed_channel (x : Inp) (σ : State) (hs : s ∈ m.slaves) :
    (routed x σ m).channel.getLsbD (s.channel m) = decide (s = target x m) := by
  have hchannel : (routed x σ m).channel =
    (decodeAddress m (Pkt.addr.get (MasterAgent.cpData m (uav x σ m)))).1 := rfl
  rw [hchannel, get_addr_cpData, decodeAddress_eq, addressed_aligned]
  exact getLsbD_channel hs (target_mem x m)

theorem demuxValid_eq (x : Inp) (σ : State) (hs : s ∈ m.slaves) :
    demuxValid x σ m s = (decide (s = target x m) && cpValid x σ m) := by
  rw [demuxValid, getLsbD_routed_channel x σ hs]

theorem cpReady_eq (x : Inp) (σ : State) (m : Master) :
    cpReady x σ m = demuxReady x σ m (target x m) := by
  rw [cpReady, Bool.eq_iff_iff, List.any_eq_true]
  constructor
  · rintro ⟨s, hs, hready⟩
    rw [getLsbD_routed_channel x σ hs, Bool.and_eq_true, decide_eq_true_iff] at hready
    exact hready.1 ▸ hready.2
  · intro hready
    refine ⟨target x m, target_mem x m, ?_⟩
    rw [getLsbD_routed_channel x σ (target_mem x m), decide_eq_true rfl, hready, Bool.and_self]

/-- The commands of a master reach a slave, where the multiplexer grants the master, if there is
    one. -/
def Granted (σ : State) (m : Master) (s : Slave) : Prop :=
  s ∈ m.slaves ∧ (s.shared = true → (σ.cmdMux s).savedGrant = Arbitrator.oneHot m.sink)

theorem Granted.cmd (h : Granted σ m s) : cmd x σ s = demuxSrc x σ m := by
  rw [Interconnect.cmd]
  split_ifs with hshared
  · rw [CmdMux.src_of_granted _ (h.2 hshared)]
    exact congrArg (demuxSrc x σ) (Master.ofSink_sink m)
  · rw [((mem_slaves_iff m s).1 h.1).resolve_left hshared]

theorem Granted.cmdValid (h : Granted σ m s) :
    cmdValid x σ s = (decide (s = target x m) && cpValid x σ m) := by
  rw [← demuxValid_eq x σ h.1, Interconnect.cmdValid]
  split_ifs with hshared
  · rw [CmdMux.srcValid_of_granted _ (h.2 hshared)]
    exact congrArg (fun m => demuxValid x σ m s) (Master.ofSink_sink m)
  · rw [((mem_slaves_iff m s).1 h.1).resolve_left hshared]

theorem getLsbD_savedGrant (h : Granted σ m s) (hshared : s.shared = true) (m' : Master) :
    (σ.cmdMux s).savedGrant.getLsbD m'.sink = decide (m' = m) := by
  rw [h.2 hshared, Bool.eq_iff_iff, Arbitrator.getLsbD_oneHot, decide_eq_true_iff]
  exact ⟨fun heq => by rw [← Master.ofSink_sink m', heq, Master.ofSink_sink],
    fun heq => congrArg Master.sink heq⟩

theorem Granted.demuxReady (h : Granted σ m s) : demuxReady x σ m s = cmdReady x σ s := by
  rw [Interconnect.demuxReady]
  split_ifs with hshared
  · rw [CmdMux.sinkReady, getLsbD_savedGrant h hshared, decide_eq_true rfl, Bool.and_true]
    rfl
  · rfl

/-- A slave is ready only for a master that is granted. -/
theorem granted_of_demuxReady (hmux : CmdMux.Inv (σ.cmdMux s)) (hs : s ∈ m.slaves)
    (hready : demuxReady x σ m s = true) : Granted σ m s := by
  refine ⟨hs, fun hshared => ?_⟩
  rw [Interconnect.demuxReady, if_pos hshared, CmdMux.sinkReady, Bool.and_eq_true] at hready
  rcases hmux.grant with hzero | ⟨i, hi⟩
  · rw [hzero, BitVec.getLsbD_zero] at hready
    exact absurd hready.2 Bool.false_ne_true
  · rw [hi, Arbitrator.getLsbD_oneHot] at hready
    rw [hi, hready.2]

/-- A command is the one of a master that is granted. -/
theorem exists_granted (hmux : CmdMux.Inv (σ.cmdMux s)) (hvalid : cmdValid x σ s = true) :
    ∃ m, Granted σ m s := by
  by_cases hshared : s.shared = true
  · rcases hmux.grant with hzero | ⟨i, hi⟩
    · rw [Interconnect.cmdValid, if_pos hshared, CmdMux.srcValid_of_no_grant _ hzero] at hvalid
      exact absurd hvalid Bool.false_ne_true
    · refine ⟨Master.ofSink i, (mem_slaves_iff _ s).2 (Or.inl hshared), fun _ => ?_⟩
      rw [hi, Master.sink_ofSink]
  · exact ⟨.cpuDataMaster, (mem_slaves_iff _ s).2 (Or.inr rfl), fun h => absurd h hshared⟩

/-- The request of a master is accepted. -/
def accepts (x : Inp) (σ : State) (m : Master) : Bool :=
  MasterTranslator.accepts m (x.avMaster m) (σ.translator m) (uavWaitrequest x σ m)

theorem accepts_eq (x : Inp) (σ : State) (m : Master) :
    accepts x σ m = (cpValid x σ m && cpReady x σ m) := by
  have hvalid : cpValid x σ m = ((MasterTranslator.uavWrite m (x.avMaster m) (σ.translator m) ||
    MasterTranslator.uavRead (x.avMaster m) (σ.translator m)) && !σ.holdWaitrequest m) := rfl
  rw [accepts, MasterTranslator.accepts, uavWaitrequest, MasterAgent.avWaitrequest, hvalid,
    Bool.not_or, Bool.not_not, Bool.and_assoc,
    Bool.or_comm (MasterTranslator.uavRead (x.avMaster m) (σ.translator m))]

/-- The request of a master is accepted when its slave accepts the command of the master. -/
theorem accepts_iff (hmux : ∀ s, CmdMux.Inv (σ.cmdMux s)) :
    accepts x σ m = true ↔ Granted σ m (target x m) ∧
      (cmdValid x σ (target x m) && cmdReady x σ (target x m)) = true := by
  rw [accepts_eq, Bool.and_eq_true, Bool.and_eq_true, cpReady_eq]
  constructor
  · rintro ⟨hvalid, hready⟩
    have hgrant := granted_of_demuxReady (hmux _) (target_mem x m) hready
    refine ⟨hgrant, ?_, ?_⟩
    · rw [hgrant.cmdValid, decide_eq_true rfl, hvalid, Bool.and_self]
    · rwa [← hgrant.demuxReady]
  · rintro ⟨hgrant, hvalid, hready⟩
    rw [hgrant.cmdValid, Bool.and_eq_true] at hvalid
    exact ⟨hvalid.2, by rwa [hgrant.demuxReady]⟩

/-- A slave accepts no other commands. -/
theorem exists_accepts (hmux : ∀ s, CmdMux.Inv (σ.cmdMux s))
    (h : (cmdValid x σ s && cmdReady x σ s) = true) :
    ∃ m, accepts x σ m = true ∧ target x m = s := by
  have hvalid := (Bool.and_eq_true_iff.1 h).1
  obtain ⟨m, hgrant⟩ := exists_granted (hmux s) hvalid
  rw [hgrant.cmdValid, Bool.and_eq_true, decide_eq_true_iff] at hvalid
  refine ⟨m, (accepts_iff hmux).2 ?_, hvalid.1.symm⟩
  rw [← hvalid.1]
  exact ⟨hgrant, h⟩

/-! ### The packet -/

section

variable (x : Inp) (σ : State) (m : Master)

theorem get_srcId_demuxSrc : Pkt.srcId.get (demuxSrc x σ m).data = m.id := by
  simp (disch := decide) only [demuxSrc, routed, router, Field.get_set_of_disjoint,
    get_srcId_cpData]

theorem flag_transRead_demuxSrc :
    Pkt.transRead.flag (demuxSrc x σ m).data =
      MasterTranslator.uavRead (x.avMaster m) (σ.translator m) := by
  simp (disch := decide) only [demuxSrc, routed, router, Field.flag_set_of_disjoint,
    flag_transRead_cpData]
  rfl

theorem flag_transWrite_demuxSrc :
    Pkt.transWrite.flag (demuxSrc x σ m).data =
      MasterTranslator.uavWrite m (x.avMaster m) (σ.translator m) := by
  simp (disch := decide) only [demuxSrc, routed, router, Field.flag_set_of_disjoint,
    flag_transWrite_cpData]
  rfl

end

theorem isWord_demuxSrc
    (hheld : MasterTranslator.Held m (x.avMaster m) (σ.translator m))
    (hvalid : cpValid x σ m = true) : SlavePort.IsWord (demuxSrc x σ m) where
  compressed := by
    simp (disch := decide) only [demuxSrc, routed, router, Field.flag_set_of_disjoint,
      flag_transCompressedRead_cpData]
  posted := by
    simp (disch := decide) only [demuxSrc, routed, router, Field.flag_set_of_disjoint,
      flag_transPosted_cpData, flag_transWrite_cpData]
  read_or_write := by
    have hor : (MasterTranslator.uavWrite m (x.avMaster m) (σ.translator m) ||
        MasterTranslator.uavRead (x.avMaster m) (σ.translator m)) = true :=
      (Bool.and_eq_true_iff.1 hvalid).1
    rw [flag_transRead_demuxSrc, flag_transWrite_demuxSrc]
    cases hr : (x.avMaster m).read with
    | false =>
      rw [MasterTranslator.uavRead_of_not_read hr] at hor ⊢
      rw [Bool.or_false] at hor
      rw [hor, Bool.not_true]
    | true =>
      have hnot := MasterTranslator.uavWrite_of_not_write (m := m) (s := σ.translator m)
        (hheld.one hr)
      rw [hnot] at hor ⊢
      rw [Bool.false_or] at hor
      rw [hor, Bool.not_false]

/-! ## The invariant -/

/-- The slave that a master reads at the last edge is `reading`, and the command that a slave
    has to answer is `last`. -/
structure Inv (x : Inp) (σ : State) (reading : Master → Option Slave)
    (last : Slave → Option CmdMux.Beat) : Prop where
  reset : ∃ b, (∀ m, σ.holdWaitrequest m = b) ∧
    ∀ s, (σ.port s).translator.waitrequestResetOverride = b
  mux : ∀ s, CmdMux.Inv (σ.cmdMux s)
  port : ∀ s, SlavePort.Holds (σ.port s) (last s)
  held : ∀ m, MasterTranslator.Held m (x.avMaster m) (σ.translator m)
  readAccepted : ∀ m, (σ.translator m).readAccepted = (reading m).isSome
  reading_mem : ∀ m, ∀ s ∈ reading m, s ∈ m.slaves
  last_of_reading : ∀ m, ∀ s ∈ reading m, ∃ cp ∈ last s, Pkt.srcId.get cp.data = m.id
  reading_of_last : ∀ s, ∀ cp ∈ last s, ∃ m, reading m = some s ∧ Pkt.srcId.get cp.data = m.id

variable {reading : Master → Option Slave} {last : Slave → Option CmdMux.Beat}

/-! ### Responses -/

theorem Inv.rspValid_iff (h : Inv x σ reading last) (m : Master) (s : Slave) :
    rspValid x σ m s = true ↔ reading m = some s := by
  rw [rspValid, (h.port s).rpValid]
  cases hlast : last s with
  | none =>
    refine ⟨fun hvalid => absurd hvalid (by rw [Option.isSome_none, Bool.and_false]; decide),
      fun hreading => ?_⟩
    obtain ⟨cp, hcp, -⟩ := h.last_of_reading m s hreading
    exact absurd (hlast ▸ hcp) (Option.not_mem_none cp)
  | some cp =>
    obtain ⟨m', hreading', hid⟩ := h.reading_of_last s cp hlast
    have hport := hlast ▸ h.port s
    have hchannel : rpChannel x σ s = 1#8 <<< m'.index :=
      responseChannel_eq (h.reading_mem m' s hreading')
        (hport.get_destId_rpData.trans hid) hport.flag_transRead_rpData
    rw [hchannel, getLsbD_index, Option.isSome_some, Bool.and_true, decide_eq_true_iff]
    constructor
    · rintro rfl
      exact hreading'
    · intro hreading
      obtain ⟨cp', hcp', hid'⟩ := h.last_of_reading m s hreading
      rw [hlast, Option.mem_some_iff] at hcp'
      exact Master.id_injective (hid'.symm.trans (hcp' ▸ hid))

theorem Inv.rspMuxValid (h : Inv x σ reading last) (m : Master) :
    rspMuxValid x σ m = (σ.translator m).readAccepted := by
  rw [h.readAccepted, Interconnect.rspMuxValid, Bool.eq_iff_iff, List.any_eq_true,
    Option.isSome_iff_exists]
  simp only [Bool.and_self, h.rspValid_iff]
  exact ⟨fun ⟨s, _, hs⟩ => ⟨s, hs⟩, fun ⟨s, hs⟩ => ⟨s, h.reading_mem m s hs, hs⟩⟩

/-- The sum of the responses is the only one that is valid. -/
theorem foldr_payload {valid : Slave → Bool} {b : Slave → CmdMux.Beat} {l : List Slave}
    (hs : s ∈ l) (h : ∀ s', valid s' = true ↔ s' = s) :
    l.foldr (fun s v => ((b s).payload &&& CmdMux.replicate (valid s)) ||| v) 0#_ =
      (b s).payload := by
  have hfold : ∀ l : List Slave,
      l.foldr (fun s v => ((b s).payload &&& CmdMux.replicate (valid s)) ||| v) 0#_ =
        if s ∈ l then (b s).payload else 0#_ := by
    intro l
    induction l with
    | nil => rfl
    | cons s' l ih =>
      rw [List.foldr_cons, ih]
      by_cases heq : s' = s
      · subst heq
        rw [(h s').2 rfl, CmdMux.replicate_true, if_pos List.mem_cons_self]
        split_ifs
        · exact BitVec.or_self
        · exact BitVec.or_zero
      · rw [Bool.eq_false_iff.2 fun hv => heq ((h s').1 hv), CmdMux.replicate_false,
          BitVec.zero_or]
        simp only [List.mem_cons, Ne.symm heq, false_or]
  rw [hfold, if_pos hs]

/-- A master that reads gets the data of its slave. -/
theorem Inv.avReaddata (h : Inv x σ reading last) (hreading : reading m = some s) :
    avReaddata x σ m = SlavePort.rdata (x.slave s) (σ.port s) := by
  have hrsp : rsp x σ m = rspSrc x σ s := by
    rw [rsp, rspMuxPayload, foldr_payload (h.reading_mem m s hreading), CmdMux.ofPayload_payload]
    intro s'
    rw [h.rspValid_iff, hreading, Option.some_inj]
    exact eq_comm
  rw [Interconnect.avReaddata, hrsp]
  exact SlavePort.get_data_rpData _ _

theorem Inv.rpReady (h : Inv x σ reading last) (hlast : (last s).isSome = true) :
    rpReady x σ s = true := by
  obtain ⟨cp, hcp⟩ := Option.isSome_iff_exists.1 hlast
  obtain ⟨m, hreading, -⟩ := h.reading_of_last s cp hcp
  have hvalid := (h.rspValid_iff m s).2 hreading
  have hchannel := (Bool.and_eq_true_iff.1 hvalid).1
  have hmasters : m ∈ s.masters := by
    have hmem := (mem_slaves_iff m s).1 (h.reading_mem m s hreading)
    rw [Slave.masters]
    split_ifs with hshared
    · cases m <;> decide
    · exact List.mem_singleton.2 (hmem.resolve_left hshared)
  rw [Interconnect.rpReady, List.any_eq_true]
  exact ⟨m, hmasters, by rw [hchannel, hvalid, Bool.and_self]⟩

/-! ### The step -/

/-- The slaves whose reads are accepted at an edge. -/
def readingNext (x : Inp) (σ : State) (m : Master) : Option Slave :=
  if accepts x σ m && MasterTranslator.uavRead (x.avMaster m) (σ.translator m) then
    some (target x m)
  else none

/-- The commands to be answered that are accepted at an edge. -/
def lastNext (x : Inp) (σ : State) (s : Slave) : Option CmdMux.Beat :=
  SlavePort.accepted (cmdValid x σ s) (cmd x σ s) (x.slave s) (σ.port s)

/-- No master reads and writes at once. -/
def Inp.Single (x : Inp) : Prop := x.dataMaster.read = true → x.dataMaster.write = false

/-- Every master that has to wait holds its request. -/
def Keeps (x : Inp) (σ : State) (x' : Inp) : Prop :=
  ∀ m, ((x.avMaster m).read || (x.avMaster m).write) = true → avWaitrequest x σ m = true →
    x'.avMaster m = x.avMaster m

theorem held_of_not_accepted (hx : x.Single) {s : MasterTranslator.State}
    (hr : s.readAccepted = false) (hw : s.writeAccepted = false) :
    MasterTranslator.Held m (x.avMaster m) s where
  read h := absurd h (by rw [hr]; exact Bool.false_ne_true)
  write h := absurd h (by rw [hw]; exact Bool.false_ne_true)
  one := by
    cases m with
    | cpuDataMaster => exact hx
    | cpuInstructionMaster => exact fun _ => rfl
  useWrite h := by
    cases m with
    | cpuDataMaster => rfl
    | cpuInstructionMaster => exact absurd h Bool.false_ne_true

theorem Inv.step (h : Inv x σ reading last) (m : Master) :
    MasterTranslator.Step m (x.avMaster m) (σ.translator m) ((clock x σ).translator m)
      (uavWaitrequest x σ m) := by
  have hclock : (clock x σ).translator m = MasterTranslator.clock m (x.avMaster m)
    (σ.translator m) (uavWaitrequest x σ m) (Interconnect.rspMuxValid x σ m) := rfl
  rw [hclock, h.rspMuxValid]
  exact MasterTranslator.step (h.held m) _

theorem Inv.isWord_cmd (h : Inv x σ reading last) (hvalid : cmdValid x σ s = true) :
    SlavePort.IsWord (cmd x σ s) := by
  obtain ⟨m, hgrant⟩ := exists_granted (h.mux s) hvalid
  rw [hgrant.cmdValid, Bool.and_eq_true] at hvalid
  rw [hgrant.cmd]
  exact isWord_demuxSrc (h.held m) hvalid.2

/-- There is no command at the first edge. -/
theorem Inv.cmdValid_of_reset (h : Inv x σ reading last)
    (hreset : (σ.port s).translator.waitrequestResetOverride = true) :
    cmdValid x σ s = false := by
  obtain ⟨b, hhold, hoverride⟩ := h.reset
  by_contra hvalid
  rw [Bool.not_eq_false] at hvalid
  obtain ⟨m, hgrant⟩ := exists_granted (h.mux s) hvalid
  rw [hgrant.cmdValid, Bool.and_eq_true, cpValid, MasterAgent.cpValid, hhold m, ← hoverride s,
    hreset, Bool.not_true, Bool.and_false] at hvalid
  exact Bool.false_ne_true hvalid.2

theorem Inv.held_clock (h : Inv x σ reading last) {x' : Inp} (hx' : x'.Single)
    (hkeeps : Keeps x σ x') (m : Master) :
    MasterTranslator.Held m (x'.avMaster m) ((clock x σ).translator m) := by
  have hheld := h.held m
  rcases h.step m with ⟨-, hs', -, -⟩ | ⟨-, hs', -, hcompletes⟩ | ⟨-, hs', -, -⟩ | ⟨-, hs', -, -, -⟩
  · exact held_of_not_accepted hx' hs'.1 hs'.2
  · -- The request is accepted and not yet completed.
    have hsame : ((x.avMaster m).read || (x.avMaster m).write) = true →
        x'.avMaster m = x.avMaster m := fun hor => by
      refine hkeeps m hor ?_
      rw [MasterTranslator.completes, hor, Bool.true_and, Bool.not_eq_false', ← h.rspMuxValid]
        at hcompletes
      exact hcompletes
    exact {
      read := fun hr => by
        rw [hs'.1] at hr
        rw [hsame (by rw [hr, Bool.true_or])]
        exact hr
      write := fun hw => by
        rw [hs'.2] at hw
        rw [hsame (by rw [hw, Bool.or_true])]
        exact hw
      one := (held_of_not_accepted (s := MasterTranslator.resetState) hx' rfl rfl).one
      useWrite := (held_of_not_accepted (s := MasterTranslator.resetState) hx' rfl rfl).useWrite }
  · exact held_of_not_accepted hx' hs'.1 hs'.2
  · exact held_of_not_accepted hx' hs'.1 hs'.2

theorem Inv.readAccepted_clock (h : Inv x σ reading last) (m : Master) :
    ((clock x σ).translator m).readAccepted = (readingNext x σ m).isSome := by
  have hsome : (readingNext x σ m).isSome =
      (accepts x σ m && MasterTranslator.uavRead (x.avMaster m) (σ.translator m)) := by
    rw [readingNext]
    split_ifs with hread
    · rw [hread, Option.isSome_some]
    · rw [Bool.not_eq_true] at hread
      rw [hread, Option.isSome_none]
  rw [hsome]
  rcases h.step m with ⟨-, hs', hacc, -⟩ | ⟨hs, hs', hacc, -⟩ | ⟨-, hs', hacc, -⟩ |
    ⟨-, hs', hwrite, -, -⟩
  · rw [hs'.1, accepts, hacc, Bool.false_and]
  · rw [hs'.1, accepts, hacc, Bool.true_and, MasterTranslator.uavRead, hs.1, Bool.not_false,
      Bool.and_true]
    rfl
  · rw [hs'.1, accepts, hacc, Bool.false_and]
  · have hread : (x.avMaster m).read = false := by
      by_contra hread
      have hnot := (h.held m).one (Bool.not_eq_false _ ▸ hread)
      exact Bool.false_ne_true (hnot.symm.trans hwrite)
    rw [hs'.1, MasterTranslator.uavRead_of_not_read hread, Bool.and_false]

theorem Inv.clock (h : Inv x σ reading last) {x' : Inp} (hx' : x'.Single)
    (hkeeps : Keeps x σ x') : Inv x' (clock x σ) (readingNext x σ) (lastNext x σ) where
  reset := ⟨false, fun _ => rfl, fun _ => rfl⟩
  mux s := CmdMux.inv_clock _ (h.mux s)
  port s := (h.port s).clock h.isWord_cmd h.rpReady h.cmdValid_of_reset
  held := h.held_clock hx' hkeeps
  readAccepted := h.readAccepted_clock
  reading_mem m s hs := by
    rw [readingNext] at hs
    split_ifs at hs
    · rw [Option.mem_some_iff] at hs
      exact hs ▸ target_mem x m
    · exact absurd hs (Option.not_mem_none s)
  last_of_reading m s hs := by
    rw [readingNext] at hs
    split_ifs at hs with hread
    · rw [Option.mem_some_iff] at hs
      subst hs
      rw [Bool.and_eq_true] at hread
      obtain ⟨hgrant, hacc⟩ := (accepts_iff h.mux).1 hread.1
      have hcmd : cmd x σ (target x m) = demuxSrc x σ m := hgrant.cmd
      refine ⟨cmd x σ (target x m), ?_, by rw [hcmd, get_srcId_demuxSrc]⟩
      have hflag : Pkt.transRead.flag (cmd x σ (target x m)).data = true := by
        rw [hcmd, flag_transRead_demuxSrc, hread.2]
      rw [Option.mem_def, lastNext, SlavePort.accepted, if_pos]
      rw [Bool.and_eq_true]
      exact ⟨hacc, hflag⟩
    · exact absurd hs (Option.not_mem_none s)
  reading_of_last s cp hcp := by
    rw [lastNext, SlavePort.accepted] at hcp
    split_ifs at hcp with hacc
    · rw [Option.mem_some_iff] at hcp
      subst hcp
      rw [Bool.and_eq_true] at hacc
      obtain ⟨m, haccepts, rfl⟩ := exists_accepts h.mux hacc.1
      have hcmd : cmd x σ (target x m) = demuxSrc x σ m := ((accepts_iff h.mux).1 haccepts).1.cmd
      rw [hcmd, flag_transRead_demuxSrc] at hacc
      refine ⟨m, ?_, by rw [hcmd, get_srcId_demuxSrc]⟩
      rw [readingNext, haccepts, hacc.2, Bool.true_and, if_pos rfl]
    · exact absurd hcp (Option.not_mem_none cp)

/-! ## Runs -/

/-- The masters hold what they request while they have to wait, and no one reads and writes at
    once. -/
structure Obeys (ω : ℕ → Inp) : Prop where
  single : ∀ t, (ω t).Single
  keeps : ∀ t, Keeps (ω t) (run ω t) (ω (t + 1))

theorem inv_resetState (hx : x.Single) : Inv x resetState (fun _ => none) (fun _ => none) where
  reset := ⟨true, fun _ => rfl, fun _ => rfl⟩
  mux _ := CmdMux.inv_resetState
  port s := SlavePort.holds_resetState s.params
  held _ := held_of_not_accepted hx rfl rfl
  readAccepted _ := rfl
  reading_mem _ s hs := absurd hs (Option.not_mem_none s)
  last_of_reading _ s hs := absurd hs (Option.not_mem_none s)
  reading_of_last _ cp hcp := absurd hcp (Option.not_mem_none cp)

theorem inv_run {ω : ℕ → Inp} (h : Obeys ω) (t : ℕ) :
    ∃ reading last, Inv (ω t) (run ω t) reading last := by
  induction t with
  | zero => exact ⟨_, _, inv_resetState (h.single 0)⟩
  | succ t ih =>
    obtain ⟨reading, last, hinv⟩ := ih
    exact ⟨_, _, hinv.clock (h.single (t + 1)) (h.keeps t)⟩

end EmbeddedSystems.HostSystem.Interconnect
