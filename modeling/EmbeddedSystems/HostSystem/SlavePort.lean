import EmbeddedSystems.HostSystem.AddressMap
import EmbeddedSystems.HostSystem.ScFifo

/-!
# The port of a slave

The modules `altera_merlin_slave_agent` with its `altera_merlin_burst_uncompressor` and its
`altera_avalon_sc_fifo`, `altera_merlin_slave_translator`, and the adapter between them, as
the interconnect instantiates them for its slaves.

The agent takes the commands, hands them to the slave through the translator, and keeps the
header of every read in the FIFO until its data is there. With masters that send single
words, the port is after every edge as the command of this edge has left it (`Holds.clock`):
there is one header if it has accepted a read, and none otherwise.

Left out are the registers of the translator that no output depends on in these instances
(`address_reg`, `burstcount_reg`, `av_response_delayed`, and those of `av_chipselect`,
`av_outputenable`, `av_begintransfer` and `av_beginbursttransfer`).
-/

namespace EmbeddedSystems.HostSystem.Interconnect

open BitField

/-- The parameters of a translator that are not the same for all slaves. -/
structure SlaveParams where
  avAddressW : ℕ
  avDataW : ℕ
  avByteenableW : ℕ
  avReadlatency : ℕ
  avReadWaitCycles : ℕ
  useWaitrequest : Bool

def Slave.params : Slave → SlaveParams
  | .jtagUart => ⟨1, 32, 1, 0, 1, true⟩
  | .ledPwm => ⟨1, 32, 4, 0, 0, false⟩
  | .cpuDebugMem => ⟨9, 32, 4, 0, 1, true⟩
  | .sysClkTimer => ⟨3, 16, 1, 0, 1, false⟩
  | .memory => ⟨14, 32, 4, 1, 0, false⟩
  | .ledPio => ⟨3, 32, 1, 0, 1, false⟩
  | .dipswPio => ⟨2, 32, 1, 0, 1, false⟩
  | .keyPio => ⟨2, 32, 1, 0, 1, false⟩

/-- What a slave drives. -/
structure AvSlave (P : SlaveParams) where
  readdata : BitVec P.avDataW
  waitrequest : Bool

/-- What an agent drives, towards the translator. -/
structure UavSlave where
  read : Bool
  write : Bool
  address : BitVec 18
  burstcount : BitVec 3
  byteenable : BitVec 4
  writedata : BitVec 32
  lock : Bool
  debugaccess : Bool

/-! ## The translator -/

namespace SlaveTranslator

/-- `clog2_plusone`, the number of bits of a number. -/
def clog2Plusone (depth : ℕ) : ℕ := Nat.size depth

/-- `LOG2_OF_LATENCY_SUM`; the set-up, write and hold cycles of every slave are zero. -/
def log2OfLatencySum (P : SlaveParams) : ℕ :=
  max (clog2Plusone (P.avReadWaitCycles + 1)) (clog2Plusone 1)

/-- The registers; `read_latency_shift_reg` has one bit. -/
structure State (P : SlaveParams) where
  waitLatencyCounter : BitVec (log2OfLatencySum P)
  waitrequestResetOverride : Bool
  avReaddataPre : BitVec P.avDataW
  readLatencyShiftReg : Bool

def resetState (P : SlaveParams) : State P := ⟨0#_, true, 0#_, false⟩

section

variable {P : SlaveParams} (u : UavSlave) (y : AvSlave P) (s : State P)

/-- Whether the translator counts the wait states of the slave. -/
def counts (P : SlaveParams) : Bool := decide (1 < log2OfLatencySum P) && !P.useWaitrequest

def avRead : Bool := if counts P = true then decide (0#_ ≤ s.waitLatencyCounter) && u.read else u.read

def avWrite : Bool :=
  if counts P = true then
    decide (0#_ ≤ s.waitLatencyCounter) && u.write && decide (s.waitLatencyCounter ≤ 0#_)
  else u.write

def avWaitrequestGenerated : Bool :=
  if counts P = true then
    if u.write = true then decide (s.waitLatencyCounter ≠ 0#_)
    else decide (s.waitLatencyCounter ≠ BitVec.ofNat _ P.avReadWaitCycles)
  else decide (log2OfLatencySum P ≠ 1)

def uavWaitrequest : Bool :=
  if P.useWaitrequest = true then y.waitrequest
  else avWaitrequestGenerated u s || s.waitrequestResetOverride

def uavReaddata : BitVec 32 :=
  if P.avReadlatency ≠ 0 then y.readdata.setWidth 32 else s.avReaddataPre.setWidth 32

/-- The output `uav_readdatavalid`; `AV_READLATENCY` is zero or one. -/
def uavReaddatavalid : Bool := s.readLatencyShiftReg

/-- All blocks, at a rising edge of the clock. -/
def clock : State P where
  waitLatencyCounter :=
    if !uavWaitrequest u y s || s.waitrequestResetOverride then 0#_
    else if u.read || u.write then s.waitLatencyCounter + 1#_
    else 0#_
  waitrequestResetOverride := false
  avReaddataPre := y.readdata
  readLatencyShiftReg := u.read && !uavWaitrequest u y s && !s.waitrequestResetOverride

end

variable {P : SlaveParams}

theorem avRead_eq (u : UavSlave) (s : State P) : avRead u s = u.read := by
  have hsetup : 0#_ ≤ s.waitLatencyCounter := BitVec.le_def.2 (Nat.zero_le _)
  rw [avRead, decide_eq_true hsetup, Bool.true_and, ite_self]

theorem log2OfLatencySum_pos (P : SlaveParams) : 1 ≤ log2OfLatencySum P := le_max_right _ _

/-- The write signal of a slave without `waitrequest` is active only at the edge at which the
    command is accepted. -/
theorem avWrite_eq (u : UavSlave) (y : AvSlave P) (s : State P)
    (h : s.waitrequestResetOverride = false) :
    (avWrite u s && !(P.useWaitrequest && y.waitrequest)) =
      (u.write && !uavWaitrequest u y s) := by
  rw [avWrite, uavWaitrequest, avWaitrequestGenerated, counts, h]
  cases hwait : P.useWaitrequest with
  | true => simp
  | false =>
    cases hwrite : u.write with
    | false => simp
    | true =>
      have hpos := log2OfLatencySum_pos P
      rcases hpos.eq_or_lt with hone | hlt
      · simp [← hone]
      · have hzero : s.waitLatencyCounter ≤ 0#_ ↔ s.waitLatencyCounter = 0#_ := by
          rw [BitVec.le_def, BitVec.toNat_ofNat, Nat.zero_mod, Nat.le_zero, ← BitVec.toNat_inj,
            BitVec.toNat_ofNat, Nat.zero_mod]
        have hsetup : 0#_ ≤ s.waitLatencyCounter := BitVec.le_def.2 (Nat.zero_le _)
        simp [hlt, hzero, hsetup]

end SlaveTranslator

/-! ## The burst uncompressor -/

namespace BurstUncompressor

/-- The sink, as the agent drives it. -/
structure Inp where
  startofpacket : Bool
  endofpacket : Bool
  valid : Bool
  addr : BitVec 18
  burstwrap : BitVec 3
  byteCnt : BitVec 3
  isCompressed : Bool
  burstsize : BitVec 3
  sourceReady : Bool

structure State where
  busy : Bool
  byteCounter : BitVec 4
  addressBase : BitVec 18
  addressOffset : BitVec 18

def resetState : State := ⟨false, 0#4, 0#18, 0#18⟩

variable (x : Inp) (s : State)

def firstPacketBeat : Bool := x.valid && !s.busy

def sourceByteCnt : BitVec 3 :=
  if firstPacketBeat x s = true then x.byteCnt else s.byteCounter.setWidth 3

def lastPacketBeat : Bool :=
  !x.isCompressed ||
    if s.busy = true then x.valid && decide (s.byteCounter.setWidth 3 = 4#3)
    else x.valid && decide (x.byteCnt = 4#3)

def addrWidthBurstwrap : BitVec 18 := x.burstwrap.signExtend 18

def decodedBurstsize : BitVec 18 := 1#18 <<< x.burstsize.toNat

def sourceAddr : BitVec 18 :=
  if firstPacketBeat x s = true then x.addr else s.addressBase ||| s.addressOffset

def sourceStartofpacket : Bool := x.startofpacket && !s.busy

def sourceEndofpacket : Bool := x.endofpacket && lastPacketBeat x s

def sinkReady : Bool := x.valid && x.sourceReady && lastPacketBeat x s

/-- All blocks, at a rising edge of the clock. -/
def clock : State where
  busy :=
    if x.valid && x.sourceReady && x.valid then !lastPacketBeat x s else s.busy
  byteCounter :=
    if x.valid && x.sourceReady && x.valid then
      if lastPacketBeat x s = true then 0#4
      else if s.busy = true then
        if 0#4 < s.byteCounter then (s.byteCounter.setWidth 3).setWidth 4 - 4#4
        else x.byteCnt.setWidth 4 - 4#4
      else x.byteCnt.setWidth 4 - 4#4
    else s.byteCounter
  addressBase :=
    if firstPacketBeat x s && x.sourceReady then x.addr &&& ~~~addrWidthBurstwrap x
    else s.addressBase
  addressOffset :=
    if x.sourceReady && x.valid then
      ((if firstPacketBeat x s = true then x.addr else s.addressOffset) + decodedBurstsize x) &&&
        addrWidthBurstwrap x
    else s.addressOffset

end BurstUncompressor

/-! ## The agent -/

/-- What the FIFO of an agent holds for a command: the header, with a bit for the responses that
    the slave does not give, and the ends of the packet. -/
structure RspEntry where
  data : BitVec 95
  startofpacket : Bool
  endofpacket : Bool

namespace SlaveAgent

/-- The bit `needs_response_synthesis` of a header. -/
def responseSynthesis : Field 1 := ⟨94⟩

section Command

variable (valid : Bool) (cp : CmdMux.Beat) (rfSourceReady m0Waitrequest : Bool)

def localLock : Bool := valid && Pkt.transLock.flag cp.data

def localWrite : Bool := valid && Pkt.transWrite.flag cp.data

def localRead : Bool := valid && Pkt.transRead.flag cp.data

def localCompressedRead : Bool := valid && Pkt.transCompressedRead.flag cp.data

def nonpostedWriteEndofpacket : Bool :=
  !Pkt.transPosted.flag cp.data && localWrite valid cp && cp.endofpacket

/-- `PREVENT_FIFO_OVERFLOW` is one. -/
def readyForCommand : Bool := rfSourceReady

/-- `SUPPRESS_0_BYTEEN_CMD` is zero. -/
def suppressCmd : Bool := false

def cpReady : Bool := (!m0Waitrequest || suppressCmd) && readyForCommand rfSourceReady

def m0Read : Bool :=
  readyForCommand rfSourceReady && !suppressCmd &&
    (localCompressedRead valid cp || localRead valid cp)

def m0Write : Bool := readyForCommand rfSourceReady && localWrite valid cp && !suppressCmd

/-- All outputs to the translator. -/
def m0 : UavSlave where
  read := m0Read valid cp rfSourceReady
  write := m0Write valid cp rfSourceReady
  address := (Field.low 2).set 0#2 (Pkt.addr.get cp.data)
  burstcount :=
    if localRead valid cp && !localCompressedRead valid cp then 4#3 else Pkt.byteCnt.get cp.data
  byteenable := Pkt.byteen.get cp.data
  writedata := Pkt.data.get cp.data
  lock := readyForCommand rfSourceReady && localLock valid cp &&
    (m0Read valid cp rfSourceReady || m0Write valid cp rfSourceReady)
  debugaccess := (Pkt.protection.get cp.data).getLsbD 0

/-- `USE_WRITERESPONSE` is zero. -/
def needsResponseSynthesis : Bool :=
  ((localRead valid cp || localCompressedRead valid cp) && suppressCmd) ||
    nonpostedWriteEndofpacket valid cp

def rfSourceValid : Bool :=
  (localRead valid cp || localCompressedRead valid cp || nonpostedWriteEndofpacket valid cp) &&
    readyForCommand rfSourceReady && cpReady rfSourceReady m0Waitrequest

def rfSourceData : BitVec 95 :=
  cp.data.setWidth 95
  |> responseSynthesis.setFlag (needsResponseSynthesis valid cp)
  |> Pkt.data.set 0#32
  |> Pkt.byteen.set (Pkt.byteen.get cp.data)
  |> Pkt.addr.set (Pkt.addr.get cp.data)
  |> Pkt.transCompressedRead.setFlag (Pkt.transCompressedRead.flag cp.data)
  |> Pkt.transPosted.setFlag (Pkt.transPosted.flag cp.data)
  |> Pkt.transWrite.setFlag (Pkt.transWrite.flag cp.data)
  |> Pkt.transRead.setFlag (Pkt.transRead.flag cp.data)
  |> Pkt.srcId.set (Pkt.srcId.get cp.data)
  |> Pkt.destId.set (Pkt.destId.get cp.data)
  |> Pkt.byteCnt.set (Pkt.byteCnt.get cp.data)
  |> Pkt.burstwrap.set (Pkt.burstwrap.get cp.data)
  |> Pkt.burstSize.set (Pkt.burstSize.get cp.data)
  |> Pkt.protection.set (0#2 ++ BitVec.ofBool ((Pkt.protection.get cp.data).getLsbD 0))

/-- The header of a command. -/
def rfSource : RspEntry := ⟨rfSourceData valid cp, cp.startofpacket, cp.endofpacket⟩

end Command

section Response

variable (rfSinkValid : Bool) (e : RspEntry) (rdataValid : Bool) (rdata : BitVec 32)
  (rpReady : Bool) (s : BurstUncompressor.State)

def generateResponse : Bool := responseSynthesis.flag e.data

/-- `m0_response` is not connected, and the adapter reports no error. -/
def currentResponse : BitVec 2 := if generateResponse e = true then 0b00#2 else 0b00#2 ||| 0b00#2

/-- The sink of the instance `uncompressor`. -/
def uncompressor : BurstUncompressor.Inp where
  startofpacket := if Pkt.transWrite.flag e.data = true then true else e.startofpacket
  endofpacket := e.endofpacket
  valid := rfSinkValid && (rdataValid || generateResponse e)
  addr := Pkt.addr.get e.data
  burstwrap := Pkt.burstwrap.get e.data
  byteCnt := Pkt.byteCnt.get e.data
  isCompressed := Pkt.transCompressedRead.flag e.data
  burstsize := Pkt.burstSize.get e.data
  sourceReady := rpReady

def rpValid : Bool := rdataValid || (uncompressor rfSinkValid e rdataValid rpReady).valid

def rpData : BitVec 94 :=
  let x := uncompressor rfSinkValid e rdataValid rpReady
  e.data.setWidth 94
  |> Pkt.data.set rdata
  |> Pkt.transPosted.setFlag (Pkt.transPosted.flag e.data)
  |> Pkt.transWrite.setFlag (Pkt.transWrite.flag e.data)
  |> Pkt.srcId.set (Pkt.destId.get e.data)
  |> Pkt.destId.set (Pkt.srcId.get e.data)
  |> Pkt.byteen.set (Pkt.byteen.get e.data)
  |> Pkt.protection.set (Pkt.protection.get e.data)
  |> Pkt.addr.set (BurstUncompressor.sourceAddr x s)
  |> Pkt.burstwrap.set x.burstwrap
  |> Pkt.byteCnt.set (BurstUncompressor.sourceByteCnt x s)
  |> Pkt.transRead.setFlag (Pkt.transRead.flag e.data || Pkt.transCompressedRead.flag e.data)
  |> Pkt.transCompressedRead.setFlag false
  |> Pkt.responseStatus.set (currentResponse e)
  |> Pkt.burstSize.set x.burstsize
  |> Pkt.oriBurstSize.set (Pkt.oriBurstSize.get e.data)

end Response

end SlaveAgent

/-! ## The port -/

namespace SlavePort

open SlaveAgent

theorem emptyLatency_le : 1 ≤ 1 := Nat.le_refl 1

/-- The parameters of the FIFO: two places, `EMPTY_LATENCY` one. -/
def rspFifo : ScFifo.Params := ⟨1, 1, emptyLatency_le⟩

structure State (P : SlaveParams) where
  uncompressor : BurstUncompressor.State
  rspFifo : ScFifo.State rspFifo RspEntry
  translator : SlaveTranslator.State P

def resetState (P : SlaveParams) : State P where
  uncompressor := BurstUncompressor.resetState
  rspFifo := ScFifo.resetState rspFifo ⟨0#95, false, false⟩
  translator := SlaveTranslator.resetState P

variable {P : SlaveParams} (valid : Bool) (cp : CmdMux.Beat) (y : AvSlave P) (rpReady : Bool)
  (s : State P)

/-- With two places and this latency, the outputs of the FIFO depend on its registers alone. -/
def noInp : StreamQueue.Inp RspEntry := ⟨false, ⟨0#95, false, false⟩, false⟩

def rfSourceReady : Bool := ScFifo.inReady noInp s.rspFifo

def rfSinkValid : Bool := ScFifo.outValid noInp s.rspFifo

def rfSink : RspEntry := ScFifo.outPayload noInp s.rspFifo

/-- What the agent drives towards the translator. -/
def uav : UavSlave := m0 valid cp (rfSourceReady s)

def m0Waitrequest : Bool := SlaveTranslator.uavWaitrequest (uav valid cp s) y s.translator

def cpReady : Bool := SlaveAgent.cpReady (rfSourceReady s) (m0Waitrequest valid cp y s)

/-- The adapter passes the data on. -/
def rdataValid : Bool := SlaveTranslator.uavReaddatavalid s.translator

def rdata : BitVec 32 := SlaveTranslator.uavReaddata y s.translator

def rpValid : Bool := SlaveAgent.rpValid (rfSinkValid s) (rfSink s) (rdataValid s) false

def rpData : BitVec 94 :=
  SlaveAgent.rpData (rfSinkValid s) (rfSink s) (rdataValid s) (rdata y s) false s.uncompressor

/-- What leaves the port; its channel is the router's. -/
def rp : CmdMux.Beat where
  data := rpData y s
  channel := 0#8
  startofpacket := BurstUncompressor.sourceStartofpacket
    (uncompressor (rfSinkValid s) (rfSink s) (rdataValid s) false) s.uncompressor
  endofpacket := BurstUncompressor.sourceEndofpacket
    (uncompressor (rfSinkValid s) (rfSink s) (rdataValid s) false) s.uncompressor

/-- The sink of the uncompressor. -/
def sink : BurstUncompressor.Inp :=
  uncompressor (rfSinkValid s) (rfSink s) (rdataValid s) rpReady

/-- The inputs of the FIFO. -/
def fifoInp : StreamQueue.Inp RspEntry where
  inValid := rfSourceValid valid cp (rfSourceReady s) (m0Waitrequest valid cp y s)
  inData := rfSource valid cp
  outReady := BurstUncompressor.sinkReady (sink rpReady s) s.uncompressor

/-- All blocks, at a rising edge of the clock. -/
def clock : State P where
  uncompressor := BurstUncompressor.clock (sink rpReady s) s.uncompressor
  rspFifo := ScFifo.clock (fifoInp valid cp y rpReady s) s.rspFifo
  translator := SlaveTranslator.clock (uav valid cp s) y s.translator

/-- The slave performs a write at the edge: it is told to, and does not wait. -/
def writes : Bool :=
  SlaveTranslator.avWrite (uav valid cp s) s.translator && !(P.useWaitrequest && y.waitrequest)

/-- The slave performs a read at the edge, the last one of its wait states. -/
def reads : Bool :=
  SlaveTranslator.avRead (uav valid cp s) s.translator && !m0Waitrequest valid cp y s

/-! ## One edge -/

/-- The command reads or writes a single word, and it is not to be answered if it writes. -/
structure IsWord (cp : CmdMux.Beat) : Prop where
  compressed : Pkt.transCompressedRead.flag cp.data = false
  posted : Pkt.transPosted.flag cp.data = Pkt.transWrite.flag cp.data
  read_or_write : Pkt.transRead.flag cp.data = !Pkt.transWrite.flag cp.data

/-- What the port keeps of the last command: nothing, or the header of a read. -/
def headers : Option CmdMux.Beat → List RspEntry
  | none => []
  | some cp => [rfSource true cp]

/-- The command that the port accepts, if it is to be answered. -/
def accepted : Option CmdMux.Beat :=
  if valid && cpReady valid cp y s && Pkt.transRead.flag cp.data then some cp else none

/-- The port is as the last command has left it. -/
structure Holds (s : State P) (last : Option CmdMux.Beat) : Prop where
  word : ∀ cp ∈ last, IsWord cp ∧ Pkt.transRead.flag cp.data = true
  busy : s.uncompressor.busy = false
  fifo : ScFifo.Refines s.rspFifo (headers last)
  shiftReg : s.translator.readLatencyShiftReg = last.isSome

variable {valid cp y rpReady s} {last : Option CmdMux.Beat}

theorem holds_resetState (P : SlaveParams) : Holds (resetState P) none where
  word _ h := absurd h (Option.not_mem_none _)
  busy := rfl
  fifo := ScFifo.refines_run rspFifo _ (fun _ => noInp) 0
  shiftReg := rfl

theorem Holds.rfSourceReady (h : Holds s last) : rfSourceReady s = true := by
  rw [SlavePort.rfSourceReady, h.fifo.inReady]
  cases last <;> rfl

theorem Holds.rfSinkValid (h : Holds s last) : rfSinkValid s = last.isSome := by
  rw [SlavePort.rfSinkValid, h.fifo.outValid]
  cases last <;> rfl

theorem Holds.rfSink (h : Holds s (some cp)) : rfSink s = rfSource true cp := by
  refine h.fifo.outPayload ?_
  rw [h.fifo.outValid]
  rfl

theorem Holds.cpReady (h : Holds s last) : cpReady valid cp y s = !m0Waitrequest valid cp y s := by
  rw [SlavePort.cpReady, SlaveAgent.cpReady, suppressCmd, Bool.or_false, readyForCommand,
    h.rfSourceReady, Bool.and_true]

theorem Holds.uav_read (h : Holds s last) (hcp : valid = true → IsWord cp) :
    (uav valid cp s).read = (valid && Pkt.transRead.flag cp.data) := by
  have huav : (uav valid cp s).read = m0Read valid cp (SlavePort.rfSourceReady s) := rfl
  rw [huav, m0Read, readyForCommand, h.rfSourceReady, suppressCmd, localCompressedRead, localRead]
  cases valid with
  | false => rfl
  | true => rw [(hcp rfl).compressed, Bool.and_false, Bool.false_or]; rfl

theorem Holds.uav_write (h : Holds s last) (valid : Bool) (cp : CmdMux.Beat) :
    (uav valid cp s).write = (valid && Pkt.transWrite.flag cp.data) := by
  have huav : (uav valid cp s).write = m0Write valid cp (SlavePort.rfSourceReady s) := rfl
  rw [huav, m0Write, readyForCommand, h.rfSourceReady, suppressCmd, localWrite, Bool.not_false,
    Bool.and_true, Bool.true_and]

theorem nonpostedWriteEndofpacket_of_word (hcp : valid = true → IsWord cp) :
    nonpostedWriteEndofpacket valid cp = false := by
  rw [nonpostedWriteEndofpacket, localWrite]
  cases valid with
  | false => rw [Bool.false_and, Bool.and_false, Bool.false_and]
  | true => rw [(hcp rfl).posted, Bool.true_and, Bool.not_and_self, Bool.false_and]

/-! ### The header -/

theorem flag_transCompressedRead_rfSource (cp : CmdMux.Beat) :
    Pkt.transCompressedRead.flag (rfSource true cp).data =
      Pkt.transCompressedRead.flag cp.data := by
  have hdata : (rfSource true cp).data = rfSourceData true cp := rfl
  rw [hdata, rfSourceData]
  simp (disch := decide) only [Field.flag_set_of_disjoint, Field.flag_setFlag_of_disjoint,
    Field.flag_setFlag]

theorem flag_transRead_rfSource (cp : CmdMux.Beat) :
    Pkt.transRead.flag (rfSource true cp).data = Pkt.transRead.flag cp.data := by
  have hdata : (rfSource true cp).data = rfSourceData true cp := rfl
  rw [hdata, rfSourceData]
  simp (disch := decide) only [Field.flag_set_of_disjoint, Field.flag_setFlag]

theorem get_srcId_rfSource (cp : CmdMux.Beat) :
    Pkt.srcId.get (rfSource true cp).data = Pkt.srcId.get cp.data := by
  have hdata : (rfSource true cp).data = rfSourceData true cp := rfl
  rw [hdata, rfSourceData]
  simp (disch := decide) only [Field.get_set_of_disjoint, Field.get_set]

/-! ### The response -/

theorem get_data_rpData (y : AvSlave P) (s : State P) : Pkt.data.get (rpData y s) = rdata y s := by
  rw [rpData, SlaveAgent.rpData]
  simp (disch := decide) only [Field.get_set_of_disjoint, Field.get_setFlag_of_disjoint,
    Field.get_set]

theorem Holds.get_destId_rpData (h : Holds s (some cp)) :
    Pkt.destId.get (rpData y s) = Pkt.srcId.get cp.data := by
  rw [rpData, SlaveAgent.rpData, h.rfSink]
  simp (disch := decide) only [Field.get_set_of_disjoint, Field.get_setFlag_of_disjoint,
    Field.get_set, get_srcId_rfSource]

theorem Holds.flag_transRead_rpData (h : Holds s (some cp)) :
    Pkt.transRead.flag (rpData y s) = true := by
  rw [rpData, SlaveAgent.rpData, h.rfSink]
  simp (disch := decide) only [Field.flag_set_of_disjoint, Field.flag_setFlag_of_disjoint,
    Field.flag_setFlag, flag_transRead_rfSource, (h.word cp rfl).2, Bool.true_or]

theorem Holds.rdataValid (h : Holds s last) : rdataValid s = last.isSome := h.shiftReg

theorem Holds.sink_valid (h : Holds s last) (rpReady : Bool) :
    (sink rpReady s).valid = last.isSome := by
  have hsink : (sink rpReady s).valid =
      (SlavePort.rfSinkValid s && (SlavePort.rdataValid s || generateResponse (SlavePort.rfSink s))) :=
    rfl
  rw [hsink, h.rfSinkValid, h.rdataValid]
  cases last <;> rfl

theorem Holds.rpValid (h : Holds s last) : rpValid s = last.isSome := by
  have hvalid : (uncompressor (SlavePort.rfSinkValid s) (SlavePort.rfSink s)
    (SlavePort.rdataValid s) false).valid = last.isSome := h.sink_valid false
  rw [SlavePort.rpValid, SlaveAgent.rpValid, hvalid, h.rdataValid, Bool.or_self]

theorem Holds.lastPacketBeat (h : Holds s (some cp)) :
    BurstUncompressor.lastPacketBeat (sink rpReady s) s.uncompressor = true := by
  have hsink : (sink rpReady s).isCompressed =
    Pkt.transCompressedRead.flag (SlavePort.rfSink s).data := rfl
  rw [BurstUncompressor.lastPacketBeat, hsink, h.rfSink, flag_transCompressedRead_rfSource,
    (h.word cp rfl).1.compressed, Bool.not_false, Bool.true_or]

/-! ### The step -/

theorem Holds.fifoInp_inValid (h : Holds s last) (y : AvSlave P) (rpReady : Bool)
    (hcp : valid = true → IsWord cp) :
    (fifoInp valid cp y rpReady s).inValid =
      (valid && SlavePort.cpReady valid cp y s && Pkt.transRead.flag cp.data) := by
  have hin : (fifoInp valid cp y rpReady s).inValid =
    rfSourceValid valid cp (SlavePort.rfSourceReady s) (m0Waitrequest valid cp y s) := rfl
  have hready : SlaveAgent.cpReady (SlavePort.rfSourceReady s) (m0Waitrequest valid cp y s) =
    SlavePort.cpReady valid cp y s := rfl
  rw [hin, rfSourceValid, nonpostedWriteEndofpacket_of_word hcp, readyForCommand, hready,
    h.rfSourceReady, Bool.and_true, Bool.or_false, localRead, localCompressedRead]
  cases valid with
  | false => rfl
  | true =>
    rw [(hcp rfl).compressed, Bool.true_and, Bool.true_and, Bool.true_and, Bool.or_false,
      Bool.and_comm]

theorem Holds.fifoInp_outReady (h : Holds s last) (valid : Bool) (cp : CmdMux.Beat)
    (y : AvSlave P) (hrp : last.isSome = true → rpReady = true) :
    (fifoInp valid cp y rpReady s).outReady = last.isSome := by
  have hout : (fifoInp valid cp y rpReady s).outReady =
    ((sink rpReady s).valid && rpReady &&
      BurstUncompressor.lastPacketBeat (sink rpReady s) s.uncompressor) := rfl
  rw [hout, h.sink_valid]
  cases last with
  | none => rfl
  | some cp => rw [hrp rfl, h.lastPacketBeat]; rfl

/-- The queue of headers after an edge: the one of the last command has left it. -/
theorem Holds.next_headers (h : Holds s last) (hcp : valid = true → IsWord cp)
    (hrp : last.isSome = true → rpReady = true) :
    rspFifo.config.next (headers last) (fifoInp valid cp y rpReady s) =
      headers (accepted valid cp y s) := by
  have hin := h.fifoInp_inValid y rpReady hcp
  have hout := h.fifoInp_outReady valid cp y hrp
  have hentered : rspFifo.config.entered (headers last) (fifoInp valid cp y rpReady s) =
      headers (accepted valid cp y s) := by
    have hready : rspFifo.config.inReady (headers last) (fifoInp valid cp y rpReady s) = true := by
      cases last <;> rfl
    rw [StreamQueue.Config.entered, StreamQueue.Config.write, hready, hin, Bool.true_and, accepted]
    split_ifs with hacc
    · -- The header is the one of a valid command.
      have hvalid : valid = true := by
        rw [Bool.and_eq_true, Bool.and_eq_true] at hacc
        exact hacc.1.1
      rw [hvalid]
      rfl
    · rfl
  rw [StreamQueue.Config.next, hentered, StreamQueue.Config.read, hout]
  cases last with
  | none => rfl
  | some cp' => rfl

theorem Holds.clock (h : Holds s last) (hcp : valid = true → IsWord cp)
    (hrp : last.isSome = true → rpReady = true)
    (hreset : s.translator.waitrequestResetOverride = true → valid = false) :
    Holds (clock valid cp y rpReady s) (accepted valid cp y s) where
  word cp' hcp' := by
    rw [accepted] at hcp'
    split_ifs at hcp' with hacc
    · rw [Bool.and_eq_true, Bool.and_eq_true] at hacc
      rw [Option.mem_some_iff] at hcp'
      exact hcp' ▸ ⟨hcp hacc.1.1, hacc.2⟩
    · exact absurd hcp' (Option.not_mem_none cp')
  busy := by
    have hbusy : (SlavePort.clock valid cp y rpReady s).uncompressor.busy =
      if (sink rpReady s).valid && rpReady && (sink rpReady s).valid then
        !BurstUncompressor.lastPacketBeat (sink rpReady s) s.uncompressor
      else s.uncompressor.busy := rfl
    rw [hbusy, h.sink_valid, h.busy]
    cases last with
    | none => rfl
    | some cp' => rw [h.lastPacketBeat, Bool.not_true, ite_self]
  fifo := by
    have hfifo : (SlavePort.clock valid cp y rpReady s).rspFifo =
      ScFifo.clock (fifoInp valid cp y rpReady s) s.rspFifo := rfl
    rw [hfifo, ← h.next_headers hcp hrp]
    exact h.fifo.clock
  shiftReg := by
    have hshift : (SlavePort.clock valid cp y rpReady s).translator.readLatencyShiftReg =
      ((uav valid cp s).read && !m0Waitrequest valid cp y s &&
        !s.translator.waitrequestResetOverride) := rfl
    rw [hshift, h.uav_read hcp, accepted, h.cpReady]
    cases valid with
    | false => rfl
    | true =>
      have hover : s.translator.waitrequestResetOverride = false := by
        by_contra hover
        exact Bool.false_ne_true (hreset (Bool.not_eq_false _ ▸ hover)).symm
      rw [hover, Bool.true_and, Bool.true_and, Bool.not_false, Bool.and_true,
        Bool.and_comm (Pkt.transRead.flag cp.data)]
      cases !m0Waitrequest true cp y s && Pkt.transRead.flag cp.data <;> rfl

/-! ### The slave -/

theorem Holds.writes (h : Holds s last)
    (hreset : s.translator.waitrequestResetOverride = true → valid = false) :
    writes valid cp y s = (valid && SlavePort.cpReady valid cp y s &&
      Pkt.transWrite.flag cp.data) := by
  have hwrite := h.uav_write valid cp
  cases hover : s.translator.waitrequestResetOverride with
  | false =>
    rw [SlavePort.writes, SlaveTranslator.avWrite_eq _ _ _ hover, hwrite, h.cpReady,
      Bool.and_right_comm, m0Waitrequest]
  | true =>
    rw [hreset hover, Bool.false_and] at hwrite
    rw [SlavePort.writes, SlaveTranslator.avWrite, hreset hover, hwrite, Bool.and_false,
      Bool.false_and, ite_self]
    rfl

theorem Holds.reads (h : Holds s last) (hcp : valid = true → IsWord cp) :
    reads valid cp y s = (valid && SlavePort.cpReady valid cp y s &&
      Pkt.transRead.flag cp.data) := by
  rw [SlavePort.reads, SlaveTranslator.avRead_eq, h.uav_read hcp, h.cpReady, Bool.and_right_comm]

end SlavePort

end EmbeddedSystems.HostSystem.Interconnect
