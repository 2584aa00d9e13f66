import EmbeddedSystems.HostSystem.AddressMap

/-!
# The port of a master

The modules `altera_merlin_master_translator` and `altera_merlin_master_agent`, as the
interconnect instantiates them for the two masters. The translator has the interconnect
accept a request only once, while the master holds it until `av_waitrequest` falls; the agent
makes a packet of the request.

The step of a port is told by what happens to the request (`MasterPort.step`): it waits, it is
accepted, it is completed, or both at once.

The registers for bursts of the translator are left out, as `AV_CONSTANT_BURST_BEHAVIOR` is
zero, and so is `sop_enable` of the agent, which only a master with bursts has.
-/

namespace EmbeddedSystems.HostSystem.Interconnect

open BitField

/-- What a master drives. -/
structure AvMaster where
  read : Bool
  write : Bool
  address : BitVec 18
  byteenable : BitVec 4
  writedata : BitVec 32
  debugaccess : Bool

/-- What a translator drives, towards the agent. -/
structure UavMaster where
  read : Bool
  write : Bool
  address : BitVec 18
  burstcount : BitVec 3
  byteenable : BitVec 4
  writedata : BitVec 32
  lock : Bool
  debugaccess : Bool

namespace MasterTranslator

/-- `USE_WRITE`. -/
def useWrite : Master → Bool
  | .cpuDataMaster => true
  | .cpuInstructionMaster => false

/-- `AV_REGISTERINCOMINGSIGNALS`. -/
def registerIncomingSignals : Master → Bool
  | .cpuDataMaster => true
  | .cpuInstructionMaster => false

/-- The registers `read_accepted`, `write_accepted` and `end_begintransfer`. -/
structure State where
  readAccepted : Bool
  writeAccepted : Bool
  endBegintransfer : Bool

def resetState : State := ⟨false, false, false⟩

section

variable (m : Master) (x : AvMaster) (s : State)

def uavReadPre : Bool := x.read

def uavWritePre : Bool := useWrite m && x.write

def uavRead : Bool := uavReadPre x && !s.readAccepted

def uavWrite : Bool :=
  if registerIncomingSignals m = false then uavWritePre m x
  else uavWritePre m x && !s.writeAccepted

def begintransfer : Bool := (uavWrite m x s || uavRead x s) && !s.endBegintransfer

/-- All outputs to the agent; `av_lock` is not connected, and a burst has the four symbols of
    one word. -/
def uav : UavMaster where
  read := uavRead x s
  write := uavWrite m x s
  address := x.address
  burstcount := 4#3
  byteenable := x.byteenable
  writedata := x.writedata
  lock := false
  debugaccess := x.debugaccess

variable (uavWaitrequest uavReaddatavalid : Bool)

def avWaitrequest : Bool :=
  if registerIncomingSignals m = true then
    if uavReadPre x = true then !uavReaddatavalid
    else if uavWritePre m x = true then
      (begintransfer m x s || uavWaitrequest) && !s.writeAccepted
    else true
  else if uavReadPre x = true then !uavReaddatavalid
  else uavWaitrequest

/-- All blocks, at a rising edge of the clock. -/
def clock : State where
  readAccepted :=
    if s.readAccepted = false then
      if avWaitrequest m x s uavWaitrequest uavReaddatavalid = true then
        uavReadPre x && !uavWaitrequest
      else false
    else if uavReaddatavalid = true then false
    else s.readAccepted
  writeAccepted :=
    if registerIncomingSignals m = true then
      if avWaitrequest m x s uavWaitrequest uavReaddatavalid = false then false
      else if uavWrite m x s && !uavWaitrequest then true
      else s.writeAccepted
    else s.writeAccepted
  endBegintransfer :=
    if begintransfer m x s && uavWaitrequest then true
    else if uavWaitrequest = true then s.endBegintransfer
    else false

end

end MasterTranslator

namespace MasterAgent

/-- `BURSTWRAP_VALUE`. -/
def burstwrapValue : Master → BitVec 3
  | .cpuDataMaster => 7#3
  | .cpuInstructionMaster => 3#3

/-- The output `cp_data`. A burst of one word is none (`is_burst`), and there are no responses to
    writes. -/
def cpData (m : Master) (u : UavMaster) : BitVec 94 :=
  0#94
  |> Pkt.protection.set (0#1 ++ 1#1 ++ BitVec.ofBool u.debugaccess)
  |> Pkt.burstwrap.set (burstwrapValue m)
  |> Pkt.byteCnt.set u.burstcount
  |> Pkt.addr.set ((Field.low 2).set 0#2 u.address)
  |> Pkt.transExclusive.setFlag false
  |> Pkt.transLock.setFlag u.lock
  |> Pkt.transCompressedRead.setFlag false
  |> Pkt.transRead.setFlag u.read
  |> Pkt.transWrite.setFlag u.write
  |> Pkt.transPosted.setFlag u.write
  |> Pkt.data.set u.writedata
  |> Pkt.byteen.set u.byteenable
  |> Pkt.burstSize.set 2#3
  |> Pkt.oriBurstSize.set 2#3
  |> Pkt.burstType.set (if (burstwrapValue m).getLsbD 2 = true then 0b01#2 else 0b10#2)
  |> Pkt.srcId.set m.id
  |> Pkt.threadId.set 0#1
  |> Pkt.cache.set 0#4
  |> Pkt.qos.set 0#1
  |> Pkt.addrSideband.set 0#1
  |> Pkt.dataSideband.set 0#1

/-- The output `cp_valid`; the state is the register `hold_waitrequest`. -/
def cpValid (u : UavMaster) (holdWaitrequest : Bool) : Bool :=
  (u.write || u.read) && !holdWaitrequest

def avWaitrequest (cpReady holdWaitrequest : Bool) : Bool := holdWaitrequest || !cpReady

end MasterAgent

/-! ## One edge -/

namespace MasterTranslator

/-- The request of the master is accepted by the interconnect. -/
def accepts (m : Master) (x : AvMaster) (s : State) (uavWaitrequest : Bool) : Bool :=
  (uavRead x s || uavWrite m x s) && !uavWaitrequest

/-- The request of the master is completed, as it sees it. -/
def completes (m : Master) (x : AvMaster) (s : State) (uavWaitrequest uavReaddatavalid : Bool) :
    Bool :=
  (x.read || x.write) && !avWaitrequest m x s uavWaitrequest uavReaddatavalid

/-- A request that has been accepted is the one that the master still holds. -/
structure Held (m : Master) (x : AvMaster) (s : State) : Prop where
  read : s.readAccepted = true → x.read = true
  write : s.writeAccepted = true → x.write = true
  one : x.read = true → x.write = false
  useWrite : x.write = true → useWrite m = true

/-- What happens at an edge to the request of the master. -/
inductive Step (m : Master) (x : AvMaster) (s s' : State) (uavWaitrequest : Bool) : Prop
  | wait (hs : s.readAccepted = false ∧ s.writeAccepted = false)
      (hs' : s'.readAccepted = false ∧ s'.writeAccepted = false)
      (haccepts : accepts m x s uavWaitrequest = false)
      (hcompletes : completes m x s uavWaitrequest s.readAccepted = false)
  | accept (hs : s.readAccepted = false ∧ s.writeAccepted = false)
      (hs' : s'.readAccepted = x.read ∧ s'.writeAccepted = x.write)
      (haccepts : accepts m x s uavWaitrequest = true)
      (hcompletes : completes m x s uavWaitrequest s.readAccepted = false)
  | complete (hs : s.readAccepted = x.read ∧ s.writeAccepted = x.write)
      (hs' : s'.readAccepted = false ∧ s'.writeAccepted = false)
      (haccepts : accepts m x s uavWaitrequest = false)
      (hcompletes : completes m x s uavWaitrequest s.readAccepted = true)
  | acceptComplete (hs : s.readAccepted = false ∧ s.writeAccepted = false)
      (hs' : s'.readAccepted = false ∧ s'.writeAccepted = false) (hwrite : x.write = true)
      (haccepts : accepts m x s uavWaitrequest = true)
      (hcompletes : completes m x s uavWaitrequest s.readAccepted = true)

variable {m : Master} {x : AvMaster} {s : State}

theorem uavWrite_of_not_write (hw : x.write = false) : uavWrite m x s = false := by
  rw [uavWrite, uavWritePre, hw, Bool.and_false, Bool.false_and, ite_self]

theorem uavRead_of_not_read (hr : x.read = false) : uavRead x s = false := by
  rw [uavRead, uavReadPre, hr, Bool.false_and]

theorem Held.readAccepted (h : Held m x s) (hr : x.read = false) : s.readAccepted = false := by
  by_contra hra
  exact Bool.false_ne_true (hr.symm.trans (h.read (Bool.not_eq_false _ ▸ hra)))

theorem Held.writeAccepted (h : Held m x s) (hw : x.write = false) : s.writeAccepted = false := by
  by_contra hwa
  exact Bool.false_ne_true (hw.symm.trans (h.write (Bool.not_eq_false _ ▸ hwa)))

/-- A read is accepted at an edge, and completed at the next one. -/
theorem step_of_read (h : Held m x s) (hr : x.read = true) (uavWaitrequest : Bool) :
    Step m x s (clock m x s uavWaitrequest s.readAccepted) uavWaitrequest := by
  have hw := h.one hr
  have hwa := h.writeAccepted hw
  have hwrite := uavWrite_of_not_write (m := m) (s := s) hw
  have hwait : ∀ uw rdv, avWaitrequest m x s uw rdv = !rdv := fun uw rdv => by
    rw [avWaitrequest, uavReadPre, hr, if_pos rfl, if_pos rfl, ite_self]
  cases hra : s.readAccepted with
  | true =>
    refine .complete ⟨by rw [hra, hr], by rw [hwa, hw]⟩ ⟨?_, ?_⟩ ?_ ?_
    · simp [clock, hra]
    · simp [clock, hwait, hwa]
    · simp [accepts, hwrite, uavRead, hra]
    · simp [completes, hwait, hr, hra]
  | false =>
    cases uavWaitrequest with
    | true =>
      refine .wait ⟨hra, hwa⟩ ⟨?_, ?_⟩ ?_ ?_
      · simp [clock, hra, hwait]
      · simp [clock, hwa, hwait]
      · simp [accepts]
      · simp [completes, hwait, hra]
    | false =>
      refine .accept ⟨hra, hwa⟩ ⟨?_, ?_⟩ ?_ ?_
      · simp [clock, hra, hwait, uavReadPre]
      · simp [clock, hwa, hw, hwait, hwrite]
      · simp [accepts, uavRead, uavReadPre, hr, hra]
      · simp [completes, hwait, hra]

/-- A write that is accepted at its first edge is completed at the next one, and any other
    write at the edge that accepts it. -/
theorem step_of_write {x : AvMaster} {s : State} (h : Held .cpuDataMaster x s)
    (hr : x.read = false) (hw : x.write = true) (uavWaitrequest : Bool) :
    Step .cpuDataMaster x s (clock .cpuDataMaster x s uavWaitrequest s.readAccepted)
      uavWaitrequest := by
  have hra := h.readAccepted hr
  have hread := uavRead_of_not_read (s := s) hr
  have hpre : uavWritePre .cpuDataMaster x = true := by
    rw [uavWritePre, hw, Bool.and_true]
    rfl
  have hwrite : uavWrite .cpuDataMaster x s = !s.writeAccepted := by
    rw [uavWrite, hpre, Bool.true_and, if_neg (Bool.noConfusion : ¬_)]
  have hwait : ∀ uw rdv, avWaitrequest .cpuDataMaster x s uw rdv =
      ((begintransfer .cpuDataMaster x s || uw) && !s.writeAccepted) := fun uw rdv => by
    rw [avWaitrequest, uavReadPre, hr, hpre]
    rfl
  have hclockRead : ∀ uw, (clock .cpuDataMaster x s uw s.readAccepted).readAccepted = false :=
    fun uw => by simp [clock, hra, uavReadPre, hr]
  have hclockWrite : ∀ uw, (clock .cpuDataMaster x s uw s.readAccepted).writeAccepted =
      if avWaitrequest .cpuDataMaster x s uw s.readAccepted = false then false
      else if uavWrite .cpuDataMaster x s && !uw then true else s.writeAccepted := fun uw => rfl
  cases hwa : s.writeAccepted with
  | true =>
    refine .complete ⟨by rw [hra, hr], by rw [hwa, hw]⟩ ⟨hclockRead _, ?_⟩ ?_ ?_
    · simp [hclockWrite, hwait, hwa]
    · simp [accepts, hread, hwrite, hwa]
    · simp [completes, hw, hwait, hwa]
  | false =>
    cases uavWaitrequest with
    | true =>
      refine .wait ⟨hra, hwa⟩ ⟨hclockRead _, ?_⟩ ?_ ?_
      · simp [hclockWrite, hwa]
      · simp [accepts]
      · simp [completes, hwait, hwa]
    | false =>
      have haccepts : accepts .cpuDataMaster x s false = true := by simp [accepts, hwrite, hwa]
      -- `av_waitrequest` is active at the first edge of every write.
      cases hbegin : begintransfer .cpuDataMaster x s with
      | true =>
        refine .accept ⟨hra, hwa⟩ ⟨by rw [hclockRead, hr], ?_⟩ haccepts ?_
        · simp [hclockWrite, hwait, hwa, hbegin, hwrite, hw]
        · simp [completes, hwait, hbegin, hwa]
      | false =>
        refine .acceptComplete ⟨hra, hwa⟩ ⟨hclockRead _, ?_⟩ hw haccepts ?_
        · simp [hclockWrite, hwait, hbegin]
        · simp [completes, hw, hwait, hbegin]

/-- If the data of a read comes at the edge after the one that accepts it, every edge is a
    step. -/
theorem step (h : Held m x s) (uavWaitrequest : Bool) :
    Step m x s (clock m x s uavWaitrequest s.readAccepted) uavWaitrequest := by
  cases hr : x.read with
  | true => exact step_of_read h hr uavWaitrequest
  | false =>
    cases hw : x.write with
    | true =>
      have hmaster : m = .cpuDataMaster := by
        have huse := h.useWrite hw
        cases m
        · rfl
        · cases huse
      subst hmaster
      exact step_of_write h hr hw uavWaitrequest
    | false =>
      have hra := h.readAccepted hr
      have hwa := h.writeAccepted hw
      have hwrite := uavWrite_of_not_write (m := m) (s := s) hw
      refine .wait ⟨hra, hwa⟩ ⟨?_, ?_⟩ ?_ ?_
      · simp [clock, hra, uavReadPre, hr]
      · simp [clock, hwa, hwrite]
      · simp [accepts, hwrite, uavRead_of_not_read hr]
      · simp [completes, hr, hw]

end MasterTranslator

/-! ## Packets of a master -/

section

open MasterAgent

variable (m : Master) (u : UavMaster)

@[simp] theorem get_addr_cpData :
    Pkt.addr.get (cpData m u) = (Field.low 2).set 0#2 u.address := by
  simp (disch := decide) only [cpData, Field.get_set_of_disjoint, Field.get_setFlag_of_disjoint,
    Field.get_set]

@[simp] theorem flag_transRead_cpData : Pkt.transRead.flag (cpData m u) = u.read := by
  simp (disch := decide) only [cpData, Field.flag_set_of_disjoint, Field.flag_setFlag_of_disjoint,
    Field.flag_setFlag]

@[simp] theorem flag_transWrite_cpData : Pkt.transWrite.flag (cpData m u) = u.write := by
  simp (disch := decide) only [cpData, Field.flag_set_of_disjoint, Field.flag_setFlag_of_disjoint,
    Field.flag_setFlag]

@[simp] theorem flag_transPosted_cpData : Pkt.transPosted.flag (cpData m u) = u.write := by
  simp (disch := decide) only [cpData, Field.flag_set_of_disjoint,
    Field.flag_setFlag]

@[simp] theorem flag_transCompressedRead_cpData :
    Pkt.transCompressedRead.flag (cpData m u) = false := by
  simp (disch := decide) only [cpData, Field.flag_set_of_disjoint, Field.flag_setFlag_of_disjoint,
    Field.flag_setFlag]

@[simp] theorem get_srcId_cpData : Pkt.srcId.get (cpData m u) = m.id := by
  simp (disch := decide) only [cpData, Field.get_set_of_disjoint, Field.get_set]

end

end EmbeddedSystems.HostSystem.Interconnect
