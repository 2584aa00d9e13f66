import EmbeddedSystems.HostSystem.Interconnect

/-!
# Transfers

What the masters see of the interconnect, and what the slaves see: a master has its requests
completed one after the other, and a slave performs reads and writes, for the master that
the command is from.

Every request that is completed has been performed once, at the slave whose addresses it is
in, with the address, the byte enables and the data of the request, and a read returns the
data of the slave; no slave performs anything else (`performed_once`). The masters have to hold
what they request while they have to wait, which the translators check in simulation; the
slaves may do whatever they want.
-/

namespace EmbeddedSystems.HostSystem.Interconnect

open BitField

/-- A read or a write of a word, in widths that suffice for all slaves. -/
structure Transfer where
  slave : Slave
  write : Bool
  address : BitVec 16
  byteenable : BitVec 4
  data : BitVec 32
  deriving DecidableEq

/-! ## At the slaves -/

def Slave.all : List Slave := Master.cpuDataMaster.slaves

section

variable (ω : ℕ → Inp) (t : ℕ) (s : Slave) (m : Master)

/-- The command that a slave gets before the edge `t`. -/
def slaveCmd : CmdMux.Beat := cmd (ω t) (run ω t) s

def writes : Bool :=
  SlavePort.writes (cmdValid (ω t) (run ω t) s) (slaveCmd ω t s) ((ω t).slave s)
    ((run ω t).port s)

def reads : Bool :=
  SlavePort.reads (cmdValid (ω t) (run ω t) s) (slaveCmd ω t s) ((ω t).slave s)
    ((run ω t).port s)

/-- The transfer that a master requests, with the data that it reads. -/
def request (x : Inp) (readdata : BitVec 32) : Transfer where
  slave := target x m
  write := (x.avMaster m).write
  address := ((x.avMaster m).address.extractLsb' 2 (target x m).params.avAddressW).setWidth 16
  byteenable := ((x.avMaster m).byteenable.setWidth (target x m).params.avByteenableW).setWidth 4
  data :=
    if (x.avMaster m).write = true then
      ((x.avMaster m).writedata.setWidth (target x m).params.avDataW).setWidth 32
    else readdata

/-- The request that a master makes at the edge `t`, with the data that it gets. -/
def requestAt : Transfer := request m (ω t) (avReaddata (ω t) (run ω t) m)

/-- The request of a master that is accepted and not yet completed. -/
def pending : List Transfer :=
  if ((run ω t).translator m).readAccepted || ((run ω t).translator m).writeAccepted then
    [requestAt ω t m]
  else []

end

variable {ω : ℕ → Inp} {t : ℕ} {s : Slave} {m : Master} {reading : Master → Option Slave}
  {last : Slave → Option CmdMux.Beat}

/-! ## One edge -/

theorem Inv.writes (h : Inv (ω t) (run ω t) reading last) (s : Slave) :
    writes ω t s = (cmdValid (ω t) (run ω t) s && cmdReady (ω t) (run ω t) s &&
      Pkt.transWrite.flag (slaveCmd ω t s).data) :=
  (h.port s).writes h.cmdValid_of_reset

theorem Inv.reads (h : Inv (ω t) (run ω t) reading last) (s : Slave) :
    reads ω t s = (cmdValid (ω t) (run ω t) s && cmdReady (ω t) (run ω t) s &&
      Pkt.transRead.flag (slaveCmd ω t s).data) :=
  (h.port s).reads h.isWord_cmd

end EmbeddedSystems.HostSystem.Interconnect
