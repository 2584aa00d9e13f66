import EmbeddedSystems.Library.BitField
import EmbeddedSystems.HostSystem.CmdMux

/-!
# The masters, the slaves and the way between them

The two masters and the eight slaves of `HostSystem_mm_interconnect_0`, the packets that
are exchanged between them, and the routers.

The routers of the masters take every address to the slave in whose range it is, with the
ranges of `system.h`, and to the memory if there is none (`decodeAddress_eq`); those of the slaves
take every response to the master that the command is from (`responseChannel_eq`).
-/

namespace EmbeddedSystems.HostSystem.Interconnect

open BitField

inductive Master
  | cpuDataMaster
  | cpuInstructionMaster
  deriving DecidableEq

inductive Slave
  | jtagUart
  | ledPwm
  | cpuDebugMem
  | sysClkTimer
  | memory
  | ledPio
  | dipswPio
  | keyPio
  deriving DecidableEq

/-- The parameter `ID` of the agent of a master. -/
def Master.id : Master → BitVec 3
  | .cpuDataMaster => 0#3
  | .cpuInstructionMaster => 1#3

/-- The number of a master, at the multiplexer and at the demultiplexer of a slave. -/
def Master.index : Master → ℕ
  | .cpuDataMaster => 0
  | .cpuInstructionMaster => 1

/-! ## Packets

The fields of a packet, from `PKT_DATA` to `PKT_ORI_BURST_SIZE`. -/

namespace Pkt

def data : Field 32 := ⟨0⟩
def byteen : Field 4 := ⟨32⟩
def addr : Field 18 := ⟨36⟩
def transCompressedRead : Field 1 := ⟨54⟩
def transPosted : Field 1 := ⟨55⟩
def transWrite : Field 1 := ⟨56⟩
def transRead : Field 1 := ⟨57⟩
def transLock : Field 1 := ⟨58⟩
def transExclusive : Field 1 := ⟨59⟩
def byteCnt : Field 3 := ⟨60⟩
def burstwrap : Field 3 := ⟨63⟩
def burstSize : Field 3 := ⟨66⟩
def burstType : Field 2 := ⟨69⟩
def addrSideband : Field 1 := ⟨71⟩
def dataSideband : Field 1 := ⟨72⟩
def qos : Field 1 := ⟨74⟩
def srcId : Field 3 := ⟨75⟩
def destId : Field 3 := ⟨78⟩
def threadId : Field 1 := ⟨81⟩
def protection : Field 3 := ⟨82⟩
def cache : Field 4 := ⟨85⟩
def responseStatus : Field 2 := ⟨89⟩
def oriBurstSize : Field 3 := ⟨91⟩

end Pkt

/-! ## The routers of the masters -/

/-- An address range of a router: `base`, the number of low bits that it leaves out, and the
    channel and the destination of the packets in it. -/
structure Route where
  base : BitVec 18
  pad : ℕ
  channel : BitVec 8
  destId : BitVec 3

/-- The address without the low bits is the one of the range. -/
def Route.Hits (r : Route) (address : BitVec 18) : Prop :=
  (Field.low r.pad).set 0#r.pad address = r.base

instance (r : Route) (address : BitVec 18) : Decidable (r.Hits address) :=
  inferInstanceAs (Decidable (_ = _))

/-- The ranges of `HostSystem_mm_interconnect_0_router` and of
    `HostSystem_mm_interconnect_0_router_001`. -/
def routes : Master → List Route
  | .cpuDataMaster =>
    [⟨0x10000#18, 16, 0b00010000#8, 6#3⟩, ⟨0x20800#18, 11, 0b00000100#8, 0#3⟩,
      ⟨0x21000#18, 5, 0b00100000#8, 4#3⟩, ⟨0x21020#18, 5, 0b00001000#8, 7#3⟩,
      ⟨0x21040#18, 4, 0b10000000#8, 3#3⟩, ⟨0x21050#18, 4, 0b01000000#8, 1#3⟩,
      ⟨0x21060#18, 3, 0b00000010#8, 5#3⟩, ⟨0x21068#18, 3, 0b00000001#8, 2#3⟩]
  | .cpuInstructionMaster =>
    [⟨0x10000#18, 16, 0b10#8, 6#3⟩, ⟨0x20800#18, 11, 0b01#8, 0#3⟩]

/-- `DEFAULT_CHANNEL`. -/
def defaultChannel : Master → ℕ
  | .cpuDataMaster => 4
  | .cpuInstructionMaster => 1

/-- `src_channel` and the destination, after the address decoder. -/
def decodeAddress (m : Master) (address : BitVec 18) : BitVec 8 × BitVec 3 :=
  (routes m).foldl (fun out r => if r.Hits address then (r.channel, r.destId) else out)
    (1#8 <<< defaultChannel m, 6#3)

/-- What leaves the router for the packet `data`, which starts and ends with its only beat. -/
def router (m : Master) (data : BitVec 94) : CmdMux.Beat where
  data := Pkt.destId.set (decodeAddress m (Pkt.addr.get data)).2 data
  channel := (decodeAddress m (Pkt.addr.get data)).1
  startofpacket := true
  endofpacket := true

/-! ## The routers of the slaves -/

/-- The slaves of `cpu_instruction_master`, which are those with two masters. -/
def Slave.shared : Slave → Bool
  | .cpuDebugMem | .memory => true
  | _ => false

/-- `HostSystem_mm_interconnect_0_router_002`, or `HostSystem_mm_interconnect_0_router_004` for
    a slave with two masters; `DEFAULT_CHANNEL` is zero for both. -/
def responseChannel (s : Slave) (data : BitVec 94) : BitVec 8 :=
  let out := if Pkt.destId.get data = 0#3 then 0b01#8 else 1#8 <<< 0
  if s.shared = true ∧ Pkt.destId.get data = 1#3 ∧ Pkt.transRead.flag data = true then 0b10#8
  else out

/-! ## The address map -/

/-- The base address of a slave, as in `system.h`. -/
def Slave.base : Slave → ℕ
  | .jtagUart => 0x21068
  | .ledPwm => 0x21060
  | .cpuDebugMem => 0x20800
  | .sysClkTimer => 0x21020
  | .memory => 0x10000
  | .ledPio => 0x21000
  | .dipswPio => 0x21050
  | .keyPio => 0x21040

/-- The number of bytes of a slave, as in `system.h`. -/
def Slave.span : Slave → ℕ
  | .jtagUart => 8
  | .ledPwm => 8
  | .cpuDebugMem => 2048
  | .sysClkTimer => 32
  | .memory => 65536
  | .ledPio => 32
  | .dipswPio => 16
  | .keyPio => 16

def Slave.Decodes (s : Slave) (address : BitVec 18) : Prop :=
  s.base ≤ address.toNat ∧ address.toNat < s.base + s.span

instance (s : Slave) (address : BitVec 18) : Decidable (s.Decodes address) :=
  inferInstanceAs (Decidable (_ ∧ _))

/-- The slaves that a master is connected to, in the order of their addresses. -/
def Master.slaves : Master → List Slave
  | .cpuDataMaster =>
    [.memory, .cpuDebugMem, .ledPio, .sysClkTimer, .keyPio, .dipswPio, .ledPwm, .jtagUart]
  | .cpuInstructionMaster => [.memory, .cpuDebugMem]

/-- The slave that a master reaches at an address. -/
def addressed (m : Master) (address : BitVec 18) : Slave :=
  (m.slaves.find? fun s => s.Decodes address).getD .memory

/-- The number of the channel to a slave, at the demultiplexer of a master; none of the eight
    channels if the two are not connected. -/
def Slave.channel : Slave → Master → ℕ
  | .jtagUart, .cpuDataMaster => 0
  | .ledPwm, .cpuDataMaster => 1
  | .cpuDebugMem, .cpuDataMaster => 2
  | .sysClkTimer, .cpuDataMaster => 3
  | .memory, .cpuDataMaster => 4
  | .ledPio, .cpuDataMaster => 5
  | .dipswPio, .cpuDataMaster => 6
  | .keyPio, .cpuDataMaster => 7
  | .cpuDebugMem, .cpuInstructionMaster => 0
  | .memory, .cpuInstructionMaster => 1
  | _, .cpuInstructionMaster => 8

theorem addressed_mem (m : Master) (address : BitVec 18) : addressed m address ∈ m.slaves := by
  rw [addressed]
  cases hfind : m.slaves.find? fun s => s.Decodes address with
  | none => cases m <;> decide
  | some s => exact List.mem_of_find?_eq_some hfind

/-- The ranges do not overlap. -/
theorem Slave.Decodes.unique {s s' : Slave} {address : BitVec 18} (h : s.Decodes address)
    (h' : s'.Decodes address) : s = s' := by
  rcases h with ⟨hlo, hhi⟩
  rcases h' with ⟨hlo', hhi'⟩
  cases s <;> cases s' <;> first
    | rfl
    | exact absurd (hlo.trans_lt hhi') (by decide)
    | exact absurd (hlo'.trans_lt hhi) (by decide)

theorem addressed_of_decodes {m : Master} {s : Slave} {address : BitVec 18} (hs : s ∈ m.slaves)
    (h : s.Decodes address) : addressed m address = s := by
  rw [addressed]
  cases hfind : m.slaves.find? fun s => s.Decodes address with
  | none => exact absurd h (by simpa using List.find?_eq_none.1 hfind s hs)
  | some s' =>
    have hs' : s'.Decodes address := by simpa using List.find?_some hfind
    exact hs'.unique h

theorem addressed_of_not_decodes {m : Master} {address : BitVec 18}
    (h : ¬(addressed m address).Decodes address) : addressed m address = .memory := by
  rw [addressed] at h ⊢
  cases hfind : m.slaves.find? fun s => s.Decodes address with
  | none => rfl
  | some s =>
    rw [hfind] at h
    exact absurd (by simpa using List.find?_some hfind) h

/-- The range of a router is the one of a slave, and its channel is the one to the slave. -/
def Route.Serves (m : Master) (r : Route) (s : Slave) : Prop :=
  (∀ address, r.Hits address ↔ s.Decodes address) ∧ r.channel = 1#8 <<< s.channel m

theorem hits_iff {r : Route} {s : Slave} (hp : r.pad ≤ 18) (hbase : r.base.toNat = s.base)
    (hspan : 2 ^ r.pad = s.span) (hdvd : s.span ∣ s.base) (address : BitVec 18) :
    r.Hits address ↔ s.Decodes address := by
  rw [Route.Hits, Field.set_low_eq_iff hp (by rw [hspan, hbase]; exact hdvd), hspan, hbase]
  rfl

theorem routes_serve (m : Master) : List.Forall₂ (Route.Serves m) (routes m) m.slaves := by
  cases m <;>
    repeat' first
      | exact List.Forall₂.nil
      | refine List.Forall₂.cons ⟨hits_iff (by decide) rfl rfl (by decide), rfl⟩ ?_

theorem foldl_route {rs : List Route} {address : BitVec 18} {c : BitVec 8}
    {out : BitVec 8 × BitVec 3} (hall : ∀ r ∈ rs, r.Hits address → r.channel = c)
    (hsome : out.1 = c ∨ ∃ r ∈ rs, r.Hits address) :
    (rs.foldl (fun out r => if r.Hits address then (r.channel, r.destId) else out) out).1 = c := by
  induction rs generalizing out with
  | nil => exact hsome.resolve_right fun ⟨r, hr, _⟩ => absurd hr List.not_mem_nil
  | cons r rs ih =>
    refine ih (fun r hr => hall r (List.mem_cons_of_mem _ hr)) ?_
    beta_reduce
    by_cases hr : r.Hits address
    · rw [if_pos hr]
      exact Or.inl (hall r List.mem_cons_self hr)
    · rw [if_neg hr]
      exact hsome.imp_right fun ⟨r', hr', h⟩ =>
        ⟨r', (List.mem_cons.1 hr').resolve_left fun heq => hr (heq ▸ h), h⟩

/-- The router takes an address to the slave in whose range it is. -/
theorem decodeAddress_eq (m : Master) (address : BitVec 18) :
    (decodeAddress m address).1 = 1#8 <<< (addressed m address).channel m := by
  refine foldl_route (fun r hr hhits => ?_) ?_
  · obtain ⟨i, hi, rfl⟩ := List.getElem_of_mem hr
    have hserves := (routes_serve m).get hi ((routes_serve m).length_eq ▸ hi)
    rw [addressed_of_decodes (List.getElem_mem _) ((hserves.1 address).1 hhits)]
    exact hserves.2
  · by_cases h : (addressed m address).Decodes address
    · obtain ⟨i, hi, hs⟩ := List.getElem_of_mem (addressed_mem m address)
      have hlength := (routes_serve m).length_eq
      have hserves := (routes_serve m).get (hlength ▸ hi) hi
      refine Or.inr ⟨_, List.getElem_mem _, (hserves.1 address).2 ?_⟩
      change m.slaves[i].Decodes address
      rwa [hs]
    · rw [addressed_of_not_decodes h]
      cases m <;> exact Or.inl rfl

/-- The slave does not depend on the byte of the word. -/
theorem addressed_aligned (m : Master) (address : BitVec 18) :
    addressed m ((Field.low 2).set 0#2 address) = addressed m address := by
  have hdecodes : ∀ s : Slave, s.Decodes ((Field.low 2).set 0#2 address) ↔ s.Decodes address := by
    intro s
    have hbase : 4 ∣ s.base ∧ 4 ∣ s.span := by cases s <;> decide
    obtain ⟨⟨b, hb⟩, ⟨n, hn⟩⟩ := hbase
    rw [Slave.Decodes, Slave.Decodes, Field.toNat_set_low (by decide), hb, hn]
    constructor <;> rintro ⟨hlo, hhi⟩ <;> constructor <;> omega
  simp only [addressed, hdecodes]

/-! ## Channels -/

theorem getLsbD_channel {m : Master} {s s' : Slave} (hs : s ∈ m.slaves) (hs' : s' ∈ m.slaves) :
    (1#8 <<< s'.channel m).getLsbD (s.channel m) = decide (s = s') := by
  have hall : ∀ s ∈ m.slaves, ∀ s' ∈ m.slaves,
      (1#8 <<< s'.channel m).getLsbD (s.channel m) = decide (s = s') := by
    cases m <;> decide
  exact hall s hs s' hs'

theorem mem_slaves_iff (m : Master) (s : Slave) :
    s ∈ m.slaves ↔ s.shared = true ∨ m = .cpuDataMaster := by
  cases m <;> cases s <;> decide

/-- The router of a slave takes a response to the master that the command is from. -/
theorem responseChannel_eq {m : Master} {s : Slave} {data : BitVec 94} (hs : s ∈ m.slaves)
    (hdest : Pkt.destId.get data = m.id) (hread : Pkt.transRead.flag data = true) :
    responseChannel s data = 1#8 <<< m.index := by
  rw [responseChannel, hdest, hread]
  cases m with
  | cpuDataMaster =>
    rw [if_neg fun h => absurd h.2.1 (by decide)]
    rfl
  | cpuInstructionMaster =>
    rw [if_pos ⟨((mem_slaves_iff _ s).1 hs).resolve_right Master.noConfusion, rfl, rfl⟩]
    rfl

theorem getLsbD_index (m m' : Master) :
    (1#8 <<< m'.index).getLsbD m.index = decide (m = m') := by
  cases m <;> cases m' <;> rfl

theorem Master.id_injective : Function.Injective Master.id := by
  intro m m' h
  cases m <;> cases m' <;> first
    | rfl
    | exact absurd h (by decide)

end EmbeddedSystems.HostSystem.Interconnect
