import EmbeddedSystems.Library.StreamQueue

/-!
# The FIFO of the interconnect

The module `altera_avalon_sc_fifo`, as the interconnect instantiates it: stored in registers
(`USE_MEMORY_BLOCKS = 0`), with `EMPTY_LATENCY` zero or one, and without the modes for
packets (`USE_STORE_FORWARD`) and fill levels (`USE_FILL_LEVEL`), for any depth. It
is a shift register, in which an occupancy bit for each slot tells the slots in use; new
data goes to every slot that is going to be empty.

From the reset on, it is a queue of `FIFO_DEPTH` places (`fifo_is_queue`): the payloads
that it takes leave it once, in order and unchanged.
-/

namespace EmbeddedSystems.HostSystem.ScFifo

open StreamQueue (Inp Config)

/-- The parameters: `FIFO_DEPTH` is `last + 1`, and `EMPTY_LATENCY` is one of those without a
    register behind the FIFO. -/
structure Params where
  last : ℕ
  emptyLatency : ℕ
  emptyLatency_le : emptyLatency ≤ 1

/-- The registers `mem`, of which those up to `last` exist, and `mem_used`. -/
structure State (P : Params) (α : Type*) where
  mem : ℕ → α
  memUsed : BitVec (P.last + 1)

variable {P : Params} {α : Type*}

/-! ## The wires -/

section

variable (x : Inp α) (s : State P α)

def empty : Bool :=
  if P.emptyLatency = 0 then !s.memUsed.getLsbD 0 && !x.inValid else !s.memUsed.getLsbD 0

/-- The wire `internal_out_payload`, which is the output `out_payload`. -/
def outPayload : α :=
  if P.emptyLatency = 0 ∧ s.memUsed.getLsbD 0 = false ∧ x.inValid = true then x.inData else s.mem 0

/-- The wire `internal_out_valid`, which is the output `out_valid`. -/
def outValid : Bool := !empty x s

def internalOutReady : Bool := x.outReady || !outValid x s

def read : Bool := internalOutReady x s && outValid x s

def full : Bool :=
  if P.last = 0 then s.memUsed.getLsbD 0 && !read x s else s.memUsed.getLsbD P.last

def inReady : Bool := !full x s

def write : Bool := inReady x s && x.inValid

/-! ## The blocks, at a rising edge of the clock -/

/-- The block of `mem[i]`. -/
def memClock (i : ℕ) : α :=
  if i < P.last then
    if (read x s || !s.memUsed.getLsbD i) = true then
      if s.memUsed.getLsbD (i + 1) = false then x.inData else s.mem (i + 1)
    else s.mem i
  else if P.last = 0 then
    if write x s = true then x.inData else s.mem i
  else if s.memUsed.getLsbD i = false then x.inData
  else s.mem i

/-- The block of `mem_used[i]`. -/
def memUsedClock (i : ℕ) : Bool :=
  if (write x s ^^ read x s) = true then
    if i = 0 then
      if write x s = true then true
      else if 0 < P.last then s.memUsed.getLsbD 1
      else false
    else if i = P.last then
      if write x s = true then s.memUsed.getLsbD (i - 1) else false
    else
      if write x s = true then s.memUsed.getLsbD (i - 1) else s.memUsed.getLsbD (i + 1)
  else s.memUsed.getLsbD i

def clock : State P α where
  mem := memClock x s
  memUsed := BitVec.ofFnLE fun i => memUsedClock x s i.val

end

/-- The state after a reset. -/
def resetState (P : Params) (zero : α) : State P α := ⟨fun _ => zero, 0#_⟩

/-- The state before the rising edge `t` of the clock, from the reset on. -/
def run (P : Params) (zero : α) (ω : ℕ → Inp α) : ℕ → State P α
  | 0 => resetState P zero
  | t + 1 => clock (ω t) (run P zero ω t)

/-- What the FIFO takes at an edge of the clock. -/
def accepted (x : Inp α) (s : State P α) : List α :=
  if x.inValid && inReady x s then [x.inData] else []

/-- What leaves the FIFO at an edge of the clock. -/
def emitted (x : Inp α) (s : State P α) : List α :=
  if outValid x s && x.outReady then [outPayload x s] else []

def acceptedUpTo (P : Params) (zero : α) (ω : ℕ → Inp α) (t : ℕ) : List α :=
  (List.range t).flatMap fun u => accepted (ω u) (run P zero ω u)

def emittedUpTo (P : Params) (zero : α) (ω : ℕ → Inp α) (t : ℕ) : List α :=
  (List.range t).flatMap fun u => emitted (ω u) (run P zero ω u)

/-! ## The queue -/

/-- The queue that the FIFO is to be. -/
def Params.config (P : Params) : Config := ⟨P.last, P.emptyLatency = 0⟩

/-- The slots in use hold the queue, the oldest value first. -/
structure Refines (s : State P α) (q : List α) : Prop where
  length : q.length ≤ P.last + 1
  used : ∀ i, s.memUsed.getLsbD i = decide (i < q.length)
  mem : ∀ (i : ℕ) (h : i < q.length), s.mem i = q.get ⟨i, h⟩

variable {x : Inp α} {s : State P α} {q : List α}

theorem Refines.used_zero (h : Refines s q) : s.memUsed.getLsbD 0 = !q.isEmpty := by
  rw [h.used]
  cases q <;> rfl

theorem Refines.outValid (h : Refines s q) : outValid x s = P.config.outValid q x := by
  rw [ScFifo.outValid, empty, h.used_zero, Config.outValid, Params.config]
  split_ifs with hlatency
  · rw [decide_eq_true hlatency, Bool.not_not, Bool.not_and, Bool.not_not, Bool.true_and]
  · rw [decide_eq_false hlatency, Bool.not_not, Bool.false_and, Bool.or_false]

theorem read_eq (x : Inp α) (s : State P α) :
    read x s = (x.outReady && ScFifo.outValid x s) := by
  rw [read, internalOutReady]
  cases x.outReady <;> cases ScFifo.outValid x s <;> rfl

theorem Refines.read (h : Refines s q) : read x s = P.config.read q x := by
  rw [read_eq, h.outValid, Config.read]

theorem Refines.inReady (h : Refines s q) : inReady x s = P.config.inReady q x := by
  have hlength := h.length
  have hlast : P.config.last = P.last := rfl
  rw [ScFifo.inReady, full, h.used_zero, h.used, h.read, Config.inReady, hlast, Bool.eq_iff_iff]
  split_ifs with hone
  · rw [decide_eq_true hone, Bool.true_and, Bool.not_and, Bool.not_not, Bool.not_not, hone]
    cases q <;> simp
  · rw [decide_eq_false hone, Bool.false_and, Bool.or_false, Bool.not_eq_true',
      decide_eq_false_iff_not, decide_eq_true_iff]
    omega

theorem Refines.write (h : Refines s q) : write x s = P.config.write q x := by
  rw [ScFifo.write, h.inReady, Config.write]

theorem Refines.outPayload (h : Refines s q) (hvalid : ScFifo.outValid x s = true) :
    outPayload x s = Config.outData q x := by
  rw [h.outValid, Config.outValid, Params.config] at hvalid
  rw [ScFifo.outPayload, h.used_zero, Config.outData]
  cases q with
  | nil =>
    simp only [List.isEmpty_nil, Bool.not_true, Bool.false_or, Bool.and_eq_true,
      decide_eq_true_iff] at hvalid
    rw [if_pos ⟨hvalid.1, rfl, hvalid.2⟩]
    rfl
  | cons a q =>
    rw [if_neg fun hempty => by simp at hempty, h.mem 0 (Nat.succ_pos _)]
    rfl

theorem getLsbD_clock (x : Inp α) (s : State P α) {i : ℕ} (hi : i < P.last + 1) :
    (clock x s).memUsed.getLsbD i = memUsedClock x s i := by
  have hclock : (clock x s).memUsed = BitVec.ofFnLE fun i => memUsedClock x s i.val := rfl
  rw [hclock, BitVec.getLsbD_ofFnLE, dif_pos hi]

/-- A value enters only if there is a place for it. -/
theorem Refines.length_lt (h : Refines s q) (hread : ScFifo.read x s = false)
    (hwrite : ScFifo.write x s = true) : q.length < P.last + 1 := by
  rw [h.write, Config.write, Config.inReady, ← h.read, hread, Bool.and_false, Bool.or_false,
    Bool.and_eq_true, decide_eq_true_iff] at hwrite
  exact hwrite.1

/-- The occupancy bits, by what happens at the edge. -/
theorem Refines.used_clock (h : Refines s q) (i : ℕ) :
    (clock x s).memUsed.getLsbD i = decide (i < (P.config.next q x).length) := by
  have hlength := h.length
  have hnext : (P.config.next q x).length ≤ P.last + 1 := StreamQueue.length_next_le hlength
  rcases Nat.lt_or_ge i (P.last + 1) with hi | hi
  · rw [getLsbD_clock x s hi, memUsedClock, Config.next, ← h.read, Config.entered, ← h.write]
    simp only [h.used]
    rcases Bool.eq_false_or_eq_true (ScFifo.read x s) with hread | hread <;>
      rcases Bool.eq_false_or_eq_true (ScFifo.write x s) with hwrite | hwrite
    · -- A value enters and another one leaves.
      simp only [hread, hwrite, Bool.xor_self, Bool.false_eq_true, if_false, if_true,
        List.length_tail, List.length_append, List.length_singleton, Nat.add_sub_cancel]
    · have hpos : q ≠ [] := by
        rintro rfl
        rw [h.read] at hread
        rw [h.write, StreamQueue.write_of_lookahead hread] at hwrite
        exact Bool.false_ne_true hwrite.symm
      have hlen := List.length_pos_iff.2 hpos
      simp only [hread, hwrite, Bool.false_xor, if_true, Bool.false_eq_true, if_false,
        List.append_nil, List.length_tail]
      split_ifs with hzero hone hlast
      · subst hzero
        exact decide_eq_decide.2 (by omega)
      · subst hzero
        exact (decide_eq_false (by omega)).symm
      · exact (decide_eq_false (by omega)).symm
      · exact decide_eq_decide.2 (by omega)
    · have hplace := h.length_lt hread hwrite
      simp only [hread, hwrite, Bool.xor_false, if_true, Bool.false_eq_true, if_false,
        List.length_append, List.length_singleton]
      split_ifs with hzero hlast
      · subst hzero
        exact (decide_eq_true (Nat.succ_pos _)).symm
      · exact decide_eq_decide.2 (by omega)
      · exact decide_eq_decide.2 (by omega)
    · simp only [hread, hwrite, Bool.xor_self, Bool.false_eq_true, if_false, List.append_nil]
  · rw [BitVec.getLsbD_of_ge _ _ hi, decide_eq_false (by omega)]

/-- A slot in use keeps its value while nothing leaves. -/
theorem memClock_of_kept {i : ℕ} (hread : ScFifo.read x s = false)
    (hwrite : ScFifo.write x s = true → P.last ≠ 0) (hused : s.memUsed.getLsbD i = true) :
    memClock x s i = s.mem i := by
  rw [memClock, hread, hused, Bool.not_true, Bool.or_false, if_neg Bool.false_ne_true,
    if_neg Bool.false_ne_true.symm]
  split_ifs with hlt hone hw
  · rfl
  · exact absurd hone (hwrite hw)
  · rfl
  · rfl

/-- A value moves on when the oldest one leaves. -/
theorem memClock_of_shifted {i : ℕ} (hread : ScFifo.read x s = true) (hi : i < P.last)
    (hused : s.memUsed.getLsbD (i + 1) = true) : memClock x s i = s.mem (i + 1) := by
  rw [memClock, if_pos hi, hread, Bool.true_or, if_pos rfl, hused,
    if_neg Bool.false_ne_true.symm]

/-- The first slot that is going to be empty takes the new value. -/
theorem memClock_of_new {i : ℕ} (hwrite : ScFifo.write x s = true)
    (hfree : P.last = 0 ∨ ScFifo.read x s = true ∧ i < P.last ∨ s.memUsed.getLsbD i = false)
    (hnext : s.memUsed.getLsbD (i + 1) = false) : memClock x s i = x.inData := by
  rw [memClock, hnext, if_pos rfl, hwrite, if_pos rfl]
  split_ifs with hlt hor hone hused
  · rfl
  · rw [Bool.or_eq_true, not_or, Bool.not_eq_true', Bool.not_eq_true] at hor
    rcases hfree with hone | ⟨hread, -⟩ | hused
    · exact absurd (hone ▸ hlt) (Nat.not_lt_zero _)
    · exact absurd hread (by rw [hor.1]; exact Bool.false_ne_true)
    · exact absurd hused hor.2
  · rfl
  · rfl
  · rcases hfree with hone' | ⟨-, hlt'⟩ | hused'
    · exact absurd hone' hone
    · exact absurd hlt' hlt
    · exact absurd hused' hused

theorem Refines.mem_clock (h : Refines s q) {i : ℕ} (hi : i < (P.config.next q x).length) :
    (clock x s).mem i = (P.config.next q x).get ⟨i, hi⟩ := by
  have hlength := h.length
  have hread := h.read (x := x)
  have hwrite := h.write (x := x)
  change memClock x s i = (P.config.next q x)[i]
  simp only [Config.next, Config.entered, ← hread, ← hwrite] at hi ⊢
  rcases Bool.eq_false_or_eq_true (ScFifo.read x s) with hr | hr
  · -- The oldest value leaves, and all others move on.
    simp only [hr, if_true, List.length_tail, List.getElem_tail] at hi ⊢
    rcases Nat.lt_or_ge (i + 1) q.length with hlt | hge
    · have hused : s.memUsed.getLsbD (i + 1) = true := by rw [h.used, decide_eq_true hlt]
      rw [List.getElem_append_left hlt, memClock_of_shifted hr (by omega) hused]
      exact h.mem (i + 1) hlt
    · have hw : ScFifo.write x s = true := by
        by_contra hw
        simp only [hw, if_false, List.append_nil] at hi
        omega
      have hnext : s.memUsed.getLsbD (i + 1) = false := by
        rw [h.used, decide_eq_false (Nat.not_lt.2 hge)]
      simp only [hw, if_true, List.length_append, List.length_singleton] at hi ⊢
      rw [List.getElem_append_right hge, List.getElem_singleton]
      refine memClock_of_new hw ?_ hnext
      rcases Nat.lt_or_ge i P.last with hlt | hlast
      · exact Or.inr (Or.inl ⟨hr, hlt⟩)
      · -- The queue is full and takes a value, which only a queue of one place does.
        rw [hwrite, Config.write, Config.inReady, decide_eq_false (by change ¬_ < P.last + 1; omega),
          Bool.false_or, Bool.and_eq_true, Bool.and_eq_true, decide_eq_true_iff] at hw
        exact Or.inl hw.1.1
  · simp only [hr, Bool.false_eq_true, if_false] at hi ⊢
    rcases Nat.lt_or_ge i q.length with hlt | hge
    · have hused : s.memUsed.getLsbD i = true := by rw [h.used, decide_eq_true hlt]
      rw [List.getElem_append_left hlt, memClock_of_kept hr (fun hw => ?_) hused]
      · exact h.mem i hlt
      · have hplace := h.length_lt hr hw
        omega
    · have hw : ScFifo.write x s = true := by
        by_contra hw
        simp only [hw, if_false, List.append_nil] at hi
        omega
      have hfree : ∀ j, q.length ≤ j → s.memUsed.getLsbD j = false := fun j hj => by
        rw [h.used, decide_eq_false (Nat.not_lt.2 hj)]
      simp only [hw, if_true] at hi ⊢
      rw [List.getElem_append_right hge, List.getElem_singleton]
      exact memClock_of_new hw (Or.inr (Or.inr (hfree i hge))) (hfree (i + 1) (by omega))

theorem Refines.clock (h : Refines s q) : Refines (clock x s) (P.config.next q x) where
  length := StreamQueue.length_next_le h.length
  used := h.used_clock
  mem _ hi := h.mem_clock hi

/-! ## Runs -/

theorem refines_run (P : Params) (zero : α) (ω : ℕ → Inp α) (t : ℕ) :
    Refines (run P zero ω t) (StreamQueue.run P.config ω t) := by
  induction t with
  | zero =>
    refine ⟨Nat.zero_le _, fun i => ?_, fun i hi => absurd hi (Nat.not_lt_zero i)⟩
    change (0#(P.last + 1)).getLsbD i = decide (i < 0)
    rw [BitVec.getLsbD_zero, decide_eq_false (Nat.not_lt_zero i)]
  | succ t ih => exact ih.clock

theorem Refines.accepted (h : Refines s q) : accepted x s = P.config.entered q x := by
  rw [ScFifo.accepted, Config.entered, Config.write, h.inReady, Bool.and_comm]

theorem Refines.emitted (h : Refines s q) : emitted x s = P.config.departed q x := by
  rw [ScFifo.emitted, Config.departed, Config.read, ← h.outValid, Bool.and_comm]
  split_ifs with hleaves
  · rw [h.outPayload (Bool.and_eq_true _ _ ▸ hleaves).2]
  · rfl

/-- The FIFO is a queue of `FIFO_DEPTH` places: it is ready, it is valid and it shows what the
    queue does at every edge, and what it has taken is what has left it, in the same
    order, followed by what is in the queue. -/
theorem fifo_is_queue (P : Params) (zero : α) (ω : ℕ → Inp α) (t : ℕ) :
    inReady (ω t) (run P zero ω t) = P.config.inReady (StreamQueue.run P.config ω t) (ω t) ∧
    outValid (ω t) (run P zero ω t) = P.config.outValid (StreamQueue.run P.config ω t) (ω t) ∧
    (outValid (ω t) (run P zero ω t) = true →
      outPayload (ω t) (run P zero ω t) = Config.outData (StreamQueue.run P.config ω t) (ω t)) ∧
    acceptedUpTo P zero ω t = emittedUpTo P zero ω t ++ StreamQueue.run P.config ω t ∧
    (StreamQueue.run P.config ω t).length ≤ P.last + 1 := by
  have h := refines_run P zero ω
  have haccepted : acceptedUpTo P zero ω t = StreamQueue.enteredUpTo P.config ω t :=
    List.flatMap_congr fun u _ => (h u).accepted
  have hemitted : emittedUpTo P zero ω t = StreamQueue.departedUpTo P.config ω t :=
    List.flatMap_congr fun u _ => (h u).emitted
  refine ⟨(h t).inReady, (h t).outValid, (h t).outPayload, ?_, (h t).length⟩
  rw [haccepted, hemitted, StreamQueue.run_append]

end EmbeddedSystems.HostSystem.ScFifo
