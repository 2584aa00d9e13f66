import EmbeddedSystems.Hal.Llist

/-!
# Alarms

The tick counter and the list of alarms of the HAL: `alt_alarm_start`, `alt_alarm_stop`
and `alt_tick`, on linked lists and 32-bit times with a flag for the rollover of the
counter. What a callback does is a parameter (`call`), apart from the list of alarms, which
a callback only changes through the value it returns.

The purpose is a countdown (`Countdown`): every alarm holds the number of ticks until its
next callback, whatever the tick counter is. The HAL refines it, over any sequence of ticks,
starts and stops (`alarms_refine`): the same callbacks run, in the same order, at the same
ticks, across every rollover, the loop of `alt_tick` terminates, and the list stays intact
while alarms remove themselves from it.

The counterpart in the HAL of an operation that has no counterpart in the countdown is not
described: the start of an alarm that is registered, or for `2 ^ 32 - 1` ticks, and the stop of
an alarm that has never been started.
-/

namespace EmbeddedSystems.Hal

open LinkedRing

/-- `struct alt_alarm_s`, but for its links. -/
structure Alarm (φ χ : Type*) where
  time : BitVec 32
  callback : φ
  rollover : BitVec 8
  context : χ

/-- The variables `_alt_tick_rate` and `_alt_nticks`, the links and the other fields of all
    alarms, and what the callbacks work on. -/
structure State (α φ χ W : Type*) where
  tickRate : BitVec 32
  nticks : BitVec 32
  links : Links α
  alarm : α → Alarm φ χ
  world : W

variable {α φ χ W : Type*} [DecidableEq α]

def State.setAlarm (alarm : α) (v : Alarm φ χ) (s : State α φ χ W) : State α φ χ W :=
  { s with alarm := Function.update s.alarm alarm v }

/-- `alt_alarm_stop(alarm)`. -/
def altAlarmStop (alarm : α) (s : State α φ χ W) : State α φ χ W :=
  { s with links := Llist.remove alarm s.links }

/-! ## Ticks -/

/-- `if (alarm->rollover && _alt_nticks == 0) alarm->rollover = 0;` -/
def clearRollover (nticks : BitVec 32) (a : Alarm φ χ) : Alarm φ χ :=
  if a.rollover ≠ 0#8 ∧ nticks = 0#32 then { a with rollover := 0#8 } else a

/-- `alarm->time <= _alt_nticks && alarm->rollover == 0` -/
def expired (nticks : BitVec 32) (a : Alarm φ χ) : Bool := a.time ≤ nticks && a.rollover = 0#8

/-- `alarm->time += next_callback; if (alarm->time < _alt_nticks) alarm->rollover = 1;` -/
def reschedule (nticks nextCallback : BitVec 32) (a : Alarm φ χ) : Alarm φ χ :=
  let a := { a with time := a.time + nextCallback }
  if a.time < nticks then { a with rollover := 1#8 } else a

section

variable (call : φ → χ → W → BitVec 32 × W) (alarmList : α)

/-- The body of the loop of `alt_tick`, between the steps to the next alarm. -/
def serve (alarm : α) (s : State α φ χ W) : State α φ χ W :=
  let s := s.setAlarm alarm (clearRollover s.nticks (s.alarm alarm))
  if expired s.nticks (s.alarm alarm) then
    let (nextCallback, world) := call (s.alarm alarm).callback (s.alarm alarm).context s.world
    let s := { s with world := world }
    if nextCallback = 0#32 then altAlarmStop alarm s
    else s.setAlarm alarm (reschedule s.nticks nextCallback (s.alarm alarm))
  else s

/-- The loop of `alt_tick`, from the given alarm on. The next alarm is read before the body; `none`
    if the loop takes more than `fuel` passes. -/
def tickLoop : (fuel : ℕ) → (alarm : α) → (s : State α φ χ W) → Option (State α φ χ W)
  | 0, _, _ => none
  | fuel + 1, alarm, s =>
    if alarm = alarmList then some s
    else
      let next := s.links.next alarm
      tickLoop fuel next (serve call alarm s)

/-- `alt_tick()`. -/
def altTick (fuel : ℕ) (s : State α φ χ W) : Option (State α φ χ W) :=
  let alarm := s.links.next alarmList
  let s := { s with nticks := s.nticks + 1#32 }
  tickLoop call alarmList fuel alarm s

end

/-! ## Starts -/

def EINVAL : ℤ := 22

def ENOTSUP : ℤ := 134

/-- The fields that `alt_alarm_start` sets. -/
def newAlarm (current nticks : BitVec 32) (callback : φ) (context : χ) : Alarm φ χ :=
  let time := nticks + current + 1#32
  { time, callback, rollover := if time < current then 1#8 else 0#8, context }

/-- `alt_alarm_start(alarm, nticks, callback, context)`, with the value it returns. -/
def altAlarmStart (alarmList : α) (alarm : Option α) (nticks : BitVec 32) (callback : φ)
    (context : χ) (s : State α φ χ W) : ℤ × State α φ χ W :=
  if s.tickRate ≠ 0#32 then
    match alarm with
    | some alarm =>
      let s := s.setAlarm alarm (newAlarm s.nticks nticks callback context)
      (0, { s with links := Llist.insert alarmList alarm s.links })
    | none => (-EINVAL, s)
  else (-ENOTSUP, s)

/-! ## Operations -/

/-- What the system asks the HAL for. -/
inductive Op (α φ χ : Type*)
  | tick
  | start (alarm : Option α) (nticks : BitVec 32) (callback : φ) (context : χ)
  | stop (alarm : α)

variable (call : φ → χ → W → BitVec 32 × W) (alarmList : α)

def State.step (fuel : ℕ) : Op α φ χ → State α φ χ W → Option (State α φ χ W)
  | .tick, s => altTick call alarmList fuel s
  | .start alarm nticks callback context, s =>
    some (altAlarmStart alarmList alarm nticks callback context s).2
  | .stop alarm, s => some (altAlarmStop alarm s)

def State.run (fuel : ℕ) (ops : List (Op α φ χ)) (s : State α φ χ W) : Option (State α φ χ W) :=
  ops.foldlM (fun s op => s.step call alarmList fuel op) s

/-! ## The countdown -/

/-- A registered alarm, and the number of ticks until its callback. -/
structure Entry (α φ χ : Type*) where
  alarm : α
  callback : φ
  context : χ
  remaining : ℕ

/-- The registered alarms, in the order of their callbacks, and the alarms that have been
    registered before. -/
structure Countdown (α φ χ W : Type*) where
  entries : List (Entry α φ χ)
  idle : List α
  world : W

def Countdown.alarms (c : Countdown α φ χ W) : List α := c.entries.map Entry.alarm

/-- A tick: every alarm counts down, and a callback runs when its time has come. -/
def Countdown.tick : List (Entry α φ χ) → Countdown α φ χ W → Countdown α φ χ W
  | [], c => c
  | e :: l, c =>
    if e.remaining = 1 then
      if (call e.callback e.context c.world).1 = 0#32 then
        Countdown.tick l { c with
          idle := e.alarm :: c.idle, world := (call e.callback e.context c.world).2 }
      else
        Countdown.tick l { c with
          entries := c.entries ++
            [{ e with remaining := (call e.callback e.context c.world).1.toNat }]
          world := (call e.callback e.context c.world).2 }
    else
      Countdown.tick l { c with entries := c.entries ++ [{ e with remaining := e.remaining - 1 }] }

/-- The operations on the countdown; `none` if the operation must not be asked for. -/
def Countdown.step : Op α φ χ → Countdown α φ χ W → Option (Countdown α φ χ W)
  | .tick, c => some (Countdown.tick call c.entries { c with entries := [] })
  | .start none _ _ _, c => some c
  | .start (some alarm) nticks callback context, c =>
    if alarm ∈ alarmList :: c.alarms ∨ 2 ^ 32 ≤ nticks.toNat + 1 then none
    else some { c with
      entries := ⟨alarm, callback, context, nticks.toNat + 1⟩ :: c.entries
      idle := c.idle.filter (· ≠ alarm) }
  | .stop alarm, c =>
    if alarm ∈ c.alarms then
      some { c with
        entries := c.entries.filter (·.alarm ≠ alarm), idle := alarm :: c.idle }
    else if alarm ∈ c.idle then some c
    else none

def Countdown.run (ops : List (Op α φ χ)) (c : Countdown α φ χ W) : Option (Countdown α φ χ W) :=
  ops.foldlM (fun c op => c.step call alarmList op) c

/-! ## Times -/

/-- At the tick `n`, the alarm is to run in `r` ticks. -/
structure Timed (n : BitVec 32) (r : ℕ) (a : Alarm φ χ) : Prop where
  lt : r < 2 ^ 32
  time : a.time.toNat = (n.toNat + r) % 2 ^ 32
  rollover : a.rollover = 0#8 ↔ n.toNat + r < 2 ^ 32

section

variable {n : BitVec 32} {r : ℕ} {a : Alarm φ χ}

theorem toNat_succ (n : BitVec 32) : (n + 1#32).toNat = (n.toNat + 1) % 2 ^ 32 := by
  rw [BitVec.toNat_add, BitVec.toNat_ofNat, Nat.mod_eq_of_lt (by decide : 1 < 2 ^ 32)]

theorem Timed.expired_iff (h : Timed n r a) : expired n a = true ↔ r = 0 := by
  have hn := n.isLt
  rw [expired, Bool.and_eq_true, decide_eq_true_iff, decide_eq_true_iff, BitVec.le_def, h.time,
    h.rollover]
  constructor
  · rintro ⟨hle, hlt⟩
    rw [Nat.mod_eq_of_lt hlt] at hle
    omega
  · rintro rfl
    rw [Nat.add_zero, Nat.mod_eq_of_lt hn]
    exact ⟨le_rfl, hn⟩

/-- A tick brings the alarm closer, also when the counter rolls over. -/
theorem Timed.tick (h : Timed n (r + 1) a) :
    Timed (n + 1#32) r (clearRollover (n + 1#32) a) := by
  have hn := n.isLt
  have hlt : r < 2 ^ 32 := Nat.lt_of_succ_lt h.lt
  have htime : (clearRollover (n + 1#32) a).time = a.time := by
    rw [clearRollover]
    split_ifs <;> rfl
  refine ⟨hlt, ?_, ?_⟩
  · rw [htime, h.time, toNat_succ, Nat.mod_add_mod, Nat.add_right_comm, Nat.add_assoc]
  · rw [clearRollover, toNat_succ]
    rcases Nat.lt_or_ge (n.toNat + 1) (2 ^ 32) with hsucc | hwrap
    · -- The counter does not roll over, and the flag stays.
      have hne : n + 1#32 ≠ 0#32 := fun hzero => by
        have h0 := congrArg BitVec.toNat hzero
        rw [toNat_succ, Nat.mod_eq_of_lt hsucc] at h0
        exact absurd h0 (Nat.succ_ne_zero _)
      rw [if_neg fun hzero => hne hzero.2, h.rollover, Nat.mod_eq_of_lt hsucc, Nat.add_right_comm,
        Nat.add_assoc]
    · -- The counter rolls over, and the flag has been set.
      have hsucc : n.toNat + 1 = 2 ^ 32 := Nat.le_antisymm hn hwrap
      have hzero : n + 1#32 = 0#32 := by
        apply BitVec.eq_of_toNat_eq
        rw [toNat_succ, hsucc]
        rfl
      have hflag : a.rollover ≠ 0#8 := fun hflag => by
        have hlt := h.rollover.1 hflag
        omega
      rw [if_pos ⟨hflag, hzero⟩, hsucc, Nat.mod_self, Nat.zero_add]
      exact iff_of_true rfl hlt

/-- The sum of a time and fewer than `2 ^ 32` ticks is below the time if and only if the counter
    rolls over in between. -/
theorem timed_of_flag (hr : r < 2 ^ 32) (htime : a.time.toNat = (n.toNat + r) % 2 ^ 32)
    (hflag : a.rollover = 0#8 ↔ ¬a.time < n) : Timed n r a := by
  refine ⟨hr, htime, hflag.trans ?_⟩
  have hn := n.isLt
  rw [BitVec.lt_def, htime, not_lt]
  rcases Nat.lt_or_ge (n.toNat + r) (2 ^ 32) with hlt | hwrap
  · rw [Nat.mod_eq_of_lt hlt]
    exact iff_of_true (Nat.le_add_right _ _) hlt
  · rw [Nat.mod_eq_sub_mod hwrap, Nat.mod_eq_of_lt (by omega)]
    exact iff_of_false (by omega) (not_lt.2 hwrap)

theorem Timed.reschedule {period : BitVec 32} (h : Timed n 0 a) :
    Timed n period.toNat (reschedule n period a) := by
  have hflag : a.rollover = 0#8 := h.rollover.2 n.isLt
  have htime : (a.time + period).toNat = (n.toNat + period.toNat) % 2 ^ 32 := by
    rw [BitVec.toNat_add, h.time, Nat.add_zero, Nat.mod_eq_of_lt n.isLt]
  have hone : (1#8 : BitVec 8) ≠ 0#8 := by decide
  rw [Hal.reschedule]
  split_ifs with hlt
  · exact timed_of_flag period.isLt htime (iff_of_false hone (not_not.2 hlt))
  · exact timed_of_flag period.isLt htime (iff_of_true hflag hlt)

theorem timed_newAlarm {nticks : BitVec 32} (h : nticks.toNat + 1 < 2 ^ 32) (callback : φ)
    (context : χ) : Timed n (nticks.toNat + 1) (newAlarm n nticks callback context) := by
  refine timed_of_flag h ?_ ?_
  · change (nticks + n + 1#32).toNat = _
    rw [toNat_succ, BitVec.toNat_add, Nat.mod_add_mod, Nat.add_comm nticks.toNat, Nat.add_assoc]
  · change (if nticks + n + 1#32 < n then 1#8 else 0#8) = 0#8 ↔ ¬nticks + n + 1#32 < n
    split_ifs with hlt
    · exact iff_of_false (by decide) (not_not.2 hlt)
    · exact iff_of_true rfl hlt

end

/-! ## The refinement -/

/-- The fields of an alarm are those of an entry. -/
structure Due (n : BitVec 32) (e : Entry α φ χ) (a : Alarm φ χ) : Prop where
  callback : a.callback = e.callback
  context : a.context = e.context
  timed : Timed n e.remaining a

/-- The state of the HAL is one of the countdown. -/
structure Refines (alarmList : α) (s : State α φ χ W) (c : Countdown α φ χ W) : Prop where
  rate : s.tickRate ≠ 0#32
  ring : IsRing s.links alarmList c.alarms
  idle : ∀ a ∈ c.idle, a ∉ alarmList :: c.alarms ∧ Llist.SelfLinked s.links a
  due : ∀ e ∈ c.entries, Due s.nticks e (s.alarm e.alarm)
  pos : ∀ e ∈ c.entries, e.remaining ≠ 0
  world : s.world = c.world

variable {alarmList : α} {s : State α φ χ W}
  {c : Countdown α φ χ W} {e : Entry α φ χ}

theorem setAlarm_self (alarm : α) (v : Alarm φ χ) (s : State α φ χ W) :
    (s.setAlarm alarm v).alarm alarm = v := Function.update_self ..

theorem setAlarm_of_ne {alarm b : α} (h : b ≠ alarm) (v : Alarm φ χ) (s : State α φ χ W) :
    (s.setAlarm alarm v).alarm b = s.alarm b := Function.update_of_ne h ..

/-- The body of the loop, in terms of the fields of the alarm. -/
theorem serve_eq (call : φ → χ → W → BitVec 32 × W) (alarm : α) (s : State α φ χ W)
    (v : Alarm φ χ) (hv : clearRollover s.nticks (s.alarm alarm) = v) :
    serve call alarm s =
      if expired s.nticks v = true then
        if (call v.callback v.context s.world).1 = 0#32 then
          altAlarmStop alarm
            { s.setAlarm alarm v with world := (call v.callback v.context s.world).2 }
        else
          { s.setAlarm alarm (reschedule s.nticks (call v.callback v.context s.world).1 v) with
            world := (call v.callback v.context s.world).2 }
      else s.setAlarm alarm v := by
  rw [serve, hv]
  simp only [State.setAlarm, Function.update_self, Function.update_idem]

theorem clearRollover_fields (n : BitVec 32) (a : Alarm φ χ) :
    (clearRollover n a).callback = a.callback ∧ (clearRollover n a).context = a.context := by
  rw [clearRollover]
  split_ifs <;> exact ⟨rfl, rfl⟩

theorem reschedule_fields (n period : BitVec 32) (a : Alarm φ χ) :
    (reschedule n period a).callback = a.callback ∧
      (reschedule n period a).context = a.context := by
  rw [Hal.reschedule]
  split_ifs <;> exact ⟨rfl, rfl⟩

/-- What the body of the loop does to an alarm: it counts down, or its callback runs, and it goes
    on with a new time or is taken out. -/
theorem serve_cases (call : φ → χ → W → BitVec 32 × W) {n : BitVec 32}
    (hn : s.nticks = n + 1#32) (h : Due n e (s.alarm e.alarm)) (hpos : e.remaining ≠ 0) :
    (e.remaining ≠ 1 ∧ ∃ v, serve call e.alarm s = s.setAlarm e.alarm v ∧
      Due s.nticks { e with remaining := e.remaining - 1 } v) ∨
    (e.remaining = 1 ∧ (call e.callback e.context s.world).1 = 0#32 ∧
      ∃ v, serve call e.alarm s = altAlarmStop e.alarm
        { s.setAlarm e.alarm v with world := (call e.callback e.context s.world).2 }) ∨
    (e.remaining = 1 ∧ (call e.callback e.context s.world).1 ≠ 0#32 ∧
      ∃ v, serve call e.alarm s =
        { s.setAlarm e.alarm v with world := (call e.callback e.context s.world).2 } ∧
        Due s.nticks
          { e with remaining := (call e.callback e.context s.world).1.toNat } v) := by
  rcases h with ⟨hcallback, hcontext, htimed⟩
  rcases Nat.exists_eq_succ_of_ne_zero hpos with ⟨r, hr⟩
  rw [hr] at htimed
  obtain ⟨v, hv⟩ : ∃ v, clearRollover s.nticks (s.alarm e.alarm) = v := ⟨_, rfl⟩
  have hfields := clearRollover_fields s.nticks (s.alarm e.alarm)
  have htick := htimed.tick
  rw [← hn, hv] at htick
  rw [hv, hcallback, hcontext] at hfields
  have hserve := serve_eq call e.alarm s v hv
  rw [hfields.1, hfields.2] at hserve
  rw [hr]
  rcases Nat.eq_zero_or_pos r with rfl | hrpos
  · rw [if_pos (htick.expired_iff.2 rfl)] at hserve
    split_ifs at hserve with hzero
    · exact Or.inr (Or.inl ⟨rfl, hzero, v, hserve⟩)
    · have hfields' := reschedule_fields s.nticks (call e.callback e.context s.world).1 v
      exact Or.inr (Or.inr ⟨rfl, hzero, _, hserve, hfields'.1.trans hfields.1,
        hfields'.2.trans hfields.2, htick.reschedule⟩)
  · rw [if_neg fun h => hrpos.ne' (htick.expired_iff.1 h)] at hserve
    exact Or.inl ⟨by omega, v, hserve, hfields.1, hfields.2, htick⟩

/-! ## The loop -/

/-- The state in the loop of `alt_tick`: the alarms that have been served, and then the ones that
    still count from the tick before. -/
structure LoopInv (alarmList : α) (n : BitVec 32) (l : List (Entry α φ χ)) (s : State α φ χ W)
    (c : Countdown α φ χ W) : Prop where
  nticks : s.nticks = n + 1#32
  rate : s.tickRate ≠ 0#32
  ring : IsRing s.links alarmList (c.alarms ++ l.map Entry.alarm)
  idle : ∀ a ∈ c.idle, a ∉ alarmList :: (c.alarms ++ l.map Entry.alarm) ∧
    Llist.SelfLinked s.links a
  served : ∀ e ∈ c.entries, Due s.nticks e (s.alarm e.alarm)
  waiting : ∀ e ∈ l, Due n e (s.alarm e.alarm)
  pos : ∀ e ∈ c.entries ++ l, e.remaining ≠ 0
  world : s.world = c.world

/-- The alarm that is served next. -/
def first (alarmList : α) : List (Entry α φ χ) → α
  | [] => alarmList
  | e :: _ => e.alarm

variable {n : BitVec 32} {l : List (Entry α φ χ)}

omit [DecidableEq α] in
theorem LoopInv.nodup (h : LoopInv alarmList n (e :: l) s c) :
    e.alarm ≠ alarmList ∧ e.alarm ∉ c.alarms ∧ e.alarm ∉ l.map Entry.alarm := by
  have hnodup := h.ring.nodup
  rw [List.map_cons, List.nodup_cons, List.nodup_append, List.nodup_cons] at hnodup
  refine ⟨?_, fun hmem => ?_, hnodup.2.2.1.1⟩
  · rintro heq
    exact hnodup.1 (heq ▸ List.mem_append_right _ List.mem_cons_self)
  · exact hnodup.2.2.2 _ hmem _ List.mem_cons_self rfl

omit [DecidableEq α] in
/-- The link to the next alarm. -/
theorem LoopInv.next_eq (h : LoopInv alarmList n (e :: l) s c) :
    s.links.next e.alarm = first alarmList l := by
  have hlinked := (Llist.linked_split h.ring).2.1
  cases l with
  | nil => exact hlinked.1
  | cons e' l => exact hlinked.1

/-- The alarm that is served goes on. -/
theorem LoopInv.keep (h : LoopInv alarmList n (e :: l) s c) (e' : Entry α φ χ) {v : Alarm φ χ}
    (halarm : e'.alarm = e.alarm) (hpos : e'.remaining ≠ 0) (hdue : Due s.nticks e' v) (w : W) :
    LoopInv alarmList n l { s.setAlarm e.alarm v with world := w }
      { c with entries := c.entries ++ [e'], world := w } := by
  rcases h.nodup with ⟨-, hserved, hwaiting⟩
  have halarms : (c.entries ++ [e']).map Entry.alarm ++ l.map Entry.alarm =
      c.alarms ++ (e :: l).map Entry.alarm := by
    rw [List.map_append, List.append_assoc, List.map_singleton, halarm]
    rfl
  refine ⟨h.nticks, h.rate, ?_, ?_, fun x hx => ?_, fun x hx => ?_, fun x hx => ?_, rfl⟩
  · rw [Countdown.alarms, halarms]
    exact h.ring
  · rw [Countdown.alarms, halarms]
    exact h.idle
  · rcases List.mem_append.1 hx with hx | hx
    · have hne : x.alarm ≠ e.alarm := fun heq => hserved (heq ▸ List.mem_map_of_mem hx)
      change Due s.nticks x ((s.setAlarm e.alarm v).alarm x.alarm)
      rw [setAlarm_of_ne hne]
      exact h.served x hx
    · rw [List.mem_singleton.1 hx]
      change Due s.nticks e' ((s.setAlarm e.alarm v).alarm e'.alarm)
      rwa [halarm, setAlarm_self]
  · have hne : x.alarm ≠ e.alarm := fun heq => hwaiting (heq ▸ List.mem_map_of_mem hx)
    change Due n x ((s.setAlarm e.alarm v).alarm x.alarm)
    rw [setAlarm_of_ne hne]
    exact h.waiting x (List.mem_cons_of_mem _ hx)
  · rw [List.append_assoc, List.mem_append, List.mem_append, List.mem_singleton] at hx
    rcases hx with hx | rfl | hx
    · exact h.pos x (List.mem_append_left _ hx)
    · exact hpos
    · exact h.pos x (List.mem_append_right _ (List.mem_cons_of_mem _ hx))

/-- The alarm that is served is taken out of the list. -/
theorem LoopInv.drop (h : LoopInv alarmList n (e :: l) s c) (v : Alarm φ χ) (w : W) :
    LoopInv alarmList n l (altAlarmStop e.alarm { s.setAlarm e.alarm v with world := w })
      { c with idle := e.alarm :: c.idle, world := w } := by
  rcases h.nodup with ⟨-, hserved, hwaiting⟩
  have hring := h.ring
  have hidle := h.idle
  rw [List.map_cons] at hring hidle
  refine ⟨h.nticks, h.rate, Llist.isRing_remove hring, fun a ha => ?_, fun x hx => ?_,
    fun x hx => ?_, fun x hx => ?_, rfl⟩
  · exact Llist.idle_remove hring ((List.mem_cons.1 ha).imp_right (hidle a))
  · have hne : x.alarm ≠ e.alarm := fun heq => hserved (heq ▸ List.mem_map_of_mem hx)
    change Due s.nticks x ((s.setAlarm e.alarm v).alarm x.alarm)
    rw [setAlarm_of_ne hne]
    exact h.served x hx
  · have hne : x.alarm ≠ e.alarm := fun heq => hwaiting (heq ▸ List.mem_map_of_mem hx)
    change Due n x ((s.setAlarm e.alarm v).alarm x.alarm)
    rw [setAlarm_of_ne hne]
    exact h.waiting x (List.mem_cons_of_mem _ hx)
  · rcases List.mem_append.1 hx with hx | hx
    · exact h.pos x (List.mem_append_left _ hx)
    · exact h.pos x (List.mem_append_right _ (List.mem_cons_of_mem _ hx))

/-- The loop serves all alarms, and returns. -/
theorem tickLoop_spec (call : φ → χ → W → BitVec 32 × W) {fuel : ℕ}
    (h : LoopInv alarmList n l s c) (hfuel : l.length < fuel) :
    ∃ s', tickLoop call alarmList fuel (first alarmList l) s = some s' ∧
      Refines alarmList s' (Countdown.tick call l c) := by
  induction l generalizing s c fuel with
  | nil =>
    rcases Nat.exists_eq_succ_of_ne_zero hfuel.ne' with ⟨fuel, rfl⟩
    rw [Countdown.tick]
    refine ⟨s, by rw [first, tickLoop, if_pos rfl], h.rate, ?_, ?_, h.served, ?_, h.world⟩
    · simpa using h.ring
    · simpa using h.idle
    · simpa using h.pos
  | cons e l ih =>
    rcases Nat.exists_eq_succ_of_ne_zero (Nat.ne_of_gt (Nat.zero_lt_of_lt hfuel)) with
      ⟨fuel, rfl⟩
    have hfuel : l.length < fuel := Nat.lt_of_succ_lt_succ hfuel
    have hpos := h.pos e (List.mem_append_right _ List.mem_cons_self)
    have hloop : tickLoop call alarmList (fuel + 1) (first alarmList (e :: l)) s =
        tickLoop call alarmList fuel (first alarmList l) (serve call e.alarm s) := by
      rw [first, tickLoop, if_neg h.nodup.1, h.next_eq]
    rw [hloop, Countdown.tick]
    rcases serve_cases call h.nticks (h.waiting e List.mem_cons_self) hpos with
      ⟨hne, v, hserve, hdue⟩ | ⟨hone, hzero, v, hserve⟩ | ⟨hone, hzero, v, hserve, hdue⟩
    · have hworld : s.setAlarm e.alarm v = { s.setAlarm e.alarm v with world := c.world } := by
        rw [← h.world]
        rfl
      rw [if_neg hne, hserve, hworld]
      have hlt : 1 < e.remaining := by omega
      exact ih (h.keep { e with remaining := e.remaining - 1 } rfl (Nat.sub_ne_zero_of_lt hlt)
        hdue c.world) hfuel
    · rw [h.world] at hzero hserve
      rw [if_pos hone, if_pos hzero, hserve]
      exact ih (h.drop v _) hfuel
    · rw [h.world] at hzero hserve hdue
      rw [if_pos hone, if_neg hzero, hserve]
      exact ih (h.keep
        { e with remaining := (call e.callback e.context c.world).1.toNat } rfl
        (fun h0 => hzero (BitVec.eq_of_toNat_eq h0)) hdue _) hfuel

/-! ## Runs -/

theorem refines_tick (call : φ → χ → W → BitVec 32 × W) {fuel : ℕ} (h : Refines alarmList s c)
    (hfuel : c.entries.length < fuel) :
    ∃ s', altTick call alarmList fuel s = some s' ∧
      Refines alarmList s' (Countdown.tick call c.entries { c with entries := [] }) := by
  have hfirst : s.links.next alarmList = first alarmList c.entries := by
    have hlinked := h.ring.linked
    rw [Countdown.alarms] at hlinked
    cases hentries : c.entries with
    | nil =>
      rw [hentries] at hlinked
      exact hlinked.1
    | cons e l =>
      rw [hentries] at hlinked
      exact hlinked.1
  rw [altTick, hfirst]
  refine tickLoop_spec call (n := s.nticks) ⟨rfl, h.rate, h.ring, h.idle, ?_, h.due, ?_, h.world⟩
    hfuel
  · exact fun e he => absurd he List.not_mem_nil
  · exact fun e he => h.pos e he

theorem refines_start {a : α} {nticks : BitVec 32} (h : Refines alarmList s c)
    (ha : a ∉ alarmList :: c.alarms) (hnticks : nticks.toNat + 1 < 2 ^ 32) (callback : φ)
    (context : χ) :
    Refines alarmList (altAlarmStart alarmList (some a) nticks callback context s).2
      { c with
        entries := ⟨a, callback, context, nticks.toNat + 1⟩ :: c.entries
        idle := c.idle.filter (· ≠ a) } := by
  have hstart : (altAlarmStart alarmList (some a) nticks callback context s).2 =
      { s.setAlarm a (newAlarm s.nticks nticks callback context) with
        links := Llist.insert alarmList a s.links } := by
    rw [altAlarmStart, if_pos h.rate]
    rfl
  have hhead : a ≠ alarmList := fun heq => ha (heq ▸ List.mem_cons_self)
  rw [hstart]
  refine ⟨h.rate, Llist.isRing_insert h.ring ha, fun x hx => ?_, fun x hx => ?_, fun x hx => ?_,
    h.world⟩
  · rw [List.mem_filter, decide_eq_true_iff] at hx
    rcases h.idle x hx.1 with ⟨hnotin, hself⟩
    have hframe := Llist.insert_frame h.ring hhead hnotin hx.2
    refine ⟨fun hmem => ?_, hframe.1.trans hself.1, hframe.2.trans hself.2⟩
    rcases List.mem_cons.1 hmem with rfl | hmem
    · exact hnotin List.mem_cons_self
    · exact (List.mem_cons.1 hmem).elim hx.2 fun hmem => hnotin (List.mem_cons_of_mem _ hmem)
  · change Due s.nticks x ((s.setAlarm a _).alarm x.alarm)
    rcases List.mem_cons.1 hx with rfl | hx
    · rw [setAlarm_self]
      exact ⟨rfl, rfl, timed_newAlarm hnticks callback context⟩
    · have hne : x.alarm ≠ a := fun heq =>
        ha (List.mem_cons_of_mem _ (heq ▸ List.mem_map_of_mem hx))
      rw [setAlarm_of_ne hne]
      exact h.due x hx
  · rcases List.mem_cons.1 hx with rfl | hx
    · exact Nat.succ_ne_zero _
    · exact h.pos x hx

theorem refines_stop {a : α} (h : Refines alarmList s c) (ha : a ∈ c.alarms) :
    Refines alarmList (altAlarmStop a s)
      { c with entries := c.entries.filter (·.alarm ≠ a), idle := a :: c.idle } := by
  rcases List.append_of_mem ha with ⟨l₁, l₂, halarms⟩
  have hring := h.ring
  have hidle := h.idle
  rw [halarms] at hring hidle
  have hnodup := hring.nodup
  rw [List.nodup_cons, List.nodup_append, List.nodup_cons] at hnodup
  rcases hnodup with ⟨-, -, ⟨ha₂, -⟩, hdisjoint⟩
  have ha₁ : a ∉ l₁ := fun hmem => hdisjoint a hmem a List.mem_cons_self rfl
  have hfilter : (c.entries.filter (·.alarm ≠ a)).map Entry.alarm = l₁ ++ l₂ := by
    have hmap : (c.entries.filter (·.alarm ≠ a)).map Entry.alarm = c.alarms.filter (· ≠ a) := by
      rw [Countdown.alarms, List.filter_map]
      rfl
    have hkeep : ∀ l : List α, a ∉ l → l.filter (· ≠ a) = l := fun l hl =>
      List.filter_eq_self.2 fun x hx => decide_eq_true fun heq => hl (heq ▸ hx)
    rw [hmap, halarms, List.filter_append, List.filter_cons_of_neg (by simp), hkeep l₁ ha₁,
      hkeep l₂ ha₂]
  refine ⟨h.rate, ?_, fun x hx => ?_, fun x hx => ?_, fun x hx => ?_, h.world⟩
  · rw [Countdown.alarms, hfilter]
    exact Llist.isRing_remove hring
  · rw [Countdown.alarms, hfilter]
    exact Llist.idle_remove hring ((List.mem_cons.1 hx).imp_right (hidle x))
  · exact h.due x (List.mem_filter.1 hx).1
  · exact h.pos x (List.mem_filter.1 hx).1

omit [DecidableEq α] in
theorem length_tick_le (call : φ → χ → W → BitVec 32 × W) (l : List (Entry α φ χ))
    (c : Countdown α φ χ W) :
    (Countdown.tick call l c).entries.length ≤ c.entries.length + l.length := by
  induction l generalizing c with
  | nil => exact le_rfl
  | cons e l ih =>
    rw [Countdown.tick, List.length_cons]
    split_ifs
    · exact (ih _).trans (by simp)
    · exact (ih _).trans (by rw [List.length_append, List.length_singleton]; omega)
    · exact (ih _).trans (by rw [List.length_append, List.length_singleton]; omega)

/-- One operation. -/
theorem refines_step (call : φ → χ → W → BitVec 32 × W) {fuel : ℕ} {op : Op α φ χ}
    {c' : Countdown α φ χ W} (h : Refines alarmList s c)
    (hop : c.step call alarmList op = some c') (hfuel : c.entries.length < fuel) :
    (∃ s', s.step call alarmList fuel op = some s' ∧ Refines alarmList s' c') ∧
      c'.entries.length ≤ c.entries.length + 1 := by
  cases op with
  | tick =>
    rw [Countdown.step, Option.some_inj] at hop
    subst hop
    refine ⟨refines_tick call h hfuel, ?_⟩
    exact (length_tick_le call c.entries _).trans (by simp)
  | start alarm nticks callback context =>
    cases alarm with
    | none =>
      rw [Countdown.step, Option.some_inj] at hop
      subst hop
      refine ⟨⟨s, ?_, h⟩, Nat.le_succ _⟩
      rw [State.step, altAlarmStart, if_pos h.rate]
    | some a =>
      rw [Countdown.step] at hop
      split_ifs at hop with hbad
      rw [Option.some_inj] at hop
      subst hop
      rw [not_or, not_le] at hbad
      exact ⟨⟨_, rfl, refines_start h hbad.1 hbad.2 callback context⟩, le_rfl⟩
  | stop a =>
    rw [Countdown.step] at hop
    split_ifs at hop with hregistered hidle
    · rw [Option.some_inj] at hop
      subst hop
      exact ⟨⟨_, rfl, refines_stop h hregistered⟩,
        (List.length_filter_le _ _).trans (Nat.le_succ _)⟩
    · rw [Option.some_inj] at hop
      subst hop
      refine ⟨⟨s, ?_, h⟩, Nat.le_succ _⟩
      rw [State.step, altAlarmStop, Llist.remove_of_selfLinked (h.idle a hidle).2]

theorem refines_run (call : φ → χ → W → BitVec 32 × W) {fuel : ℕ} {ops : List (Op α φ χ)}
    {c' : Countdown α φ χ W} (h : Refines alarmList s c)
    (hrun : c.run call alarmList ops = some c') (hfuel : c.entries.length + ops.length < fuel) :
    ∃ s', s.run call alarmList fuel ops = some s' ∧ Refines alarmList s' c' := by
  induction ops generalizing s c with
  | nil =>
    rw [Countdown.run, List.foldlM_nil] at hrun
    rcases hrun with ⟨⟩
    exact ⟨s, rfl, h⟩
  | cons op ops ih =>
    rw [Countdown.run, List.foldlM_cons] at hrun
    rcases Option.bind_eq_some_iff.1 hrun with ⟨c₁, hop, hrest⟩
    rw [List.length_cons] at hfuel
    have hlt : c.entries.length < fuel := by omega
    rcases refines_step call h hop hlt with ⟨⟨s₁, hs₁, h₁⟩, hlength⟩
    rcases ih h₁ hrest (by omega) with ⟨s', hs', h'⟩
    exact ⟨s', by rw [State.run, List.foldlM_cons, hs₁]; exact hs', h'⟩

omit [DecidableEq α] in
theorem refines_empty (hrate : s.tickRate ≠ 0#32) (hempty : Llist.SelfLinked s.links alarmList) :
    Refines alarmList s ⟨[], [], s.world⟩ := by
  refine ⟨hrate, ⟨hempty, List.nodup_singleton _⟩, ?_, ?_, ?_, rfl⟩
  · exact fun _ ha => absurd ha List.not_mem_nil
  · exact fun _ he => absurd he List.not_mem_nil
  · exact fun _ he => absurd he List.not_mem_nil

/-- The HAL does what the countdown does, over any sequence of operations. -/
theorem alarms_refine (call : φ → χ → W → BitVec 32 × W) (alarmList : α) (s : State α φ χ W)
    (ops : List (Op α φ χ)) {c : Countdown α φ χ W} {fuel : ℕ} (hrate : s.tickRate ≠ 0#32)
    (hempty : Llist.SelfLinked s.links alarmList)
    (hrun : Countdown.run call alarmList ops ⟨[], [], s.world⟩ = some c)
    (hfuel : ops.length < fuel) :
    ∃ s', s.run call alarmList fuel ops = some s' ∧ Refines alarmList s' c :=
  refines_run call (refines_empty hrate hempty) hrun (by simpa using hfuel)

/-- Two ticks across the rollover of the counter, after the start of an alarm for one tick. -/
theorem alarms_refine_rollover :
    ∃ s', (State.mk 1000#32 4294967295#32 ⟨id, id⟩ (fun _ => ⟨0#32, (), 0#8, ()⟩) 0).run
        (fun _ _ w => (5#32, w + 1)) (0 : Fin 2) 4
        [.start (some 1) 1#32 () (), .tick, .tick] = some s' ∧
      Refines 0 s' ⟨[⟨1, (), (), 5⟩], [], 1⟩ :=
  alarms_refine (fun _ _ w => (5#32, w + 1)) 0
    (State.mk 1000#32 4294967295#32 ⟨id, id⟩ (fun _ => ⟨0#32, (), 0#8, ()⟩) 0)
    [.start (some 1) 1#32 () (), .tick, .tick] (by decide) ⟨rfl, rfl⟩ rfl (by decide)

end EmbeddedSystems.Hal
