import EmbeddedSystems.Hal.Alarm
import EmbeddedSystems.Hal.SystemClock

/-!
# Alarms on the system clock

The system clock calls `alt_tick` of the HAL. If the handler of the interrupt takes two
steps in any 49999 clocks, the list of alarms follows the countdown, with one tick for
every 50000 clocks and at most two of them to come (`alarms_on_clock`).
-/

namespace EmbeddedSystems.Hal

variable {α φ χ W : Type*}

/-- A tick of the countdown. -/
def Countdown.next (call : φ → χ → W → BitVec 32 × W) (c : Countdown α φ χ W) :
    Countdown α φ χ W :=
  Countdown.tick call c.entries { c with entries := [] }

variable {call : φ → χ → W → BitVec 32 × W} {c : Countdown α φ χ W} {e : Entry α φ χ}
  {l : List (Entry α φ χ)} {k : ℕ}

theorem mem_tick_of_served (he : e ∈ c.entries) : e ∈ (Countdown.tick call l c).entries := by
  induction l generalizing c with
  | nil => exact he
  | cons e' l ih =>
    rw [Countdown.tick]
    split_ifs
    · exact ih he
    · exact ih (List.mem_append_left _ he)
    · exact ih (List.mem_append_left _ he)

/-- An alarm whose time has not come counts down. -/
theorem mem_tick (he : e ∈ l) (hne : e.remaining ≠ 1) :
    { e with remaining := e.remaining - 1 } ∈ (Countdown.tick call l c).entries := by
  induction l generalizing c with
  | nil => exact absurd he List.not_mem_nil
  | cons e' l ih =>
    rw [Countdown.tick]
    rcases List.mem_cons.1 he with rfl | he
    · rw [if_neg hne]
      exact mem_tick_of_served (List.mem_append_right _ List.mem_cons_self)
    · split_ifs
      · exact ih he
      · exact ih he
      · exact ih he

/-- No alarm runs before its time. -/
theorem mem_iterate (he : e ∈ c.entries) (hk : k < e.remaining) :
    { e with remaining := e.remaining - k } ∈ ((Countdown.next call)^[k] c).entries := by
  induction k with
  | zero => exact he
  | succ k ih =>
    rw [Function.iterate_succ_apply', ← Nat.sub_sub]
    have hne : e.remaining - k ≠ 1 := by omega
    exact mem_tick (ih (Nat.lt_of_succ_lt hk)) hne

variable [DecidableEq α] {alarmList : α} {s : State α φ χ W} {fuel : ℕ}

/-- A call of `alt_tick`, if the ones before it have returned. -/
def tickHal (call : φ → χ → W → BitVec 32 × W) (alarmList : α) (fuel : ℕ)
    (hal : Option (State α φ χ W)) : Option (State α φ χ W) :=
  hal.bind (altTick call alarmList fuel)

theorem refines_iterate (call : φ → χ → W → BitVec 32 × W) (h : Refines alarmList s c)
    (hfuel : c.entries.length < fuel) (k : ℕ) :
    ∃ s', (tickHal call alarmList fuel)^[k] (some s) = some s' ∧
      Refines alarmList s' ((Countdown.next call)^[k] c) := by
  induction k generalizing s c with
  | zero => exact ⟨s, rfl, h⟩
  | succ k ih =>
    obtain ⟨s₁, hs₁, h₁⟩ := refines_tick call h hfuel
    have hlength : (Countdown.next call c).entries.length ≤ c.entries.length :=
      (length_tick_le call c.entries _).trans (by simp)
    obtain ⟨s', hs', h'⟩ := ih h₁ (hlength.trans_lt hfuel)
    refine ⟨s', ?_, h'⟩
    rw [Function.iterate_succ_apply, tickHal, Option.bind_some, hs₁]
    exact hs'

/-- The alarms follow the countdown, one tick for every 50000 clocks, and none of them runs
    early. -/
theorem alarms_on_clock (call : φ → χ → W → BitVec 32 × W) (h : Refines alarmList s c)
    (hfuel : c.entries.length < fuel) (l : List SystemClock.QuietBus)
    (ω : ℕ → SystemClock.Tick)
    (hadvance : ∀ t, 2 ≤ Nat.count (fun k => (ω (t + k)).advance = true) 49999) (t : ℕ) :
    ∃ k s', (SystemClock.run (tickHal call alarmList fuel) l (some s) ω t).hal = some s' ∧
      Refines alarmList s' ((Countdown.next call)^[k] c) ∧
      k ≤ t / 50000 ∧ t / 50000 ≤ k + 2 ∧
      ∀ e ∈ c.entries, k < e.remaining →
        Due s'.nticks { e with remaining := e.remaining - k } (s'.alarm e.alarm) := by
  obtain ⟨k, hk⟩ : ∃ k, SystemClock.ticks (tickHal call alarmList fuel) l (some s) ω t = k :=
    ⟨_, rfl⟩
  have hhal := SystemClock.hal_run (tickHal call alarmList fuel) l (some s) ω t
  have hsum := SystemClock.ticks_add_lost (tickHal call alarmList fuel) l (some s) ω t
  rw [SystemClock.losses_eq_zero hadvance, Nat.add_zero, hk] at hsum
  obtain ⟨s', hs', h'⟩ := refines_iterate call h hfuel k
  refine ⟨k, s', by rw [hhal, hk, hs'], h', ?_, ?_, fun e he hlt => ?_⟩
  · rw [← hsum, Nat.add_assoc]
    exact Nat.le_add_right _ _
  · rw [← hsum, Nat.add_assoc]
    exact Nat.add_le_add_left (Nat.add_le_add (Bool.toNat_le _) (Bool.toNat_le _)) _
  · exact h'.due _ (mem_iterate he hlt)

/-- The HAL after the start of an alarm for two ticks. -/
def oneAlarm : State Bool Unit Unit ℕ :=
  (altAlarmStart false (some true) 1#32 () ()
    ⟨1000#32, 4294967295#32, ⟨id, id⟩, fun _ => ⟨0#32, (), 0#8, ()⟩, 0⟩).2

def oneEntry : Countdown Bool Unit Unit ℕ := ⟨[⟨true, (), (), 2⟩], [], 0⟩

theorem refines_oneAlarm : Refines false oneAlarm oneEntry :=
  refines_start (c := ⟨[], [], 0⟩) (refines_empty (by decide) ⟨rfl, rfl⟩) (by decide) (by decide)
    () ()

theorem alarms_on_clock_oneAlarm :
    ∃ k s', (SystemClock.run (tickHal (fun _ _ w => (5#32, w + 1)) false 2) [] (some oneAlarm)
        SystemClock.alwaysReady 100000).hal = some s' ∧
      Refines false s' ((Countdown.next fun _ _ w => (5#32, w + 1))^[k] oneEntry) ∧
      k ≤ 100000 / 50000 ∧ 100000 / 50000 ≤ k + 2 ∧
      ∀ e ∈ oneEntry.entries, k < e.remaining →
        Due s'.nticks { e with remaining := e.remaining - k } (s'.alarm e.alarm) :=
  alarms_on_clock (fun _ _ w => (5#32, w + 1)) refines_oneAlarm (by decide) []
    SystemClock.alwaysReady SystemClock.count_alwaysReady 100000

end EmbeddedSystems.Hal
