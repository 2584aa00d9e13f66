import EmbeddedSystems.HostSystem.SysClkTimer

/-!
# The system clock

The timer, as `alt_avalon_timer_sc_init` starts it, and its interrupt handler
`alt_avalon_timer_sc_irq`, which clears the interrupt and then calls `alt_tick`. The
handler runs next to the timer: at every edge of the clock it may take its next step
(`Tick`), so that its steps fall anywhere between the timeouts.

Every timeout is a call of `alt_tick`, or still to come, or lost because the interrupt of
the timeout before it was still pending (`timeouts_accounted`). If the handler takes two steps
in any 49999 clocks, no timeout is lost, and `alt_tick` has been called once for
every 50000 clocks (`no_tick_lost`).

What `alt_tick` does is a parameter here, and so is what else is on the bus in
the meantime, as long as nothing is written to the timer.
-/

namespace EmbeddedSystems.Hal.SystemClock

open HostSystem HostSystem.SysClkTimer

/-- A bus on which nothing is written to the timer. -/
def QuietBus : Type := {bus : Bus // Steady bus ∧ statusWrStrobe bus = false}

/-- An edge of the clock: whether the handler takes its next step, and what is on the bus
    otherwise. -/
structure Tick where
  advance : Bool
  other : QuietBus

/-- The timer, whether the handler is about to call `alt_tick`, and the state of the software. -/
structure System (σ : Type*) where
  timer : State
  ticking : Bool
  hal : σ

/-- The bus at `IOWR_ALTERA_AVALON_TIMER_STATUS (base, 0)`. -/
def statusBus : Bus := ⟨0, true, false, 0⟩

variable {σ : Type*} (altTick : σ → σ)

/-- The bus at an edge of the clock. -/
def System.bus (s : System σ) (x : Tick) : Bus :=
  if x.advance && !s.ticking && irq s.timer then statusBus else x.other.val

/-- An edge of the clock. The handler is entered when the interrupt is requested. -/
def System.tick (s : System σ) (x : Tick) : System σ where
  timer := clock (s.bus x) s.timer
  ticking := if x.advance then !s.ticking && irq s.timer else s.ticking
  hal := if x.advance && s.ticking then altTick s.hal else s.hal

/-- The timer when the driver has started it, some edges of the clock after the reset. -/
def start (l : List QuietBus) : State :=
  clock startBus (l.foldl (fun s bus => clock bus.val s) resetState)

variable (l : List QuietBus) (hal : σ) (ω : ℕ → Tick)

/-- The system before the edge `t` of the clock, from the start of the timer on. -/
def run : ℕ → System σ
  | 0 => { timer := start l, ticking := false, hal := hal }
  | t + 1 => (run t).tick altTick (ω t)

/-- `alt_tick` is called at the edge `t`. -/
def ticked (t : ℕ) : Bool := (ω t).advance && (run altTick l hal ω t).ticking

/-- The timeout at the edge `t` is lost: the interrupt of the one before it is still pending. -/
def lost (t : ℕ) : Bool :=
  timeoutEvent (run altTick l hal ω t).timer && (run altTick l hal ω t).timer.timeoutOccurred

/-- How often `alt_tick` has been called before the edge `t`. -/
def ticks (t : ℕ) : ℕ := Nat.count (fun u => ticked altTick l hal ω u = true) t

/-- How many timeouts have been lost before the edge `t`. -/
def losses (t : ℕ) : ℕ := Nat.count (fun u => lost altTick l hal ω u = true) t

/-! ## One edge -/

section

variable {s : System σ} {x : Tick} {P : ℕ}

theorem steady_bus (s : System σ) (x : Tick) : Steady (s.bus x) := by
  rw [System.bus]
  split_ifs
  · constructor <;> rfl
  · exact x.other.property.1

theorem timeoutOccurred_tick (altTick : σ → σ) (s : System σ) (x : Tick) :
    (s.tick altTick x).timer.timeoutOccurred =
      if x.advance && !s.ticking && irq s.timer then false
      else timeoutEvent s.timer || s.timer.timeoutOccurred := by
  have hclock : (s.tick altTick x).timer.timeoutOccurred =
      if statusWrStrobe (s.bus x) then false
      else if timeoutEvent s.timer then true else s.timer.timeoutOccurred := rfl
  have hbus : statusWrStrobe (s.bus x) = (x.advance && !s.ticking && irq s.timer) := by
    rw [System.bus]
    split_ifs with hclear
    · exact hclear.symm
    · rw [x.other.property.2, Bool.eq_false_iff.2 hclear]
  rw [hclock, hbus]
  cases timeoutEvent s.timer <;> rfl

/-- What an edge can be: the handler clears the interrupt, or it calls `alt_tick`, or it does
    nothing. -/
theorem tick_cases (altTick : σ → σ) (h : Running P s.timer) (x : Tick) :
    (x.advance = true ∧ s.ticking = false ∧ s.timer.timeoutOccurred = true ∧
      (s.tick altTick x).ticking = true ∧ (s.tick altTick x).timer.timeoutOccurred = false ∧
      (s.tick altTick x).hal = s.hal) ∨
    (x.advance = true ∧ s.ticking = true ∧
      (s.tick altTick x).ticking = false ∧ (s.tick altTick x).timer.timeoutOccurred =
        (timeoutEvent s.timer || s.timer.timeoutOccurred) ∧
      (s.tick altTick x).hal = altTick s.hal) ∨
    ((x.advance = true → s.ticking = false ∧ s.timer.timeoutOccurred = false) ∧
      (s.tick altTick x).ticking = s.ticking ∧ (s.tick altTick x).timer.timeoutOccurred =
        (timeoutEvent s.timer || s.timer.timeoutOccurred) ∧
      (s.tick altTick x).hal = s.hal) := by
  have hirq : irq s.timer = s.timer.timeoutOccurred := by
    rw [irq, h.enabled, Bool.and_true]
  rw [timeoutOccurred_tick, System.tick, hirq]
  rcases Bool.eq_false_or_eq_true x.advance with hadvance | hadvance
  · rcases Bool.eq_false_or_eq_true s.ticking with hticking | hticking
    · refine Or.inr (Or.inl ⟨hadvance, hticking, ?_, ?_, ?_⟩) <;> simp [hadvance, hticking]
    · rcases Bool.eq_false_or_eq_true s.timer.timeoutOccurred with hpending | hpending
      · refine Or.inl ⟨hadvance, hticking, hpending, ?_, ?_, ?_⟩ <;>
          simp [hadvance, hticking, hpending]
      · refine Or.inr (Or.inr ⟨fun _ => ⟨hticking, hpending⟩, ?_, ?_, ?_⟩) <;>
          simp [hadvance, hticking, hpending]
  · refine Or.inr (Or.inr ⟨fun h => absurd (hadvance.symm.trans h) Bool.false_ne_true, ?_, ?_, ?_⟩)
      <;> simp [hadvance]

end

/-! ## The timer in a run -/

variable {altTick l hal ω} {t u d : ℕ}

theorem stopped_foldl {s : State} (h : Stopped s) :
    Stopped (l.foldl (fun s bus => clock bus.val s) s) := by
  induction l generalizing s with
  | nil => exact h
  | cons bus l ih => exact ih (h.clock bus.property.1)

theorem stopped_start (l : List QuietBus) : ∃ s, Stopped s ∧ start l = clock startBus s :=
  ⟨_, stopped_foldl stopped_resetState, rfl⟩

theorem timer_run (altTick : σ → σ) (l : List QuietBus) (hal : σ) (ω : ℕ → Tick) (t : ℕ) :
    (run altTick l hal ω t).timer =
      SysClkTimer.run (start l) (fun u => (run altTick l hal ω u).bus (ω u)) t := by
  induction t with
  | zero => rfl
  | succ t ih =>
    rw [SysClkTimer.run, ← ih]
    rfl

theorem running_timer (altTick : σ → σ) (l : List QuietBus) (hal : σ) (ω : ℕ → Tick) (t : ℕ) :
    Running 49999 (run altTick l hal ω t).timer := by
  rcases stopped_start l with ⟨s, hs, hstart⟩
  rw [timer_run, hstart]
  exact running_run hs.running_start (by decide) (fun _ => steady_bus _ _) t

theorem timeoutEvent_timer_iff (altTick : σ → σ) (l : List QuietBus) (hal : σ) (ω : ℕ → Tick)
    (t : ℕ) : timeoutEvent (run altTick l hal ω t).timer = true ↔ 50000 ∣ t + 1 := by
  rcases stopped_start l with ⟨s, hs, hstart⟩
  rw [timer_run, hstart]
  exact timeoutEvent_iff hs.running_start (by decide) (fun _ => steady_bus _ _)
    (by rw [hs.counter_start]; rfl) t

/-! ## Every timeout is accounted for -/

theorem count_succ_toNat (p : ℕ → Bool) (t : ℕ) :
    Nat.count (fun u => p u = true) (t + 1) =
      Nat.count (fun u => p u = true) t + (p t).toNat := by
  rw [Nat.count_succ]
  cases p t <;> rfl

theorem toNat_or_add_toNat_and (a b : Bool) :
    (a || b).toNat + (a && b).toNat = a.toNat + b.toNat := by
  cases a <;> cases b <;> rfl

theorem div_succ (altTick : σ → σ) (l : List QuietBus) (hal : σ) (ω : ℕ → Tick) (t : ℕ) :
    (t + 1) / 50000 = t / 50000 + (timeoutEvent (run altTick l hal ω t).timer).toNat := by
  have hevent := timeoutEvent_timer_iff altTick l hal ω t
  rw [Nat.succ_div]
  split_ifs with hdvd
  · rw [hevent.2 hdvd, Bool.toNat_true]
  · rw [Bool.eq_false_iff.2 fun h => hdvd (hevent.1 h), Bool.toNat_false]

/-- Every timeout is a call of `alt_tick`, or one that is still to come, or lost. -/
theorem ticks_add_lost (altTick : σ → σ) (l : List QuietBus) (hal : σ) (ω : ℕ → Tick) (t : ℕ) :
    ticks altTick l hal ω t + (run altTick l hal ω t).ticking.toNat +
        (run altTick l hal ω t).timer.timeoutOccurred.toNat + losses altTick l hal ω t =
      t / 50000 := by
  induction t with
  | zero =>
    rcases stopped_start l with ⟨s, hs, hstart⟩
    have htimeout : (run altTick l hal ω 0).timer.timeoutOccurred = false := by
      change (start l).timeoutOccurred = false
      rw [hstart, hs.timeout_start]
    rw [htimeout]
    rfl
  | succ t ih =>
    have hticks : ticks altTick l hal ω (t + 1) = _ := count_succ_toNat _ t
    have hlosses : losses altTick l hal ω (t + 1) = _ := count_succ_toNat _ t
    have hrun : run altTick l hal ω (t + 1) = (run altTick l hal ω t).tick altTick (ω t) := rfl
    rw [div_succ altTick l hal ω, ← ih, hticks, hlosses, ticked,
      lost, hrun, ticks, losses]
    rcases tick_cases altTick (running_timer altTick l hal ω t) (ω t) with
      ⟨hadvance, hticking, hpending, hticking', hpending', -⟩ |
      ⟨hadvance, hticking, hticking', hpending', -⟩ | ⟨hnone, hticking', hpending', -⟩
    · -- A timeout at the same clock is lost.
      rw [hadvance, hticking, hpending, hticking', hpending', Bool.and_false, Bool.and_true]
      simp only [Bool.toNat_false, Bool.toNat_true]
      omega
    · have hor := toNat_or_add_toNat_and (timeoutEvent (run altTick l hal ω t).timer)
        (run altTick l hal ω t).timer.timeoutOccurred
      rw [hadvance, hticking, hticking', hpending', Bool.and_self]
      simp only [Bool.toNat_false, Bool.toNat_true]
      omega
    · have hor := toNat_or_add_toNat_and (timeoutEvent (run altTick l hal ω t).timer)
        (run altTick l hal ω t).timer.timeoutOccurred
      have hticked : ((ω t).advance && (run altTick l hal ω t).ticking) = false := by
        rcases Bool.eq_false_or_eq_true (ω t).advance with hadvance | hadvance
        · rw [(hnone hadvance).1, Bool.and_false]
        · rw [hadvance, Bool.false_and]
      rw [hticked, hticking', hpending', Bool.toNat_false]
      omega

/-! ## No timeout is lost -/

/-- Between two timeouts, an interrupt that is still pending has been so before. -/
theorem timeoutOccurred_of_succ
    (hsucc : (run altTick l hal ω (t + 1)).timer.timeoutOccurred = true) (hdvd : ¬50000 ∣ t + 1) :
    (run altTick l hal ω t).timer.timeoutOccurred = true := by
  have hrun : run altTick l hal ω (t + 1) = (run altTick l hal ω t).tick altTick (ω t) := rfl
  have hevent : timeoutEvent (run altTick l hal ω t).timer = false := by
    rwa [Bool.eq_false_iff, ne_eq, timeoutEvent_timer_iff]
  rw [hrun] at hsucc
  rcases tick_cases altTick (running_timer altTick l hal ω t) (ω t) with
    ⟨-, -, hpending, -⟩ | ⟨-, -, -, hpending', -⟩ | ⟨-, -, hpending', -⟩
  · exact hpending
  · rwa [hpending', hevent, Bool.false_or] at hsucc
  · rwa [hpending', hevent, Bool.false_or] at hsucc

/-- While the interrupt stays pending, the only step of the handler can be the call of
    `alt_tick`. -/
theorem count_advance_le (hpending : ∀ k ≤ d,
      (run altTick l hal ω (u + k)).timer.timeoutOccurred = true) :
    Nat.count (fun k => (ω (u + k)).advance = true) d +
      (run altTick l hal ω (u + d)).ticking.toNat ≤
      (run altTick l hal ω u).ticking.toNat := by
  induction d with
  | zero => exact (Nat.zero_add _).le
  | succ d ih =>
    have ih := ih fun k hk => hpending k (Nat.le_succ_of_le hk)
    have hnow := hpending d d.le_succ
    have hnext := hpending (d + 1) le_rfl
    have hrun : run altTick l hal ω (u + (d + 1)) =
        (run altTick l hal ω (u + d)).tick altTick (ω (u + d)) := rfl
    rw [hrun] at hnext ⊢
    rw [Nat.count_succ]
    rcases tick_cases altTick (running_timer altTick l hal ω (u + d)) (ω (u + d)) with
      ⟨-, -, -, -, hpending', -⟩ | ⟨hadvance, hticking, hticking', -⟩ | ⟨hnone, hticking', -⟩
    · exact absurd (hpending'.symm.trans hnext) Bool.false_ne_true
    · rw [hticking, Bool.toNat_true] at ih
      rw [if_pos hadvance, hticking', Bool.toNat_false]
      omega
    · have hadvance : ¬(ω (u + d)).advance = true := fun hadvance =>
        Bool.false_ne_true ((hnone hadvance).2.symm.trans hnow)
      rw [if_neg hadvance, hticking', Nat.add_zero]
      exact ih

/-- A timeout that finds the interrupt of the one before it still pending comes after 49999
    clocks in which the handler has taken at most one step. -/
theorem count_advance_of_lost (hlost : lost altTick l hal ω u = true) :
    ∃ v, Nat.count (fun k => (ω (v + k)).advance = true) 49999 ≤ 1 := by
  rw [lost, Bool.and_eq_true, timeoutEvent_timer_iff] at hlost
  rcases hlost with ⟨hdvd, hpending⟩
  obtain ⟨v, rfl⟩ : ∃ v, u = v + 49999 :=
    ⟨u - 49999, (Nat.sub_add_cancel (Nat.le_of_lt_succ (Nat.le_of_dvd u.succ_pos hdvd))).symm⟩
  have hback : ∀ j ≤ 49999,
      (run altTick l hal ω (v + (49999 - j))).timer.timeoutOccurred = true := by
    intro j
    induction j with
    | zero => exact fun _ => hpending
    | succ j ih =>
      intro hj
      refine timeoutOccurred_of_succ ?_ (by omega)
      have hplace : v + (49999 - (j + 1)) + 1 = v + (49999 - j) := by omega
      rw [hplace]
      exact ih (Nat.le_of_succ_le hj)
  refine ⟨v, ?_⟩
  have hcount := count_advance_le (d := 49999) fun k hk => by
    have h := hback (49999 - k) (Nat.sub_le _ _)
    rwa [Nat.sub_sub_self hk] at h
  exact (Nat.le_add_right _ _).trans (hcount.trans (Bool.toNat_le _))

theorem hal_run (altTick : σ → σ) (l : List QuietBus) (hal : σ) (ω : ℕ → Tick) (t : ℕ) :
    (run altTick l hal ω t).hal = altTick^[ticks altTick l hal ω t] hal := by
  induction t with
  | zero => rfl
  | succ t ih =>
    have hhal : (run altTick l hal ω (t + 1)).hal =
        if ticked altTick l hal ω t = true then altTick (run altTick l hal ω t).hal
        else (run altTick l hal ω t).hal := rfl
    have hticks : ticks altTick l hal ω (t + 1) = _ := count_succ_toNat _ t
    rw [hhal, ih, hticks]
    cases ticked altTick l hal ω t
    · rfl
    · exact (Function.iterate_succ_apply' altTick _ hal).symm

/-- The software is the one after as many calls of `alt_tick` as there have been timeouts, but for
    those that are still to come and those that are lost. -/
theorem timeouts_accounted (altTick : σ → σ) (l : List QuietBus) (hal : σ) (ω : ℕ → Tick)
    (t : ℕ) :
    (run altTick l hal ω t).hal = altTick^[ticks altTick l hal ω t] hal ∧
      ticks altTick l hal ω t + (run altTick l hal ω t).ticking.toNat +
        (run altTick l hal ω t).timer.timeoutOccurred.toNat + losses altTick l hal ω t =
      t / 50000 :=
  ⟨hal_run altTick l hal ω t, ticks_add_lost altTick l hal ω t⟩

theorem losses_eq_zero (hadvance : ∀ t, 2 ≤ Nat.count (fun k => (ω (t + k)).advance = true) 49999)
    (t : ℕ) : losses altTick l hal ω t = 0 := by
  refine Nat.count_iff_forall_not.2 fun u _ hlost => ?_
  rcases count_advance_of_lost hlost with ⟨v, hv⟩
  exact absurd ((hadvance v).trans hv) (by decide)

/-- If the handler takes two steps in any 49999 clocks, no timeout is lost. -/
theorem no_tick_lost (altTick : σ → σ) (l : List QuietBus) (hal : σ) (ω : ℕ → Tick)
    (hadvance : ∀ t, 2 ≤ Nat.count (fun k => (ω (t + k)).advance = true) 49999) (t : ℕ) :
    (run altTick l hal ω t).hal = altTick^[ticks altTick l hal ω t] hal ∧
      ticks altTick l hal ω t + (run altTick l hal ω t).ticking.toNat +
        (run altTick l hal ω t).timer.timeoutOccurred.toNat = t / 50000 := by
  refine ⟨hal_run altTick l hal ω t, ?_⟩
  have hsum := ticks_add_lost altTick l hal ω t
  rwa [losses_eq_zero hadvance, Nat.add_zero] at hsum

theorem quiet_idle : Steady ⟨0, false, true, 0⟩ ∧ statusWrStrobe ⟨0, false, true, 0⟩ = false := by
  refine ⟨?_, rfl⟩
  constructor <;> rfl

/-- A handler that takes a step at every clock, next to a bus that is not used. -/
def alwaysReady (_ : ℕ) : Tick := ⟨true, _, quiet_idle⟩

theorem count_alwaysReady (t : ℕ) :
    2 ≤ Nat.count (fun k => (alwaysReady (t + k)).advance = true) 49999 := by
  have hcount : Nat.count (fun k => (alwaysReady (t + k)).advance = true) 49999 = 49999 :=
    Nat.count_iff_forall.2 fun _ _ => rfl
  rw [hcount]
  decide

theorem no_tick_lost_alwaysReady :
    (run Nat.succ [] 0 alwaysReady 100000).hal =
        Nat.succ^[ticks Nat.succ [] 0 alwaysReady 100000] 0 ∧
      ticks Nat.succ [] 0 alwaysReady 100000 +
          (run Nat.succ [] 0 alwaysReady 100000).ticking.toNat +
          (run Nat.succ [] 0 alwaysReady 100000).timer.timeoutOccurred.toNat = 100000 / 50000 :=
  no_tick_lost Nat.succ [] 0 alwaysReady count_alwaysReady 100000

end EmbeddedSystems.Hal.SystemClock
