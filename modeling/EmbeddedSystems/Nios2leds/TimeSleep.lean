import EmbeddedSystems.Library.ReflectedWalk
import EmbeddedSystems.Nios2leds.KeyPio

/-!
# The time of the interrupt handler

The variable `time_sleep` of Lesson 2, which the interrupt handler of the keys
lowers by 10000 at the pin value 1, unless it is zero, and raises by 10000 at the
pin value 2. In units of 10000, it is a walk reflected at zero
(`timeSleep_run`).

There is no guard on the way up: an `int` has room for 214748 units, so that the
214744th press in a row overflows (`timeSleepSafe_increments`). The conditions on
the presses under which this does not happen are those of
`timeSleepSafe_iff`.
-/

namespace EmbeddedSystems.Nios2leds

open ReflectedWalk

/-! ## Signed arithmetic

An overflow of an `int` is undefined behaviour: `none`. -/

def intAdd (x y : BitVec 32) : Option (BitVec 32) :=
  if x.saddOverflow y = true then none else some (x + y)

def intSub (x y : BitVec 32) : Option (BitVec 32) :=
  if x.ssubOverflow y = true then none else some (x - y)

/-! ## The handler -/

/-- The global variables of the program. -/
structure Globals where
  globalEdgeCapture : BitVec 32
  edgeCapture : BitVec 32
  timeSleep : BitVec 32

/-- The function `handle_key_interrupts`, for the value that it reads from the port, and with
    `&edge_capture` as its context. What it prints is left out. -/
def handleKeyInterrupts (edgePin : BitVec 32) (g : Globals) : Option Globals :=
  let g := { g with edgeCapture := edgePin }
  let g := { g with globalEdgeCapture := edgePin }
  if edgePin = 1 ∧ g.timeSleep ≠ 0 then
    (intSub g.timeSleep 10000).map fun timeSleep => { g with timeSleep := timeSleep }
  else if edgePin = 2 then
    (intAdd g.timeSleep 10000).map fun timeSleep => { g with timeSleep := timeSleep }
  else
    some g

namespace TimeSleep

/-- The variables before the first interrupt. -/
def start : Globals := ⟨0, 0, 50000⟩

/-- The values of the pins, as the 32-bit register of the port extends them. -/
def edgePin (p : BitVec 2) : BitVec 32 := p.setWidth 32

/-- A sequence of executions of the handler. -/
def run (pins : List (BitVec 2)) : Option Globals :=
  pins.foldlM (fun g p => handleKeyInterrupts (edgePin p) g) start

/-- No execution of the handler overflows, and `time_sleep` is always a non-negative multiple of
    10000. -/
def TimeSleepSafe (pins : List (BitVec 2)) : Prop :=
  ∀ p, p <+: pins → ∃ g, run p = some g ∧ 0 ≤ g.timeSleep.toInt ∧ 10000 ∣ g.timeSleep.toInt

/-- What an execution adds to `time_sleep`, in units of 10000 and away from zero. -/
def press (p : BitVec 2) : ℤ := if p = 1 then -1 else if p = 2 then 1 else 0

/-- How many more pin values raise `time_sleep` than lower it. -/
def net (pins : List (BitVec 2)) : ℤ := pins.count 2 - pins.count 1

/-- The greatest number of units that an `int` has room for. -/
def maxUnits : ℤ := 214748

theorem sum_press (pins : List (BitVec 2)) : (pins.map press).sum = net pins := by
  induction pins with
  | nil => rfl
  | cons p pins ih =>
    rw [List.map_cons, List.sum_cons, ih, net, net, press, List.count_cons, List.count_cons]
    split_ifs <;> simp_all <;> omega

/-! ## Signed arithmetic in units -/

/-- A value of `k` units. -/
def AtUnits (k : ℤ) (x : BitVec 32) : Prop := 0 ≤ k ∧ x.toInt = 10000 * k

variable {k : ℤ} {x : BitVec 32}

theorem toInt_unit : (10000 : BitVec 32).toInt = 10000 := rfl

theorem AtUnits.le_maxUnits (h : AtUnits k x) : k ≤ maxUnits := by
  have hlt := BitVec.toInt_lt (x := x)
  rw [h.2] at hlt
  rw [maxUnits]
  omega

theorem AtUnits.eq_zero_iff (h : AtUnits k x) : x = 0 ↔ k = 0 := by
  rw [← BitVec.toInt_inj, h.2]
  change 10000 * k = 0 ↔ k = 0
  omega

theorem AtUnits.sub (h : AtUnits k x) (hk : k ≠ 0) :
    ∃ y, intSub x 10000 = some y ∧ AtUnits (k - 1) y := by
  obtain ⟨hnonneg, hx⟩ := h
  have hle := le_maxUnits ⟨hnonneg, hx⟩
  rw [maxUnits] at hle
  have hoverflow : ¬x.ssubOverflow 10000 = true := by
    simp only [BitVec.ssubOverflow, hx, toInt_unit, Bool.or_eq_true, decide_eq_true_eq]
    omega
  refine ⟨x - 10000, if_neg hoverflow, by omega, ?_⟩
  rw [BitVec.toInt_sub_of_not_ssubOverflow hoverflow, hx, toInt_unit]
  ring

theorem AtUnits.add (h : AtUnits k x) (hk : k + 1 ≤ maxUnits) :
    ∃ y, intAdd x 10000 = some y ∧ AtUnits (k + 1) y := by
  obtain ⟨hnonneg, hx⟩ := h
  rw [maxUnits] at hk
  have hoverflow : ¬x.saddOverflow 10000 = true := by
    simp only [BitVec.saddOverflow, hx, toInt_unit, Bool.or_eq_true, decide_eq_true_eq]
    omega
  refine ⟨x + 10000, if_neg hoverflow, by omega, ?_⟩
  rw [BitVec.toInt_add_of_not_saddOverflow hoverflow, hx, toInt_unit]
  ring

theorem AtUnits.add_eq_none (h : AtUnits k x) (hk : maxUnits < k + 1) :
    intAdd x 10000 = none := by
  have hoverflow : x.saddOverflow 10000 = true := by
    simp only [BitVec.saddOverflow, h.2, toInt_unit, Bool.or_eq_true, decide_eq_true_eq]
    rw [maxUnits] at hk
    omega
  exact if_pos hoverflow

/-! ## One execution -/

variable {g : Globals}

theorem edgePin_eq_one (p : BitVec 2) : edgePin p = 1 ↔ p = 1 := by
  revert p
  decide

theorem edgePin_eq_two (p : BitVec 2) : edgePin p = 2 ↔ p = 2 := by
  revert p
  decide

/-- What a read of the port returns is the extension of a value of its two pins. -/
theorem readdata_clock (bus : KeyPio.Bus) (s : KeyPio.State) :
    (KeyPio.clock bus s).readdata = edgePin (KeyPio.readMuxOut bus s) := rfl

/-- What an execution does to `time_sleep`. -/
theorem map_timeSleep_handle (p : BitVec 2) (g : Globals) :
    (handleKeyInterrupts (edgePin p) g).map Globals.timeSleep =
      if p = 1 ∧ g.timeSleep ≠ 0 then intSub g.timeSleep 10000
      else if p = 2 then intAdd g.timeSleep 10000
      else some g.timeSleep := by
  simp only [handleKeyInterrupts, edgePin_eq_one, edgePin_eq_two]
  split_ifs <;> simp [Function.comp_def]

theorem press_cases (p : BitVec 2) :
    (p = 1 ∧ press p = -1) ∨ (p = 2 ∧ press p = 1) ∨ (p ≠ 1 ∧ p ≠ 2 ∧ press p = 0) := by
  revert p
  decide

/-- An execution at `k` units goes to `k + press p` units, or stays at zero, where there is
    room for it. -/
theorem exists_handle (h : AtUnits k g.timeSleep) (p : BitVec 2)
    (hle : max (k + press p) 0 ≤ maxUnits) :
    ∃ g', handleKeyInterrupts (edgePin p) g = some g' ∧
      AtUnits (max (k + press p) 0) g'.timeSleep := by
  have hmap : ∃ x, (handleKeyInterrupts (edgePin p) g).map Globals.timeSleep = some x ∧
      AtUnits (max (k + press p) 0) x := by
    have hk := h.1
    rw [map_timeSleep_handle]
    rcases press_cases p with ⟨rfl, hpress⟩ | ⟨rfl, hpress⟩ | ⟨h₁, h₂, hpress⟩
    · by_cases h₀ : k = 0
      · have hmax : max (k + press 1) 0 = k := by omega
        rw [if_neg (fun hne => hne.2 (h.eq_zero_iff.2 h₀)), if_neg (by decide), hmax]
        exact ⟨_, rfl, h⟩
      · have hmax : max (k + press 1) 0 = k - 1 := by omega
        rw [if_pos ⟨rfl, fun hzero => h₀ (h.eq_zero_iff.1 hzero)⟩, hmax]
        exact h.sub h₀
    · have hmax : max (k + press 2) 0 = k + 1 := by omega
      rw [if_neg (fun hone => absurd hone.1 (by decide)), if_pos rfl, hmax]
      exact h.add (hmax ▸ hle)
    · have hmax : max (k + press p) 0 = k := by omega
      rw [if_neg (fun hone => h₁ hone.1), if_neg h₂, hmax]
      exact ⟨_, rfl, h⟩
  obtain ⟨x, hx, hunits⟩ := hmap
  obtain ⟨g', hg', rfl⟩ := Option.map_eq_some_iff.1 hx
  exact ⟨g', hg', hunits⟩

/-- There is no guard against the overflow. -/
theorem handle_eq_none (h : AtUnits k g.timeSleep) (p : BitVec 2)
    (hlt : maxUnits < max (k + press p) 0) : handleKeyInterrupts (edgePin p) g = none := by
  have hle := h.le_maxUnits
  have hmax : 0 < maxUnits := by decide
  rcases press_cases p with ⟨-, hpress⟩ | ⟨rfl, hpress⟩ | ⟨-, -, hpress⟩
  · omega
  · rw [← Option.map_eq_none_iff (f := Globals.timeSleep), map_timeSleep_handle,
      if_neg (fun hone => absurd hone.1 (by decide)), if_pos rfl]
    exact h.add_eq_none (by omega)
  · omega

/-! ## All executions -/

variable {pins : List (BitVec 2)}

theorem run_concat (pins : List (BitVec 2)) (p : BitVec 2) :
    run (pins ++ [p]) = (run pins).bind (handleKeyInterrupts (edgePin p)) := by
  rw [run, List.foldlM_append, run]
  simp

/-- If the walk has room throughout, `time_sleep` follows it. -/
theorem timeSleep_run (h : ∀ p, p <+: pins → walk press 5 p ≤ maxUnits) :
    ∃ g, run pins = some g ∧ AtUnits (walk press 5 pins) g.timeSleep := by
  induction pins using List.reverseRecOn with
  | nil => exact ⟨start, rfl, by decide, rfl⟩
  | append_singleton pins p ih =>
    obtain ⟨g, hg, hunits⟩ := ih fun q hq => h q (hq.trans (List.prefix_append pins [p]))
    have hle := h (pins ++ [p]) List.prefix_rfl
    rw [walk_concat] at hle ⊢
    rw [run_concat, hg]
    exact exists_handle hunits p hle

/-- If no execution overflows, the walk has room throughout. -/
theorem walk_le_of_run {g : Globals} (h : run pins = some g) :
    ∀ p, p <+: pins → walk press 5 p ≤ maxUnits := by
  induction pins using List.reverseRecOn generalizing g with
  | nil =>
    intro p hp
    rw [List.prefix_nil.1 hp]
    decide
  | append_singleton pins p ih =>
    rw [run_concat] at h
    obtain ⟨g', hg', hhandle⟩ := Option.bind_eq_some_iff.1 h
    obtain ⟨g'', hg'', hunits⟩ := timeSleep_run (ih hg')
    obtain rfl : g' = g'' := Option.some.inj (hg'.symm.trans hg'')
    intro q hq
    rcases List.prefix_concat_iff.1 hq with rfl | hq
    · rw [walk_concat]
      by_contra hlt
      rw [handle_eq_none hunits p (not_le.1 hlt)] at hhandle
      exact absurd hhandle (by simp)
    · exact ih hg' q hq

theorem safe_iff_walk_le :
    TimeSleepSafe pins ↔ ∀ p, p <+: pins → walk press 5 p ≤ maxUnits := by
  constructor
  · intro h
    obtain ⟨g, hg, -⟩ := h pins List.prefix_rfl
    exact walk_le_of_run hg
  · intro h p hp
    obtain ⟨g, hg, hnonneg, hunits⟩ := timeSleep_run fun q hq => h q (hq.trans hp)
    exact ⟨g, hg, by omega, Dvd.intro _ hunits.symm⟩

/-- The variable `time_sleep` stays a non-negative multiple of 10000 and does not overflow if and
    only if the run never raises it much more often than it lowers it: by more than 214743 from
    the start, or by more than 214748 over any stretch. -/
theorem timeSleepSafe_iff (pins : List (BitVec 2)) : TimeSleepSafe pins ↔
    (∀ p, p <+: pins → net p ≤ 214743) ∧ ∀ q, q <:+: pins → net q ≤ 214748 := by
  have hroom : ∀ n : ℤ, 5 + n ≤ maxUnits ↔ n ≤ 214743 := by
    intro n
    rw [maxUnits]
    omega
  simp only [safe_iff_walk_le, forall_walk_le_iff (by decide : (0 : ℤ) ≤ 5), sum_press, hroom]
  rfl

/-- As many presses of the second key in a row as overflow. -/
theorem timeSleepSafe_increments : ¬TimeSleepSafe (List.replicate 214744 2) := by
  intro h
  have hwalk := safe_iff_walk_le.1 h _ List.prefix_rfl
  have hsum := ((walk_le_iff (by decide)).1 hwalk).1
  rw [List.map_replicate, List.sum_replicate] at hsum
  exact absurd hsum (by decide)

end TimeSleep

end EmbeddedSystems.Nios2leds
