import EmbeddedSystems.Nios2leds.Debounce

/-!
# The keys in the top level

The structure `nios2leds` as far as the keys go: the power-on reset `u2` (`POR`),
the debouncer `u1` and the wire between them. The reset is released at the
eleventh edge of the clock, for ever (`porOut_run`); from then on a counter of
the debouncer is at the number of edges in a row at which its key is pressed, up
to the timeout (`toNat_counters_run`), so that a key is reported as pressed when it
has been so at the last 50000 edges, all after the release (`debounced_key_iff`).

All blocks triggered by an edge of the clock read the reset as it was before the
edge; it changes after them, and a change that activates it triggers the
debouncer once more.
-/

namespace EmbeddedSystems.Nios2leds

open Clocked Streak

/-! ## The power-on reset -/

namespace Por

/-- The registers of `POR`. -/
structure State where
  rstCnt : BitVec 4
  porOut : Bool

/-- The block of `POR`, at a rising edge of the clock. -/
def clock (_ : Unit) (s : State) : State :=
  if s.rstCnt = 0b1010 then { s with porOut := false }
  else { rstCnt := s.rstCnt + 1, porOut := true }

/-- The block of `POR`, at an instant of the waveform. Its reset leaves `por_out` alone. -/
def step (old new : Pins Unit) (s : State) : State :=
  verilogAlways id { s with rstCnt := 0 } clock old new s

end Por

/-! ## The structure -/

/-- The generics of the component `debounce`. -/
abbrev u1 : DebounceParams where
  width := 2
  polarity := .low
  timeout := 50000
  timeoutWidth := 16

/-- The registers of the two components. -/
structure State where
  por : Por.State
  counters : Debounce.State u1

/-- An edge of `CLK_50`, with what the keys are at it. The input `reset_n` of `POR` is not
    connected, and inactive. -/
def State.edge (s : State) (key : BitVec 2) : State :=
  let por := Por.step ⟨false, false, ()⟩ ⟨true, false, ()⟩ s.por
  let counters := Debounce.step u1 ⟨false, s.por.porOut, key⟩ ⟨true, s.por.porOut, key⟩ s.counters
  -- `por_reset_n` follows `por_out`
  let counters := Debounce.step u1 ⟨true, s.por.porOut, key⟩ ⟨true, por.porOut, key⟩ counters
  { por := por, counters := counters }

/-- The state when the power comes up: `rst_cnt` is initialised, and no other register is. -/
def powerUp (porOut : Bool) (counters : Debounce.State u1) : State where
  por := { rstCnt := 0, porOut := porOut }
  counters := counters

/-- The state after every edge of the clock, the edge `t` with the keys `key t`. -/
def run (s : State) (key : ℕ → BitVec 2) : ℕ → State
  | 0 => s
  | t + 1 => (run s key t).edge (key (t + 1))

/-- The signal `debounced_key`. -/
def State.debouncedKey (s : State) (i : Fin 2) : Bool := Debounce.dataOut u1 s.counters i

variable {porOut : Bool} {counters : Debounce.State u1} {key : ℕ → BitVec 2} {t : ℕ}

/-! ## An edge -/

theorem por_edge (s : State) (key : BitVec 2) : (s.edge key).por = Por.clock () s.por := rfl

/-- The counters are zero while the reset is active before or after the edge. -/
theorem counters_edge (s : State) (key : BitVec 2) (i : Fin 2) :
    (s.edge key).counters i =
      if (s.por.porOut || (s.edge key).por.porOut) = true then 0
      else Debounce.counterClock u1 i key s.counters := by
  have hcounters : (s.edge key).counters = Debounce.step u1 ⟨true, s.por.porOut, key⟩
      ⟨true, (s.edge key).por.porOut, key⟩
      (Debounce.step u1 ⟨false, s.por.porOut, key⟩ ⟨true, s.por.porOut, key⟩ s.counters) := rfl
  rw [hcounters]
  cases s.por.porOut <;> cases (s.edge key).por.porOut <;>
    simp [Debounce.step, verilogAlways, rises]

/-! ## The release -/

theorem eq_ten_iff {c : BitVec 4} {t : ℕ} (h : c.toNat = min 10 t) : c = 0b1010 ↔ 10 ≤ t := by
  rw [← BitVec.toNat_inj, h]
  exact min_eq_left_iff

theorem toNat_rstCnt_run (t : ℕ) :
    (run (powerUp porOut counters) key t).por.rstCnt.toNat = min 10 t := by
  induction t with
  | zero => rfl
  | succ t ih =>
    rw [run, por_edge, Por.clock]
    split_ifs with h
    · rw [eq_ten_iff ih] at h
      exact ih.trans (by omega)
    · rw [eq_ten_iff ih] at h
      rw [toNat_add_one (by omega), ih]
      omega

/-- The reset is active from the first to the tenth edge, and never again. -/
theorem porOut_run {t : ℕ} (ht : 1 ≤ t) :
    (run (powerUp porOut counters) key t).por.porOut = true ↔ t < 11 := by
  obtain ⟨t, rfl⟩ := Nat.exists_eq_add_of_le' ht
  rw [run, por_edge, Por.clock]
  split_ifs with h
  · rw [eq_ten_iff (toNat_rstCnt_run t)] at h
    exact iff_of_false not_false (by omega)
  · rw [eq_ten_iff (toNat_rstCnt_run t)] at h
    exact iff_of_true rfl (by omega)

/-! ## The counters -/

/-- What the edge `t + 1` means for the streak of the key `i`. -/
def sample (key : ℕ → BitVec 2) (i : Fin 2) (t : ℕ) : Event :=
  if 11 < t + 1 ∧ (key (t + 1)).getLsb i = false then .count else .clear

theorem counters_run_succ (i : Fin 2) (t : ℕ) :
    (run (powerUp porOut counters) key (t + 1)).counters i =
      saturate u1.timeout (sample key i t) ((run (powerUp porOut counters) key t).counters i) := by
  have hafter : (run (powerUp porOut counters) key (t + 1)).por.porOut = true ↔ t + 1 < 11 :=
    porOut_run (Nat.le_add_left 1 t)
  rw [run] at hafter ⊢
  rw [counters_edge, sample]
  by_cases ht : 11 < t + 1
  · have hbefore : (run (powerUp porOut counters) key t).por.porOut = true ↔ t < 11 :=
      porOut_run (by omega)
    have hreset : ¬((run (powerUp porOut counters) key t).por.porOut ||
        ((run (powerUp porOut counters) key t).edge (key (t + 1))).por.porOut) = true := by
      rw [Bool.or_eq_true, hbefore, hafter]
      omega
    rw [if_neg hreset, Debounce.counterClock_eq]
    simp [Debounce.active, ht]
  · have hreset : ((run (powerUp porOut counters) key t).por.porOut ||
        ((run (powerUp porOut counters) key t).edge (key (t + 1))).por.porOut) = true := by
      rw [Bool.or_eq_true, hafter]
      rcases Nat.lt_or_ge (t + 1) 11 with hlt | hge
      · exact Or.inr hlt
      · exact Or.inl ((porOut_run (by omega)).2 (by omega))
    rw [if_pos hreset, if_neg fun h => ht h.1]
    rfl

/-- A counter is at the streak of its key since the release, up to the timeout. -/
theorem toNat_counters_run {t : ℕ} (ht : 1 ≤ t) (i : Fin 2) :
    ((run (powerUp porOut counters) key t).counters i).toNat =
      min 50000 (streak (sample key i) t) := by
  induction t, ht using Nat.le_induction with
  | base =>
    rw [counters_run_succ]
    rfl
  | succ t _ ih =>
    rw [counters_run_succ]
    exact toNat_saturate (by decide) _ ih

/-- The streak is at least `n` if the key has been pressed at the last `n` edges, all after the
    release. -/
theorem le_streak_sample_iff {i : Fin 2} {n : ℕ} : n ≤ streak (sample key i) t ↔
    ∀ k < n, 11 < t - k ∧ (key (t - k)).getLsb i = false := by
  have hhold : ∀ t, sample key i t ≠ .hold := by
    intro t
    rw [sample]
    split_ifs <;> decide
  rw [le_streak_iff hhold]
  refine forall₂_congr fun k _ => ?_
  by_cases hk : k < t
  · have hlast : t - 1 - k + 1 = t - k := by omega
    rw [sample, hlast]
    split_ifs with h
    · exact iff_of_true ⟨hk, rfl⟩ h
    · exact iff_of_false (fun hcount => by simp at hcount) h
  · exact iff_of_false (fun h => hk h.1) fun h => by omega

theorem debouncedKey_eq_false_iff {t : ℕ} (ht : 1 ≤ t) (i : Fin 2) :
    (run (powerUp porOut counters) key t).debouncedKey i = false ↔
      ∀ n < 50000, 11 < t - n ∧ (key (t - n)).getLsb i = false := by
  have hactive : (run (powerUp porOut counters) key t).debouncedKey i = false ↔
      ((run (powerUp porOut counters) key t).counters i).toNat = 50000 := by
    simp [State.debouncedKey, Debounce.dataOut]
  rw [hactive, toNat_counters_run ht, min_eq_left_iff, le_streak_sample_iff]

/-- The keys of the top level. After every edge `t` of the clock from power-up, whatever the
    registers without an initial value hold: the reset is released from the eleventh edge on; the
    debounced key `i` is low if and only if the key `i` was low at each of the last 50000 edges,
    all of which came after the release; the counter is at most 50000, so that it never wraps;
    and the other key has no influence. -/
theorem debounced_key_iff (porOut : Bool) (counters : Debounce.State u1) (key : ℕ → BitVec 2)
    {t : ℕ} (ht : 1 ≤ t) (i : Fin 2) :
    ((run (powerUp porOut counters) key t).por.porOut = true ↔ t < 11) ∧
    ((run (powerUp porOut counters) key t).debouncedKey i = false ↔
      ∀ n < 50000, 11 < t - n ∧ (key (t - n)).getLsb i = false) ∧
    ((run (powerUp porOut counters) key t).counters i).toNat ≤ 50000 ∧
    ∀ key' : ℕ → BitVec 2, (∀ n, (key' n).getLsb i = (key n).getLsb i) →
      (run (powerUp porOut counters) key' t).debouncedKey i =
        (run (powerUp porOut counters) key t).debouncedKey i := by
  refine ⟨porOut_run ht, debouncedKey_eq_false_iff ht i, ?_, fun key' hkey => ?_⟩
  · rw [toNat_counters_run ht]
    exact min_le_left _ _
  · have hiff : (run (powerUp porOut counters) key' t).debouncedKey i = false ↔
        (run (powerUp porOut counters) key t).debouncedKey i = false := by
      rw [debouncedKey_eq_false_iff ht, debouncedKey_eq_false_iff ht]
      simp only [hkey]
    rwa [Bool.eq_iff_iff, ← not_iff_not, Bool.not_eq_true, Bool.not_eq_true]

/-- A key that is pressed from power-up on is reported after 50011 edges. -/
theorem debounced_key_iff_pressed : 1 ≤ 50011 ∧
    (run (powerUp false fun _ => 0) (fun _ => 0) 50011).debouncedKey 0 = false :=
  ⟨by decide, (debounced_key_iff false (fun _ => 0) (fun _ => 0) (by decide) 0).2.1.2
    fun n hn => ⟨by omega, by decide⟩⟩

end EmbeddedSystems.Nios2leds
