import EmbeddedSystems.Library.Clocked

/-!
# Streaks

How often something has happened in a row: a count that grows by one when it
happens, and starts over when something else does (`streak`). The streak is at
least `n` if and only if there are `n` events to count since some instant, none
of which starts over (`lasted_iff`).

A counter of `w` bits that stops at a limit counts a streak up to the limit, if it
can represent the limit (`toNat_saturate`). The streak of a clocked input is the
number of edges of the clock in a row at which the input is active, since the
reset (`activeFor_iff`).
-/

namespace EmbeddedSystems.Streak

open Clocked

/-- What an instant means for a streak: it starts over, stays as it is, or grows by one. -/
inductive Event
  | clear
  | hold
  | count
  deriving DecidableEq

/-- The length of a streak after one more event. -/
def Event.next : Event → ℕ → ℕ
  | clear, _ => 0
  | hold, n => n
  | count, n => n + 1

/-- The length of the streak at the instant `t`. -/
def streak (e : ℕ → Event) : ℕ → ℕ
  | 0 => 0
  | t + 1 => (e t).next (streak e t)

/-- The number of events to count in the `n` instants from `s` on. -/
def counted (e : ℕ → Event) (s n : ℕ) : ℕ := Nat.count (fun k => e (s + k) = .count) n

/-- There are at least `n` events to count up to the instant `t`, since an instant from which on
    nothing starts over. -/
def Lasted (e : ℕ → Event) (t n : ℕ) : Prop :=
  ∃ s ≤ t, n ≤ counted e s (t - s) ∧ ∀ u, s ≤ u → u < t → e u ≠ .clear

variable {e : ℕ → Event} {s t n : ℕ}

theorem counted_succ (e : ℕ → Event) (s n : ℕ) :
    counted e s (n + 1) = counted e s n + if e (s + n) = .count then 1 else 0 :=
  Nat.count_succ _ n

theorem streak_add (h : ∀ k < n, e (s + k) ≠ .clear) :
    streak e (s + n) = streak e s + counted e s n := by
  induction n with
  | zero => rfl
  | succ n ih =>
    rw [← Nat.add_assoc, streak, ih fun k hk => h k (Nat.lt_succ_of_lt hk), counted_succ]
    cases he : e (s + n) with
    | clear => exact absurd he (h n n.lt_succ_self)
    | hold => simp [Event.next]
    | count => simp [Event.next, Nat.add_assoc]

/-- The instant at which the streak has started. -/
theorem exists_start (e : ℕ → Event) (t : ℕ) :
    ∃ s ≤ t, streak e t = counted e s (t - s) ∧ ∀ u, s ≤ u → u < t → e u ≠ .clear := by
  induction t with
  | zero => exact ⟨0, le_rfl, rfl, fun u _ hu => absurd hu (Nat.not_lt_zero u)⟩
  | succ t ih =>
    by_cases he : e t = .clear
    · refine ⟨t + 1, le_rfl, ?_, fun u h₁ h₂ => absurd h₁ (Nat.not_le.2 h₂)⟩
      rw [streak, he, Nat.sub_self]
      rfl
    · obtain ⟨s, hs, hstreak, hclear⟩ := ih
      have hclear' : ∀ u, s ≤ u → u < t + 1 → e u ≠ .clear := by
        intro u h₁ h₂
        rcases Nat.lt_succ_iff_lt_or_eq.1 h₂ with h₂ | rfl
        · exact hclear u h₁ h₂
        · exact he
      refine ⟨s, Nat.le_succ_of_le hs, ?_, hclear'⟩
      rw [Nat.succ_sub hs, counted_succ, ← hstreak, Nat.add_sub_cancel' hs, streak]
      cases h : e t with
      | clear => exact absurd h he
      | hold => simp [Event.next]
      | count => simp [Event.next]

theorem lasted_iff : Lasted e t n ↔ n ≤ streak e t := by
  constructor
  · rintro ⟨s, hs, hn, hclear⟩
    have hstreak := streak_add fun k (hk : k < t - s) =>
      hclear (s + k) (Nat.le_add_right s k) (by omega)
    rw [Nat.add_sub_cancel' hs] at hstreak
    rw [hstreak]
    exact hn.trans (Nat.le_add_left _ _)
  · intro hn
    obtain ⟨s, hs, hstreak, hclear⟩ := exists_start e t
    exact ⟨s, hs, hstreak ▸ hn, hclear⟩

/-- Where every instant counts or starts over, the last `n` ones have all counted. -/
theorem le_streak_iff (hhold : ∀ t, e t ≠ .hold) :
    n ≤ streak e t ↔ ∀ k < n, k < t ∧ e (t - 1 - k) = .count := by
  induction t generalizing n with
  | zero =>
    refine ⟨fun hn k hk => absurd (hk.trans_le hn) (Nat.not_lt_zero k), fun h => ?_⟩
    by_contra hn
    exact absurd (h 0 (Nat.pos_of_ne_zero fun h₀ => hn h₀.le)).1 (lt_irrefl 0)
  | succ t ih =>
    cases n with
    | zero => simp
    | succ n =>
      have hsplit : (∀ k < n + 1, k < t + 1 ∧ e (t + 1 - 1 - k) = .count) ↔
          e t = .count ∧ ∀ k < n, k < t ∧ e (t - 1 - k) = .count := by
        refine ⟨fun h => ⟨(h 0 n.succ_pos).2, fun k hk => ?_⟩, fun h k hk => ?_⟩
        · obtain ⟨hlt, hcount⟩ := h (k + 1) (Nat.succ_lt_succ hk)
          exact ⟨Nat.lt_of_succ_lt_succ hlt, by rw [← hcount]; congr 1; omega⟩
        · cases k with
          | zero => exact ⟨t.succ_pos, h.1⟩
          | succ k =>
            obtain ⟨hlt, hcount⟩ := h.2 k (Nat.lt_of_succ_lt_succ hk)
            exact ⟨Nat.succ_lt_succ hlt, by rw [← hcount]; congr 1; omega⟩
      rw [hsplit, ← ih, streak]
      cases he : e t with
      | clear => simp [Event.next]
      | hold => exact absurd he (hhold t)
      | count => simp [Event.next]

/-! ## Saturating counters -/

/-- A counter of `w` bits that is not incremented from the limit on. -/
def saturate {w : ℕ} (limit : ℕ) : Event → BitVec w → BitVec w
  | .clear, _ => 0
  | .hold, c => c
  | .count, c => if c.toNat < limit then c + 1 else c

/-- A counter that can represent its limit does not wrap. -/
theorem toNat_saturate {w limit : ℕ} (hlimit : limit < 2 ^ w) (e : Event) {c : BitVec w} {n : ℕ}
    (hc : c.toNat = min limit n) : (saturate limit e c).toNat = min limit (e.next n) := by
  cases e with
  | clear => simp [saturate, Event.next]
  | hold => exact hc
  | count =>
    rw [saturate, Event.next]
    split_ifs with hlt
    · rw [toNat_add_one (by omega)]
      omega
    · omega

/-! ## Clocked inputs -/

variable {ι : Type*} {active : ι → Bool} {ω : Waveform ι}

/-- An instant of a waveform: a reset starts the streak over, and so does an edge of the clock at
    which the input is not active. -/
def sampled (active : ι → Bool) (ω : Waveform ι) (t : ℕ) : Event :=
  if (ω (t + 1)).reset = true then .clear
  else if rises (ω t).clk (ω (t + 1)).clk = true then
    if active (ω (t + 1)).inp = true then .count else .clear
  else .hold

/-- The input has been active at at least `n` edges of the clock in a row up to the instant `t`,
    without a reset in between. -/
def ActiveFor (active : ι → Bool) (ω : Waveform ι) (t n : ℕ) : Prop :=
  ∃ s ≤ t, n ≤ edges ω s (t - s) ∧ ∀ u, s ≤ u → u < t →
    (ω (u + 1)).reset = false ∧ (EdgeAt ω u → active (ω (u + 1)).inp = true)

theorem sampled_of_edge (hreset : (ω (t + 1)).reset = false) (hclk : EdgeAt ω t) :
    sampled active ω t = if active (ω (t + 1)).inp = true then .count else .clear :=
  (if_neg (by simp [hreset])).trans (if_pos hclk)

theorem sampled_of_not_edge (hreset : (ω (t + 1)).reset = false) (hclk : ¬EdgeAt ω t) :
    sampled active ω t = .hold :=
  (if_neg (by simp [hreset])).trans (if_neg hclk)

theorem sampled_ne_clear : sampled active ω t ≠ .clear ↔
    (ω (t + 1)).reset = false ∧ (EdgeAt ω t → active (ω (t + 1)).inp = true) := by
  rw [sampled, EdgeAt]
  split_ifs with hreset hclk hactive <;> simp_all

theorem counted_sampled (h : ∀ k < n, sampled active ω (s + k) ≠ .clear) :
    counted (sampled active ω) s n = edges ω s n := by
  induction n with
  | zero => rfl
  | succ n ih =>
    obtain ⟨hreset, hactive⟩ := sampled_ne_clear.1 (h n n.lt_succ_self)
    rw [counted_succ, ih fun k hk => h k (Nat.lt_succ_of_lt hk)]
    by_cases hclk : EdgeAt ω (s + n)
    · rw [edges_succ_of_edge hclk, sampled_of_edge hreset hclk, if_pos (hactive hclk), if_pos rfl]
    · rw [edges_succ_of_not_edge hclk, sampled_of_not_edge hreset hclk, if_neg (by decide),
        Nat.add_zero]

theorem activeFor_iff : ActiveFor active ω t n ↔ n ≤ streak (sampled active ω) t := by
  rw [← lasted_iff]
  refine exists_congr fun s => and_congr_right fun hs => ?_
  have hclear : (∀ u, s ≤ u → u < t → sampled active ω u ≠ .clear) ↔ ∀ u, s ≤ u → u < t →
      (ω (u + 1)).reset = false ∧ (EdgeAt ω u → active (ω (u + 1)).inp = true) :=
    forall₃_congr fun u _ _ => sampled_ne_clear
  rw [← hclear]
  refine and_congr_left fun h => ?_
  rw [counted_sampled fun k hk => h (s + k) (Nat.le_add_right s k) (by omega)]

end EmbeddedSystems.Streak
