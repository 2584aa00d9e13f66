import Mathlib

/-!
# Counted loops

The loops of a C function over an explicit state `σ`, one definition for each
shape of loop header:

* `forUp lo hi`: `for (i = lo; i < hi; ++i)`, the counter never wrapping;
* `forDown n`: `for (i = n; i > 0; --i)`;
* `forUpWhile lo hi test`: `for (i = lo; i < hi && test; ++i)`;
* `Fin.foldl n` of the core library: `for (i = 0; i < n; ++i)` over an array of
  fixed size, the counter being an index of it;
* `forStep length step`: `for (i = 0; i < length; i += step)` with a counter of
  `w` bits, which may wrap: the loop then runs forever (`none`).

Each comes with its rule: an invariant of the body is one of the loop
(`forUp_induction`, `foldl_induction`, `forStep_induction`), a loop undoes
another whose iterations it undoes in the opposite order (`forDown_forUp`), a
loop whose iterations each rewrite their own part of the state rewrites every
part once (`foldl_part`), and a loop whose counter does not wrap is an iteration
(`forStep_eq_some`).
-/

namespace EmbeddedSystems.Loop

variable {σ α : Type*}

/-! ## Counting up and down -/

/-- `for (i = lo; i < hi; ++i) body`. -/
def forUp (lo hi : ℕ) (body : ℕ → σ → σ) (s : σ) : σ :=
  Nat.fold (hi - lo) (fun i _ => body (lo + i)) s

/-- `for (i = n; i > 0; --i) body`. -/
def forDown : (n : ℕ) → (body : ℕ → σ → σ) → σ → σ
  | 0, _, s => s
  | n + 1, body, s => forDown n body (body (n + 1) s)

variable {lo hi : ℕ} {body back : ℕ → σ → σ}

theorem forUp_of_le (h : hi ≤ lo) (s : σ) : forUp lo hi body s = s := by
  rw [forUp, Nat.sub_eq_zero_of_le h, Nat.fold_zero]

theorem forUp_succ (h : lo ≤ hi) (s : σ) :
    forUp lo (hi + 1) body s = body hi (forUp lo hi body s) := by
  rw [forUp, Nat.sub_add_comm h, Nat.fold_succ, Nat.add_sub_cancel' h, forUp]

/-- The rule of invariants: `P i` holds when the counter is `i`. -/
theorem forUp_induction (P : ℕ → σ → Prop) (hle : lo ≤ hi) {s : σ} (h₀ : P lo s)
    (hstep : ∀ i s, lo ≤ i → i < hi → P i s → P (i + 1) (body i s)) :
    P hi (forUp lo hi body s) := by
  induction hi, hle using Nat.le_induction with
  | base => rw [forUp_of_le le_rfl]; exact h₀
  | succ hi hle ih =>
    rw [forUp_succ hle]
    exact hstep _ _ hle (Nat.lt_succ_self hi)
      (ih fun i s hi₁ hi₂ => hstep i s hi₁ (Nat.lt_succ_of_lt hi₂))

/-- Counting down undoes counting up, iteration by iteration. -/
theorem forDown_forUp (h : ∀ i s, back i (body i s) = s) (n : ℕ) (s : σ) :
    forDown n back (forUp 1 (n + 1) body s) = s := by
  induction n with
  | zero => exact forUp_of_le le_rfl s
  | succ n ih => rw [forUp_succ (Nat.le_add_left 1 n), forDown, h, ih]

/-- Counting up undoes counting down, iteration by iteration. -/
theorem forUp_forDown (h : ∀ i s, body i (back i s) = s) (n : ℕ) (s : σ) :
    forUp 1 (n + 1) body (forDown n back s) = s := by
  induction n generalizing s with
  | zero => exact forUp_of_le le_rfl s
  | succ n ih => rw [forUp_succ (Nat.le_add_left 1 n), forDown, ih, h]

/-- A step of the body moved from the start of an iteration to the end of the
    one before. -/
theorem forDown_rotate (pre : σ → σ) (post : ℕ → σ → σ) (n : ℕ) (s : σ) :
    pre (forDown n (fun i s => post i (pre s)) s) =
      forDown n (fun i s => pre (post i s)) (pre s) := by
  induction n generalizing s with
  | zero => rfl
  | succ n ih => rw [forDown, forDown, ih]

/-! ## Counting up under a condition -/

/-- The loop `while (test) { body; ++i; }`, for at most `fuel` more iterations. -/
def forUpWhileFrom (test : ℕ → σ → Bool) (body : ℕ → σ → σ) : (fuel : ℕ) → (i : ℕ) → σ → σ
  | 0, _, s => s
  | fuel + 1, i, s =>
    if test i s = true then forUpWhileFrom test body fuel (i + 1) (body i s) else s

/-- `for (i = lo; i < hi && test; ++i) body`. -/
def forUpWhile (lo hi : ℕ) (test : ℕ → σ → Bool) (body : ℕ → σ → σ) (s : σ) : σ :=
  forUpWhileFrom test body (hi - lo) lo s

variable {test : ℕ → σ → Bool} {s : σ}

theorem forUpWhile_of_le (h : hi ≤ lo) : forUpWhile lo hi test body s = s := by
  rw [forUpWhile, Nat.sub_eq_zero_of_le h, forUpWhileFrom]

theorem forUpWhile_of_not (h : test lo s = false) : forUpWhile lo hi test body s = s := by
  rw [forUpWhile]
  cases hi - lo with
  | zero => rfl
  | succ fuel => rw [forUpWhileFrom, h, if_neg Bool.false_ne_true]

theorem forUpWhile_of_test (hlt : lo < hi) (h : test lo s = true) :
    forUpWhile lo hi test body s = forUpWhile (lo + 1) hi test body (body lo s) := by
  obtain ⟨fuel, hfuel⟩ : ∃ fuel, hi - lo = fuel + 1 := ⟨hi - lo - 1, by omega⟩
  have hnext : hi - (lo + 1) = fuel := by omega
  rw [forUpWhile, forUpWhile, hfuel, hnext, forUpWhileFrom, if_pos h]

/-! ## Loops over the parts of a state -/

/-- A loop over a list of distinct indices, each iteration rewriting its own part
    of the state and no other, rewrites exactly the parts of the list. -/
theorem foldl_part_of_nodup {ι : Type*} [DecidableEq ι] (get : ι → σ → α) {f : σ → ι → σ}
    (g : ι → α → α) (hself : ∀ i s, get i (f s i) = g i (get i s))
    (hother : ∀ i j s, i ≠ j → get j (f s i) = get j s) {l : List ι} (hl : l.Nodup)
    (j : ι) (s : σ) :
    get j (l.foldl f s) = if j ∈ l then g j (get j s) else get j s := by
  induction l generalizing s with
  | nil => rfl
  | cons i l ih =>
    rw [List.nodup_cons] at hl
    rw [List.foldl_cons, ih hl.2]
    by_cases hij : i = j
    · subst hij
      simp [hl.1, hself]
    · simp [hother i j s hij, Ne.symm hij]

/-- A loop over an array, each iteration rewriting its own part of the state and
    no other, rewrites every part once. -/
theorem foldl_part {n : ℕ} (get : Fin n → σ → α) {f : σ → Fin n → σ} (g : Fin n → α → α)
    (hself : ∀ i s, get i (f s i) = g i (get i s))
    (hother : ∀ i j s, i ≠ j → get j (f s i) = get j s) (j : Fin n) (s : σ) :
    get j (Fin.foldl n f s) = g j (get j s) := by
  rw [Fin.foldl_eq_foldl_finRange, foldl_part_of_nodup get g hself hother (List.nodup_finRange n),
    if_pos (List.mem_finRange j)]

/-- The rule of invariants for a loop over an array: `P i` holds before the iteration `i`. -/
theorem foldl_induction {n : ℕ} (P : ℕ → σ → Prop) {f : σ → Fin n → σ} {s : σ} (h₀ : P 0 s)
    (hstep : ∀ (i : Fin n) s, P i s → P (i + 1) (f s i)) : P n (Fin.foldl n f s) := by
  induction n with
  | zero => rw [Fin.foldl_zero]; exact h₀
  | succ n ih =>
    rw [Fin.foldl_succ_last]
    exact hstep (Fin.last n) _ (ih fun i => hstep i.castSucc)

/-- What no iteration changes, the loop does not change. -/
theorem foldl_frame {n : ℕ} (get : σ → α) {f : σ → Fin n → σ}
    (h : ∀ i s, get (f s i) = get s) (s : σ) : get (Fin.foldl n f s) = get s :=
  foldl_induction (fun _ t => get t = get s) rfl fun i t ht => (h i t).trans ht

/-! ## Counters of fixed width -/

/-- The loop `while (i < length) { body; i += step; }`, for at most `fuel` more
    iterations. -/
def forStepFrom {w : ℕ} (length step : BitVec w) (body : σ → σ) :
    (fuel : ℕ) → (i : BitVec w) → σ → Option σ
  | 0, i, s => if i < length then none else some s
  | fuel + 1, i, s =>
    if i < length then forStepFrom length step body fuel (i + step) (body s) else some s

/-- `for (i = 0; i < length; i += step) body`, with a counter of `w` bits. After
    `2 ^ w` iterations the counter has come back to a value it had before: the
    loop never ends, and the result is `none`. -/
def forStep {w : ℕ} (length step : BitVec w) (body : σ → σ) (s : σ) : Option σ :=
  forStepFrom length step body (2 ^ w) 0 s

theorem forStepFrom_eq_some {w : ℕ} {length step : BitVec w} {body : σ → σ} {n fuel : ℕ}
    (hstep : 0 < step.toNat) (hfuel : n ≤ fuel) (i : BitVec w) (s : σ)
    (hi : i.toNat + n * step.toNat = length.toNat) :
    forStepFrom length step body fuel i s = some (body^[n] s) := by
  induction n generalizing fuel i s with
  | zero =>
    have hlt : ¬i < length := by simp only [BitVec.lt_def]; omega
    cases fuel <;> simp [forStepFrom, hlt]
  | succ n ih =>
    rw [Nat.succ_mul] at hi
    have hlt : i < length := by simp only [BitVec.lt_def]; omega
    have hadd : (i + step).toNat = i.toNat + step.toNat := by
      rw [BitVec.toNat_add, Nat.mod_eq_of_lt (by have := length.isLt; omega)]
    obtain ⟨fuel, rfl⟩ : ∃ k, fuel = k + 1 := ⟨fuel - 1, by omega⟩
    rw [forStepFrom, if_pos hlt, ih (by omega) _ _ (by rw [hadd]; omega),
      Function.iterate_succ_apply]

/-- Up to a multiple of the step the counter does not wrap, and the loop ends
    after `n` iterations. -/
theorem forStep_eq_some {w : ℕ} {length step : BitVec w} {n : ℕ} (hstep : 0 < step.toNat)
    (hn : length.toNat = n * step.toNat) (body : σ → σ) (s : σ) :
    forStep length step body s = some (body^[n] s) := by
  refine forStepFrom_eq_some hstep ?_ 0 s (by simp [hn])
  calc n ≤ n * step.toNat := Nat.le_mul_of_pos_right n hstep
    _ = length.toNat := hn.symm
    _ ≤ 2 ^ w := length.isLt.le

/-- The rule of invariants: `P i` holds after `i` iterations. -/
theorem forStep_induction {w : ℕ} {length step : BitVec w} {n : ℕ} (hstep : 0 < step.toNat)
    (hn : length.toNat = n * step.toNat) (P : ℕ → σ → Prop) {body : σ → σ} {s : σ} (h₀ : P 0 s)
    (hbody : ∀ i s, P i s → P (i + 1) (body s)) :
    ∃ t, forStep length step body s = some t ∧ P n t := by
  refine ⟨_, forStep_eq_some hstep hn body s, ?_⟩
  clear hn
  induction n with
  | zero => exact h₀
  | succ n ih =>
    rw [Function.iterate_succ_apply']
    exact hbody n _ ih

end EmbeddedSystems.Loop
