import Mathlib

/-!
# Walks reflected at zero

A number that is changed by a sequence of steps, and stays at zero where a step
would take it below (`walk`). The number after the steps is the greatest of what
the steps after any point add up to, and of what all of them add to the start
(`walk_le_iff`); so it never exceeds a bound if and only if no stretch of the
steps adds up to more, and no beginning takes the start above it
(`forall_walk_le_iff`).
-/

namespace EmbeddedSystems.ReflectedWalk

variable {α : Type*} (f : α → ℤ)

/-- The walk from `x` with a step `f a` for every `a` of the list. -/
def walk (x : ℤ) (l : List α) : ℤ := l.foldl (fun x a => max (x + f a) 0) x

variable {f} {x B : ℤ} {l : List α}

theorem walk_concat (x : ℤ) (l : List α) (a : α) :
    walk f x (l ++ [a]) = max (walk f x l + f a) 0 := by
  rw [walk, List.foldl_concat, walk]

/-- The steps after the last visit to zero decide how far the walk gets. -/
theorem walk_le_iff (hx : 0 ≤ x) :
    walk f x l ≤ B ↔ x + (l.map f).sum ≤ B ∧ ∀ s, s <:+ l → (s.map f).sum ≤ B := by
  induction l using List.reverseRecOn generalizing B with
  | nil =>
    have hnil : ∀ s : List α, s <:+ [] → (s.map f).sum = 0 := by
      rintro s hs
      rw [List.suffix_nil.1 hs]
      rfl
    simp only [walk, List.foldl_nil, List.map_nil, List.sum_nil, add_zero]
    exact ⟨fun h => ⟨h, fun s hs => (hnil s hs).trans_le (hx.trans h)⟩, And.left⟩
  | append_singleton l a ih =>
    have hsum : ∀ s : List α, ((s ++ [a]).map f).sum = (s.map f).sum + f a := by simp
    have hstep : walk f x (l ++ [a]) ≤ B ↔ walk f x l ≤ B - f a ∧ 0 ≤ B := by
      rw [walk_concat, max_le_iff, le_sub_iff_add_le]
    rw [hstep, ih, hsum]
    constructor
    · rintro ⟨⟨hall, hend⟩, hB⟩
      refine ⟨by omega, fun s hs => ?_⟩
      rcases List.suffix_concat_iff.1 hs with rfl | ⟨s', rfl, hs'⟩
      · exact hB
      · rw [hsum]
        exact le_sub_iff_add_le.1 (hend s' hs')
    · rintro ⟨hall, hend⟩
      refine ⟨⟨by omega, fun s hs => ?_⟩, ?_⟩
      · have hle := hend (s ++ [a]) (List.suffix_concat_iff.2 (Or.inr ⟨s, rfl, hs⟩))
        rw [hsum] at hle
        exact le_sub_iff_add_le.2 hle
      · exact hend [] (List.nil_suffix)

/-- The bound of a whole walk. -/
theorem forall_walk_le_iff (hx : 0 ≤ x) : (∀ p, p <+: l → walk f x p ≤ B) ↔
    (∀ p, p <+: l → x + (p.map f).sum ≤ B) ∧ ∀ q, q <:+: l → (q.map f).sum ≤ B := by
  simp only [walk_le_iff hx, List.infix_iff_suffix_prefix]
  constructor
  · intro h
    exact ⟨fun p hp => (h p hp).1, fun q ⟨p, hq, hp⟩ => (h p hp).2 q hq⟩
  · rintro ⟨hstart, hpart⟩ p hp
    exact ⟨hstart p hp, fun q hq => hpart q ⟨p, hq, hp⟩⟩

end EmbeddedSystems.ReflectedWalk
