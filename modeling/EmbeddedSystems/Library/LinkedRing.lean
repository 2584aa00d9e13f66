import Mathlib

/-!
# Rings of linked nodes

Nodes with a link to the next node and one to the previous node. The nodes of a list lie
between two nodes if the links lead through them, in both directions (`Linked`); a
ring is a node, the head, with the nodes of a list between it and itself (`IsRing`).

Linked nodes can be cut in two at every node of the list (`linked_append`), and only
depend on the links that lead through them (`Linked.congr`). Taking a node out joins
what is before it to what is after it (`Linked.join`).
-/

namespace EmbeddedSystems.LinkedRing

/-- The links of all nodes. -/
structure Links (α : Type*) where
  next : α → α
  previous : α → α

variable {α : Type*} {h h' : Links α} {a b x y : α} {l l₁ l₂ : List α}

/-- The nodes of the list lie between `a` and `b`, in this order. -/
def Linked (h : Links α) : α → List α → α → Prop
  | a, [], b => h.next a = b ∧ h.previous b = a
  | a, x :: l, b => h.next a = x ∧ h.previous x = a ∧ Linked h x l b

/-- A ring: a head, and the other nodes in the order of the links. -/
structure IsRing (h : Links α) (head : α) (l : List α) : Prop where
  linked : Linked h head l head
  nodup : (head :: l).Nodup

theorem linked_append : Linked h a (l₁ ++ x :: l₂) b ↔ Linked h a l₁ x ∧ Linked h x l₂ b := by
  induction l₁ generalizing a with
  | nil => exact and_assoc.symm
  | cons y l₁ ih =>
    rw [List.cons_append, Linked, Linked, ih]
    tauto

theorem Linked.congr (hl : Linked h a l b) (hnext : ∀ y ∈ a :: l, h'.next y = h.next y)
    (hprevious : ∀ y ∈ l ++ [b], h'.previous y = h.previous y) : Linked h' a l b := by
  induction l generalizing a with
  | nil =>
    rcases hl with ⟨hn, hp⟩
    exact ⟨by rw [hnext a List.mem_cons_self, hn], by rw [hprevious b List.mem_cons_self, hp]⟩
  | cons x l ih =>
    rcases hl with ⟨hn, hp, hl⟩
    exact ⟨by rw [hnext a List.mem_cons_self, hn], by rw [hprevious x List.mem_cons_self, hp],
      ih hl (fun y hy => hnext y (List.mem_cons_of_mem _ hy))
        fun y hy => hprevious y (List.mem_cons_of_mem _ hy)⟩

theorem Linked.next_mem (hl : Linked h a l b) : h.next a ∈ l ++ [b] := by
  cases l with
  | nil => exact hl.1 ▸ List.mem_cons_self
  | cons x l => exact hl.1 ▸ List.mem_cons_self

theorem Linked.previous_mem (hl : Linked h a l b) : h.previous b ∈ a :: l := by
  induction l generalizing a with
  | nil => exact hl.2 ▸ List.mem_cons_self
  | cons x l ih => exact List.mem_cons_of_mem _ (ih hl.2.2)

/-- Without the node `x`, the nodes before it are followed by the nodes after it. The links are
    those of `h`, but for the ones that led to `x`. -/
theorem Linked.join [DecidableEq α] (h₁ : Linked h a l₁ x) (h₂ : Linked h x l₂ b)
    (hnodup : (a :: (l₁ ++ x :: l₂)).Nodup) (hb : b ∉ l₁ ++ x :: l₂)
    (hnext : ∀ y, y ≠ x → h'.next y = if y = h.previous x then h.next x else h.next y)
    (hprevious : ∀ y, y ≠ x →
      h'.previous y = if y = h.next x then h.previous x else h.previous y) :
    Linked h' a (l₁ ++ l₂) b := by
  rw [List.mem_append, List.mem_cons, not_or, not_or] at hb
  rcases hb with ⟨hb₁, hbx, hb₂⟩
  induction l₁ generalizing a with
  | nil =>
    -- `a` is before `x`, and is joined to what is after `x`.
    rcases h₁ with ⟨hna, hpx⟩
    rw [List.nil_append, List.nodup_cons, List.mem_cons, not_or, List.nodup_cons] at hnodup
    rcases hnodup with ⟨⟨hax, ha₂⟩, hx₂, hnodup⟩
    have hjoin : h'.next a = h.next x := by rw [hnext a hax, if_pos hpx.symm]
    cases l₂ with
    | nil =>
      rcases h₂ with ⟨hnx, -⟩
      exact ⟨by rw [hjoin, hnx], by rw [hprevious b hbx, if_pos hnx.symm, hpx]⟩
    | cons y l₂ =>
      rcases h₂ with ⟨hnx, -, h₂⟩
      rw [List.mem_cons, not_or] at hx₂ hb₂ ha₂
      refine ⟨by rw [hjoin, hnx], ?_, h₂.congr (fun z hz => ?_) fun z hz => ?_⟩
      · rw [hprevious y (Ne.symm hx₂.1), if_pos hnx.symm, hpx]
      · have hzx : z ≠ x := by
          rintro rfl
          exact (List.mem_cons.1 hz).elim hx₂.1 hx₂.2
        have hza : z ≠ a := by
          rintro rfl
          exact (List.mem_cons.1 hz).elim ha₂.1 ha₂.2
        rw [hnext z hzx, hpx, if_neg hza]
      · have hzx : z ≠ x := by
          rintro rfl
          rcases List.mem_append.1 hz with hz | hz
          · exact hx₂.2 hz
          · exact hbx (List.mem_singleton.1 hz).symm
        have hzy : z ≠ y := by
          rintro rfl
          rcases List.mem_append.1 hz with hz | hz
          · exact (List.nodup_cons.1 hnodup).1 hz
          · exact hb₂.1 (List.mem_singleton.1 hz).symm
        rw [hprevious z hzx, hnx, if_neg hzy]
  | cons y l₁ ih =>
    rcases h₁ with ⟨hna, hpy, h₁⟩
    rw [List.cons_append, List.nodup_cons] at hnodup
    rcases hnodup with ⟨ha, hnodup⟩
    have hax : a ≠ x := by
      rintro rfl
      exact ha (List.mem_cons_of_mem _ (List.mem_append_right _ List.mem_cons_self))
    have hap : a ≠ h.previous x := by
      rintro rfl
      rcases List.mem_cons.1 h₁.previous_mem with hy | hy
      · exact ha (hy ▸ List.mem_cons_self)
      · exact ha (List.mem_cons_of_mem _ (List.mem_append_left _ hy))
    have hy := (List.nodup_cons.1 hnodup).1
    have hyx : y ≠ x := by
      rintro rfl
      exact hy (List.mem_append_right _ List.mem_cons_self)
    have hyn : y ≠ h.next x := by
      rintro rfl
      rcases List.mem_append.1 h₂.next_mem with hmem | hmem
      · exact hy (List.mem_append_right _ (List.mem_cons_of_mem _ hmem))
      · exact hb₁ (List.mem_singleton.1 hmem ▸ List.mem_cons_self)
    refine ⟨by rw [hnext a hax, if_neg hap, hna], by rw [hprevious y hyx, if_neg hyn, hpy], ?_⟩
    exact ih h₁ hnodup fun hb => hb₁ (List.mem_cons_of_mem _ hb)

end EmbeddedSystems.LinkedRing
