import Mathlib

/-!
# Round robin

Requesters `0, …, n - 1` in a circle, and a priority that moves around it: the
next one to be served is the first one in the circle, from the priority on, that
requests (`IsNext`). There is one as soon as somebody requests, and only one
(`exists_isNext`, `IsNext.unique`).

After a service the priority is the place behind the one that was served. One that
keeps requesting gets closer to the priority with every service of another
(`IsNext.ahead_lt`), so that it is passed over fewer than `n` times in a row, and
never twice by the same one (`PassedOver.length_lt`, `PassedOver.nodup`).
-/

namespace EmbeddedSystems.RoundRobin

variable {n : ℕ}

/-- The number of places from `p` on to `i`. -/
def ahead (p i : Fin n) : ℕ := (i - p).val

/-- The first requester in the circle, from `p` on. -/
def IsNext (req : Fin n → Prop) (p i : Fin n) : Prop :=
  req i ∧ ∀ j, req j → ahead p i ≤ ahead p j

variable {req : Fin n → Prop} {p q i j k : Fin n} {l : List (Fin n)}

theorem ahead_lt (p i : Fin n) : ahead p i < n := (i - p).isLt

theorem ahead_eq (p i : Fin n) :
    ahead p i = if p.val ≤ i.val then i.val - p.val else n + i.val - p.val := by
  split_ifs with h
  · exact Fin.sub_val_of_le h
  · exact Fin.coe_sub_iff_lt.2 (not_le.1 h)

theorem ahead_injective (p : Fin n) : Function.Injective (ahead p) := by
  intro i j h
  rw [ahead_eq, ahead_eq] at h
  have hi := i.isLt
  have hj := j.isLt
  have hp := p.isLt
  apply Fin.val_injective
  split_ifs at h <;> omega

theorem exists_ahead_eq (p : Fin n) {d : ℕ} (hd : d < n) : ∃ i, ahead p i = d := by
  have hinj : Function.Injective fun i : Fin n => (⟨ahead p i, ahead_lt p i⟩ : Fin n) :=
    fun i j h => ahead_injective p (congrArg Fin.val h)
  rcases Finite.surjective_of_injective hinj ⟨d, hd⟩ with ⟨i, hi⟩
  exact ⟨i, congrArg Fin.val hi⟩

theorem IsNext.unique (hi : IsNext req p i) (hj : IsNext req p j) : i = j :=
  ahead_injective p (le_antisymm (hi.2 j hj.1) (hj.2 i hi.1))

theorem exists_isNext (p : Fin n) (h : ∃ i, req i) : ∃ i, IsNext req p i := by
  classical
  have hex : ∃ d, ∃ j, req j ∧ ahead p j = d := h.elim fun i hi => ⟨ahead p i, i, hi, rfl⟩
  rcases Nat.find_spec hex with ⟨k, hk, hd⟩
  exact ⟨k, hk, fun j hj => hd ▸ Nat.find_min' hex ⟨j, hj, rfl⟩⟩

/-- The one that is served is ahead of the others that request. -/
theorem IsNext.lt (h : IsNext req p i) (hk : req k) (hne : i ≠ k) : ahead p i < ahead p k :=
  lt_of_le_of_ne (h.2 k hk) fun heq => hne (ahead_injective p heq)

variable [NeZero n]

/-- From the place behind `i` on, the places behind `i` come first, and the places up to `i`
    last. -/
theorem ahead_add_one (p i j : Fin n) :
    ahead (i + 1) j + ahead p i + 1 =
      if ahead p i < ahead p j then ahead p j else n + ahead p j := by
  have hi := i.isLt
  have hj := j.isLt
  have hp := p.isLt
  have hsucc : (i + 1).val = if i.val + 1 = n then 0 else i.val + 1 := by
    rw [Fin.val_add_eq_ite, Fin.val_one']
    rcases Nat.eq_or_lt_of_le (NeZero.one_le (n := n)) with hn | hn
    · subst hn
      simp
    · rw [Nat.mod_eq_of_lt hn]
      split_ifs <;> omega
  rw [ahead_eq, ahead_eq, ahead_eq, hsucc]
  split_ifs <;> omega

/-- A service of another brings one that requests closer to the priority. -/
theorem IsNext.ahead_lt (h : IsNext req p i) (hk : req k) (hne : i ≠ k) :
    ahead (i + 1) k < ahead p k := by
  have hstep := ahead_add_one p i k
  rw [if_pos (h.lt hk hne)] at hstep
  omega

/-! ## Being passed over -/

/-- The services `l`, one after the other, take the priority from `p` to `q`; at each of them `k`
    requests and another is served. -/
inductive PassedOver (k : Fin n) : Fin n → List (Fin n) → Fin n → Prop
  | nil (p : Fin n) : PassedOver k p [] p
  | cons {req : Fin n → Prop} {p i q : Fin n} {l : List (Fin n)} (hnext : IsNext req p i)
      (hreq : req k) (hne : i ≠ k) (hl : PassedOver k (i + 1) l q) : PassedOver k p (i :: l) q

theorem PassedOver.length_add (h : PassedOver k p l q) : l.length + ahead q k ≤ ahead p k := by
  induction h with
  | nil p => simp
  | cons hnext hreq hne _ ih =>
    have hlt := hnext.ahead_lt hreq hne
    rw [List.length_cons]
    omega

theorem PassedOver.length_lt (h : PassedOver k p l q) : l.length < n := by
  have hle := h.length_add
  have hlt := RoundRobin.ahead_lt p k
  omega

/-- Whoever passes `k` over is ahead of it. -/
theorem PassedOver.ahead_lt (h : PassedOver k p l q) (hi : i ∈ l) : ahead p i < ahead p k := by
  induction h with
  | nil p => exact absurd hi List.not_mem_nil
  | @cons _ p j q l hnext hreq hne _ ih =>
    rcases List.mem_cons.1 hi with rfl | hi
    · exact hnext.lt hreq hne
    · have hlt := ih hi
      have hk := ahead_add_one p j k
      have hi' := ahead_add_one p j i
      have hbound := RoundRobin.ahead_lt p k
      rw [if_pos (hnext.lt hreq hne)] at hk
      split_ifs at hi' <;> omega

/-- No one passes `k` over twice. -/
theorem PassedOver.nodup (h : PassedOver k p l q) : l.Nodup := by
  induction h with
  | nil p => exact List.nodup_nil
  | @cons _ p i q l hnext hreq hne hl ih =>
    refine List.nodup_cons.2 ⟨fun hi => ?_, ih⟩
    -- After its service `i` is the last one from the priority on.
    have hlt := hl.ahead_lt hi
    have hlast := ahead_add_one p i i
    have hbound := RoundRobin.ahead_lt (i + 1) k
    rw [if_neg (lt_irrefl _)] at hlast
    omega

end EmbeddedSystems.RoundRobin
