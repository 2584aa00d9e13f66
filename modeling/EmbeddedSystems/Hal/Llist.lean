import EmbeddedSystems.Library.LinkedRing

/-!
# The linked lists of the HAL

`alt_llist_insert` and `alt_llist_remove`, store by store. On a ring they insert a node
behind the head and take a node out (`isRing_insert`, `isRing_remove`), and leave the
links of nodes outside the ring as they are. A node that has been removed points to
itself, and removing it again changes nothing (`remove_of_selfLinked`).
-/

namespace EmbeddedSystems.Hal.Llist

open LinkedRing

variable {α : Type*} [DecidableEq α]

/-- The store `node->next = v`. -/
def setNext (node v : α) (h : Links α) : Links α := { h with next := Function.update h.next node v }

/-- The store `node->previous = v`. -/
def setPrevious (node v : α) (h : Links α) : Links α :=
  { h with previous := Function.update h.previous node v }

/-- `alt_llist_insert(list, entry)`. -/
def insert (list entry : α) (h : Links α) : Links α :=
  let h := setPrevious entry list h
  let h := setNext entry (h.next list) h
  let h := setPrevious (h.next list) entry h
  setNext list entry h

/-- `alt_llist_remove(entry)`. -/
def remove (entry : α) (h : Links α) : Links α :=
  let h := setPrevious (h.next entry) (h.previous entry) h
  let h := setNext (h.previous entry) (h.next entry) h
  let h := setPrevious entry entry h
  setNext entry entry h

/-- A node that points to itself. -/
def SelfLinked (h : Links α) (node : α) : Prop := h.next node = node ∧ h.previous node = node

variable {h : Links α} {list entry y : α} {l l₁ l₂ : List α}

/-! ## What the links are -/

theorem insert_next (y : α) : (insert list entry h).next y =
    if y = list then entry else if y = entry then h.next list else h.next y := by
  simp only [insert, setNext, setPrevious, Function.update_apply]

theorem insert_previous (hne : entry ≠ list) (y : α) : (insert list entry h).previous y =
    if y = h.next list then entry else if y = entry then list else h.previous y := by
  simp only [insert, setNext, setPrevious, Function.update_apply, if_neg hne.symm]

theorem remove_next (hne : h.next entry ≠ entry) (y : α) : (remove entry h).next y =
    if y = entry then entry else if y = h.previous entry then h.next entry else h.next y := by
  simp only [remove, setNext, setPrevious, Function.update_apply, if_neg hne.symm]

theorem remove_previous (y : α) : (remove entry h).previous y =
    if y = entry then entry else if y = h.next entry then h.previous entry else h.previous y := by
  simp only [remove, setNext, setPrevious, Function.update_apply]

theorem selfLinked_remove (entry : α) (h : Links α) : SelfLinked (remove entry h) entry := by
  simp [SelfLinked, remove, setNext, setPrevious]

/-- Removing a node that points to itself changes nothing. -/
theorem remove_of_selfLinked (hself : SelfLinked h entry) : remove entry h = h := by
  rcases hself with ⟨hn, hp⟩
  have hprevious : Function.update h.previous entry entry = h.previous := by
    rw [Function.update_eq_self_iff, hp]
  have hnext : Function.update h.next entry entry = h.next := by
    rw [Function.update_eq_self_iff, hn]
  simp only [remove, setNext, setPrevious, hn, hp, hprevious, hnext]

/-! ## Rings -/

theorem isRing_insert (hring : IsRing h list l) (hentry : entry ∉ list :: l) :
    IsRing (insert list entry h) list (entry :: l) := by
  rw [List.mem_cons, not_or] at hentry
  rcases hentry with ⟨hne, hl⟩
  rcases hring with ⟨hlinked, hnodup⟩
  have hlist := (List.nodup_cons.1 hnodup).1
  refine ⟨⟨?_, ?_, ?_⟩, ?_⟩
  · rw [insert_next, if_pos rfl]
  · have hfirst : entry ≠ h.next list := by
      intro heq
      rcases List.mem_append.1 hlinked.next_mem with hmem | hmem
      · exact hl (heq ▸ hmem)
      · exact hne (heq.trans (List.mem_singleton.1 hmem))
    rw [insert_previous hne, if_neg hfirst, if_pos rfl]
  · -- Behind the new node the links are the old ones.
    cases l with
    | nil =>
      rcases hlinked with ⟨hn, -⟩
      exact ⟨by rw [insert_next, if_neg hne, if_pos rfl, hn],
        by rw [insert_previous hne, if_pos hn.symm]⟩
    | cons x l =>
      rcases hlinked with ⟨hn, -, hlinked⟩
      rw [List.mem_cons, not_or] at hl hlist
      refine ⟨by rw [insert_next, if_neg hne, if_pos rfl, hn],
        by rw [insert_previous hne, if_pos hn.symm], hlinked.congr (fun y hy => ?_) fun y hy => ?_⟩
      · have hylist : y ≠ list := by
          rintro rfl
          exact (List.mem_cons.1 hy).elim hlist.1 hlist.2
        have hyentry : y ≠ entry := by
          rintro rfl
          exact (List.mem_cons.1 hy).elim hl.1 hl.2
        rw [insert_next, if_neg hylist, if_neg hyentry]
      · have hyx : y ≠ x := by
          rintro rfl
          rcases List.mem_append.1 hy with hy | hy
          · exact (List.nodup_cons.1 (List.nodup_cons.1 hnodup).2).1 hy
          · exact hlist.1 (List.mem_singleton.1 hy).symm
        have hyentry : y ≠ entry := by
          rintro rfl
          rcases List.mem_append.1 hy with hy | hy
          · exact hl.2 hy
          · exact hne (List.mem_singleton.1 hy)
        rw [insert_previous hne, hn, if_neg hyx, if_neg hyentry]
  · exact List.nodup_cons.2 ⟨fun hmem => (List.mem_cons.1 hmem).elim
      (fun heq => hne heq.symm) hlist, List.nodup_cons.2 ⟨hl, (List.nodup_cons.1 hnodup).2⟩⟩

omit [DecidableEq α] in
/-- A node of a ring, between the nodes before it and the nodes after it. -/
theorem linked_split (hring : IsRing h list (l₁ ++ entry :: l₂)) :
    Linked h list l₁ entry ∧ Linked h entry l₂ list ∧ h.next entry ≠ entry := by
  rcases hring with ⟨hlinked, hnodup⟩
  rcases linked_append.1 hlinked with ⟨h₁, h₂⟩
  refine ⟨h₁, h₂, fun heq => ?_⟩
  rw [List.nodup_cons, List.nodup_append, List.nodup_cons] at hnodup
  rcases List.mem_append.1 h₂.next_mem with hmem | hmem
  · exact hnodup.2.2.1.1 (heq ▸ hmem)
  · have hlist : entry = list := heq.symm.trans (List.mem_singleton.1 hmem)
    exact hnodup.1 (hlist ▸ List.mem_append_right _ List.mem_cons_self)

theorem isRing_remove (hring : IsRing h list (l₁ ++ entry :: l₂)) :
    IsRing (remove entry h) list (l₁ ++ l₂) := by
  rcases linked_split hring with ⟨h₁, h₂, hne⟩
  have hnodup := hring.nodup
  refine ⟨h₁.join h₂ hnodup (List.nodup_cons.1 hnodup).1 (fun y hy => ?_) fun y hy => ?_, ?_⟩
  · rw [remove_next hne, if_neg hy]
  · rw [remove_previous, if_neg hy]
  · exact hnodup.sublist (((List.sublist_cons_self entry l₂).append_left l₁).cons_cons list)

/-! ## Nodes outside the ring -/

theorem insert_frame (hring : IsRing h list l) (hne : entry ≠ list) (hy : y ∉ list :: l)
    (hyentry : y ≠ entry) : (insert list entry h).next y = h.next y ∧
      (insert list entry h).previous y = h.previous y := by
  rw [List.mem_cons, not_or] at hy
  have hfirst : y ≠ h.next list := by
    rintro rfl
    rcases List.mem_append.1 hring.linked.next_mem with hmem | hmem
    · exact hy.2 hmem
    · exact hy.1 (List.mem_singleton.1 hmem)
  rw [insert_next, if_neg hy.1, if_neg hyentry, insert_previous hne, if_neg hfirst,
    if_neg hyentry]
  exact ⟨rfl, rfl⟩

theorem remove_frame (hring : IsRing h list (l₁ ++ entry :: l₂))
    (hy : y ∉ list :: (l₁ ++ entry :: l₂)) :
    (remove entry h).next y = h.next y ∧ (remove entry h).previous y = h.previous y := by
  rcases linked_split hring with ⟨h₁, h₂, hne⟩
  rw [List.mem_cons, List.mem_append, List.mem_cons, not_or, not_or, not_or] at hy
  rcases hy with ⟨hylist, hy₁, hyentry, hy₂⟩
  have hnext : y ≠ h.next entry := by
    rintro rfl
    rcases List.mem_append.1 h₂.next_mem with hmem | hmem
    · exact hy₂ hmem
    · exact hylist (List.mem_singleton.1 hmem)
  have hprevious : y ≠ h.previous entry := by
    rintro rfl
    exact (List.mem_cons.1 h₁.previous_mem).elim hylist hy₁
  rw [remove_next hne, if_neg hyentry, if_neg hprevious, remove_previous, if_neg hyentry,
    if_neg hnext]
  exact ⟨rfl, rfl⟩

/-- Nodes outside the ring that point to themselves, and the node that is removed, are outside the
    ring and point to themselves afterwards. -/
theorem idle_remove (hring : IsRing h list (l₁ ++ entry :: l₂))
    (hy : y = entry ∨ y ∉ list :: (l₁ ++ entry :: l₂) ∧ SelfLinked h y) :
    y ∉ list :: (l₁ ++ l₂) ∧ SelfLinked (remove entry h) y := by
  have hnodup := hring.nodup
  rcases hy with rfl | ⟨hnotin, hself⟩
  · refine ⟨fun hmem => ?_, selfLinked_remove y h⟩
    have hperm : (y :: list :: (l₁ ++ l₂)).Nodup :=
      (List.Perm.nodup_iff ((List.perm_middle.cons list).trans (List.Perm.swap y list _))).1 hnodup
    exact (List.nodup_cons.1 hperm).1 hmem
  · have hframe := remove_frame hring hnotin
    refine ⟨fun hmem => hnotin ?_, hframe.1.trans hself.1, hframe.2.trans hself.2⟩
    exact ((List.sublist_cons_self entry l₂).append_left l₁).cons_cons list |>.subset hmem

end EmbeddedSystems.Hal.Llist
