import EmbeddedSystems.Library.Loop
import EmbeddedSystems.Library.Memory

/-!
# Strings of C

A string in memory ends with a null character (`CString`). A loop that replaces
the characters of a string one by one, up to a limit, and stops at the null
character (`forString`), does to the bytes in memory what `transform` does to a
list.

The loop reads each character before it replaces it, so that a second loop over
what the first has left may stop earlier: where the first has stored a null
character. That is the only thing that can go wrong when the second is to undo
the first (`transform_transform_iff`).
-/

namespace EmbeddedSystems

open Loop

/-- The bytes of a text. -/
def ascii (t : List Char) : List Byte := t.map fun c => BitVec.ofNat 8 c.toNat

theorem length_ascii (t : List Char) : (ascii t).length = t.length := List.length_map _

/-- A string: no character but the terminator is null. -/
structure CString where
  chars : List Byte
  ne_zero : ∀ b ∈ chars, b ≠ 0

namespace CString

/-- The bytes of the string in memory. -/
def toList (s : CString) : List Byte := s.chars ++ [0]

/-! ## String literals -/

/-- A text of ASCII characters, none of them null. -/
def isAscii (t : String) : Bool := t.toList.all fun c => 0 < c.toNat && c.toNat < 128

theorem toNat_of_mem_ascii {t : String} (h : isAscii t = true) {b : Byte}
    (hb : b ∈ ascii t.toList) : 0 < b.toNat ∧ b.toNat < 128 := by
  obtain ⟨c, hc, rfl⟩ := List.mem_map.1 hb
  have hbounds := List.all_eq_true.1 h c hc
  simp only [Bool.and_eq_true, decide_eq_true_eq] at hbounds
  rw [BitVec.toNat_ofNat, Nat.mod_eq_of_lt (hbounds.2.trans (by decide))]
  exact hbounds

theorem ne_zero_of_mem_ascii {t : String} (h : isAscii t = true) :
    ∀ b ∈ ascii t.toList, b ≠ 0 := by
  rintro _ hb rfl
  exact absurd (toNat_of_mem_ascii h hb).1 (by decide)

/-- The string of a literal. -/
def ofAscii (t : String) (h : isAscii t = true) : CString :=
  ⟨ascii t.toList, ne_zero_of_mem_ascii h⟩

/-! ## Loops over a string -/

variable (s : CString)

theorem zero_mem_toList : 0 ∈ s.toList := List.mem_append_right _ (List.mem_singleton_self 0)

/-- The terminator is the first null character. -/
theorem takeWhile_toList : s.toList.takeWhile (· ≠ 0) = s.chars := by
  have hchars : ∀ b ∈ s.chars, decide (b ≠ 0) = true := fun b hb => decide_eq_true (s.ne_zero b hb)
  rw [toList, List.takeWhile_append_of_pos hchars]
  exact List.append_nil _

/-- `for (j = 0; j < limit && str[j] != 0; j++) str[j] = f(str[j]);`. -/
def forString (limit : ℕ) (f : Byte → Byte) (m : Mem) (str : ℕ) : Mem :=
  forUpWhile 0 limit (fun j m => m (str + j) ≠ 0)
    (fun j m => m.store (str + j) (f (m (str + j)))) m

/-- What the loop does to the bytes of the string. -/
def transform (f : Byte → Byte) : (limit : ℕ) → List Byte → List Byte
  | 0, l => l
  | _ + 1, [] => []
  | limit + 1, b :: l => if b = 0 then b :: l else f b :: transform f limit l

variable {f g : Byte → Byte}

theorem length_transform (limit : ℕ) (l : List Byte) :
    (transform f limit l).length = l.length := by
  induction limit generalizing l with
  | zero => rfl
  | succ limit ih =>
    cases l with
    | nil => rfl
    | cons b l =>
      rw [transform]
      split_ifs
      · rfl
      · rw [List.length_cons, List.length_cons, ih]

/-- The terminator stays. -/
theorem zero_mem_transform {limit : ℕ} {l : List Byte} (h : 0 ∈ l) :
    0 ∈ transform f limit l := by
  induction limit generalizing l with
  | zero => exact h
  | succ limit ih =>
    cases l with
    | nil => exact h
    | cons b l =>
      rw [transform]
      split_ifs with hb
      · exact h
      · exact List.mem_cons_of_mem _ (ih ((List.mem_cons.1 h).resolve_left (Ne.symm hb)))

/-- The loop, from the counter `i` on. -/
theorem forUpWhile_writeList (limit : ℕ) (f : Byte → Byte) (m : Mem) (str i : ℕ) {l : List Byte}
    (h : 0 ∈ l) :
    forUpWhile i limit (fun j m => m (str + j) ≠ 0)
        (fun j m => m.store (str + j) (f (m (str + j)))) (m.writeList (str + i) l) =
      m.writeList (str + i) (transform f (limit - i) l) := by
  induction l generalizing m i with
  | nil => exact absurd h List.not_mem_nil
  | cons b l ih =>
    have hread : m.writeList (str + i) (b :: l) (str + i) = b :=
      Mem.writeList_apply_add (k := 0) (Nat.succ_pos l.length)
    rcases Nat.lt_or_ge i limit with hlt | hge
    · obtain ⟨k, hk⟩ : ∃ k, limit - i = k + 1 := ⟨limit - i - 1, by omega⟩
      have hnext : limit - (i + 1) = k := by omega
      rw [hk, transform]
      by_cases hb : b = 0
      · rw [forUpWhile_of_not (decide_eq_false (not_not.2 (hread.trans hb))), if_pos hb]
      · have hmem := (List.mem_cons.1 h).resolve_left (Ne.symm hb)
        -- the rest of the string is where the rest of the loop expects it
        have hrest := ih (m.store (str + i) (f b)) (i + 1) hmem
        have htest : m.writeList (str + i) (b :: l) (str + i) ≠ 0 := hread.trans_ne hb
        rw [forUpWhile_of_test hlt (decide_eq_true htest), if_neg hb, hread,
          Mem.store_writeList_cons, Mem.writeList_cons, Mem.writeList_cons, ← hnext]
        exact hrest
    · rw [forUpWhile_of_le hge, Nat.sub_eq_zero_of_le hge, transform]

theorem forString_writeList (limit : ℕ) (f : Byte → Byte) (m : Mem) (str : ℕ) {l : List Byte}
    (h : 0 ∈ l) :
    forString limit f (m.writeList str l) str = m.writeList str (transform f limit l) :=
  forUpWhile_writeList limit f m str 0 h

/-- The loop for `g` undoes the loop for `f` exactly if the latter stores no null character. -/
theorem transform_transform_iff (hgf : ∀ b, g (f b) = b) (limit : ℕ) (l : List Byte) :
    transform g limit (transform f limit l) = l ↔
      ∀ b ∈ (l.takeWhile (· ≠ 0)).take limit, f b ≠ 0 := by
  induction limit generalizing l with
  | zero => simp [transform]
  | succ limit ih =>
    cases l with
    | nil => simp [transform]
    | cons b l =>
      by_cases hb : b = 0
      · simp [transform, hb]
      · rw [List.takeWhile_cons_of_pos (by simpa using hb), List.take_succ_cons,
          List.forall_mem_cons, ← ih l, transform, if_neg hb, transform]
        split_ifs with hf
        · refine iff_of_false (fun heq => hb ?_) (fun hne => hne.1 hf)
          rw [← (List.cons.inj heq).1, hf]
        · rw [hgf b, List.cons_inj_right, and_iff_right hf]

end CString

end EmbeddedSystems
