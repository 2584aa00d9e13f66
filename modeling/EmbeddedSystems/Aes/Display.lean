import EmbeddedSystems.Library.CString
import EmbeddedSystems.Library.Decimal

/-!
# The display

The function `write_lcd` of `main.c`: the text of the first line, and a number on
the second. The function counts the digits of the number with a loop, has an
array of so many characters filled by `sprintf`, and sends so many of its
characters to the display.

The count is the number of digits, unless the number is zero: then it is zero,
and nothing is shown (`showsNumber_iff`). The array has no room for the null
character with which `sprintf` ends, whatever the number
(`sprintf_overruns`).

The delays and the empty line on the console are left out. The function returns
zero.
-/

namespace EmbeddedSystems.Aes

/-- A write to a register of the display: `LCD_WR_COMMAND_REG`, or `LCD_WR_DATA_REG`. -/
inductive LcdAccess
  | command (b : Byte)
  | data (b : Byte)
  deriving DecidableEq

theorem natAbs_tdiv_ten_lt {x : ℤ} (h : ¬x = 0) : (x.tdiv 10).natAbs < x.natAbs := by
  rw [Int.natAbs_tdiv]
  exact Nat.div_lt_self (Int.natAbs_pos.2 h) (by decide)

/-- `while (the_val != 0) { the_val /= 10; ++n; }`. -/
def digitLoop (theVal : ℤ) (n : ℕ) : ℕ :=
  if h : theVal = 0 then n else digitLoop (theVal.tdiv 10) (n + 1)
termination_by theVal.natAbs
decreasing_by exact natAbs_tdiv_ten_lt h

/-- The variable `n` after the loop. -/
def digitCount (val : BitVec 32) : ℕ := digitLoop val.toNat 0

/-- The text that the conversion `%lu` produces. -/
def numeralText (val : BitVec 32) : List Char := Decimal.format val.toNat

/-- What `sprintf(s, "%lu", val)` stores from the index 0 of `s` on. -/
def sprintfLu (val : BitVec 32) : List Byte := ascii (numeralText val) ++ [0]

/-- `for (i = 0; i < n; i++) IOWR(LCD_BASE, LCD_WR_DATA_REG, a[i]);`. -/
def sendChars (m : Mem) (a n : ℕ) : List LcdAccess :=
  (List.range n).map fun i => .data (m (a + i))

/-- The accesses of `write_lcd` to the display. The array `s` is not checked against its
    bound. -/
def writeLcd (m : Mem) (type s : ℕ) (val : BitVec 32) : List LcdAccess :=
  let n := digitCount val
  let m' := m.writeList s (sprintfLu val)
  [.command 0x02, .command 0x01] ++ sendChars m type 10 ++ [.command 0xC0] ++ sendChars m' s n ++
    [.command 0x01]

/-- The character that an access shows. -/
def LcdAccess.shown : LcdAccess → Option Byte
  | command _ => none
  | data b => some b

/-- The text on the second line: what is sent after its address is set. -/
def secondLine (accesses : List LcdAccess) : List Byte :=
  (accesses.dropWhile fun a => a ≠ .command 0xC0).filterMap LcdAccess.shown

/-- The function shows the number that it is given. -/
structure ShowsNumber (m : Mem) (type s : ℕ) (val : BitVec 32) : Prop where
  /-- The second line is the canonical numeral. -/
  shown : ∃ t, Decimal.IsNumeral val.toNat t ∧ secondLine (writeLcd m type s val) = ascii t
  /-- The loop counts the characters that `sprintf` produces. -/
  count : digitCount val = (numeralText val).length

/-- The array `s` is large enough: every index at which `sprintf` stores a character is in its
    range. -/
def TextFits (val : BitVec 32) : Prop := ∀ i < (sprintfLu val).length, i < digitCount val

/-! ## The loop -/

theorem digitLoop_zero (n : ℕ) : digitLoop 0 n = n := by
  rw [digitLoop, dif_pos rfl]

theorem digitLoop_pos {x : ℕ} (hx : 0 < x) (n : ℕ) :
    digitLoop x n = digitLoop (x / 10 : ℕ) (n + 1) := by
  rw [digitLoop, dif_neg (by omega)]
  rfl

/-- The loop counts the digits of a number that is not zero. -/
theorem digitLoop_eq {x : ℕ} (hx : 0 < x) (n : ℕ) :
    digitLoop x n = n + (Nat.toDigits 10 x).length := by
  induction x using Nat.strong_induction_on generalizing n with
  | _ x ih =>
    rw [digitLoop_pos hx]
    rcases Nat.lt_or_ge x 10 with hlt | hge
    · rw [Nat.div_eq_of_lt hlt, Nat.toDigits_of_lt_base hlt]
      exact digitLoop_zero (n + 1)
    · rw [ih (x / 10) (by omega) (by omega), Nat.toDigits_of_base_le (by decide) hge,
        List.length_append, List.length_singleton]
      omega

variable {val : BitVec 32}

theorem digitCount_zero : digitCount 0 = 0 := digitLoop_zero 0

theorem digitCount_eq (h : val ≠ 0) : digitCount val = (numeralText val).length := by
  have hpos : 0 < val.toNat := by
    refine Nat.pos_of_ne_zero fun hzero => h ?_
    exact BitVec.eq_of_toNat_eq hzero
  rw [digitCount, digitLoop_eq hpos, Nat.zero_add]
  rfl

theorem length_sprintfLu (val : BitVec 32) :
    (sprintfLu val).length = (numeralText val).length + 1 := by
  rw [sprintfLu, List.length_append, length_ascii]
  rfl

/-! ## The text that is shown -/

theorem shown_sendChars (m : Mem) (a n : ℕ) :
    (sendChars m a n).filterMap LcdAccess.shown = m.bytes a n := by
  rw [sendChars, List.filterMap_map]
  exact congrFun List.filterMap_eq_map' _

theorem ne_command_of_mem_sendChars {m : Mem} {a n : ℕ} {x : LcdAccess}
    (hx : x ∈ sendChars m a n) (b : Byte) : x ≠ .command b := by
  obtain ⟨i, -, rfl⟩ := List.mem_map.1 hx
  exact LcdAccess.noConfusion

/-- The second line is what the array holds, up to the count. -/
theorem secondLine_writeLcd (m : Mem) (type s : ℕ) (val : BitVec 32) :
    secondLine (writeLcd m type s val) =
      (m.writeList s (sprintfLu val)).bytes s (digitCount val) := by
  have hclear : ∀ x ∈ [LcdAccess.command 0x02, .command 0x01], x ≠ .command 0xC0 := by decide
  have hfirst : ∀ x ∈ [LcdAccess.command 0x02, .command 0x01] ++ sendChars m type 10,
      decide (x ≠ .command 0xC0) = true := by
    intro x hx
    rw [decide_eq_true_eq]
    rcases List.mem_append.1 hx with hx | hx
    · exact hclear x hx
    · exact ne_command_of_mem_sendChars hx _
  rw [secondLine, writeLcd, List.append_assoc, List.append_assoc,
    List.dropWhile_append_of_pos hfirst]
  change List.filterMap LcdAccess.shown (LcdAccess.command 0xC0 :: (_ ++ [_])) = _
  rw [List.filterMap_cons_none rfl, List.filterMap_append, shown_sendChars]
  exact List.append_nil _

theorem secondLine_of_ne_zero (m : Mem) (type s : ℕ) (h : val ≠ 0) :
    secondLine (writeLcd m type s val) = ascii (numeralText val) := by
  rw [secondLine_writeLcd, digitCount_eq h, Mem.bytes_eq_iff (length_ascii _)]
  intro k hk
  have hlt : k < (sprintfLu val).length := by
    rw [length_sprintfLu, ← length_ascii]
    exact Nat.lt_succ_of_lt hk
  rw [Mem.writeList_apply_add hlt, getElem!_pos (sprintfLu val) k hlt]
  exact List.getElem_append_left hk

/-- A number is shown if and only if it is not zero, whatever the memory is. -/
theorem showsNumber_iff (m : Mem) (type s : ℕ) (val : BitVec 32) :
    ShowsNumber m type s val ↔ val ≠ 0 := by
  constructor
  · rintro ⟨-, hcount⟩ rfl
    rw [digitCount_zero] at hcount
    exact absurd hcount (by decide)
  · intro h
    refine ⟨⟨numeralText val, ?_, secondLine_of_ne_zero m type s h⟩, digitCount_eq h⟩
    exact Decimal.isNumeral_toDigits val.toNat

/-- Nothing is shown for zero. -/
theorem secondLine_zero (m : Mem) (type s : ℕ) : secondLine (writeLcd m type s 0) = [] := by
  rw [secondLine_writeLcd, digitCount_zero]
  rfl

theorem showsNumber_zero : ¬ShowsNumber (fun _ => 0) 0 16 0 := by
  rintro ⟨⟨t, hnumeral, hshown⟩, -⟩
  rw [secondLine_zero, eq_comm, ascii, List.map_eq_nil_iff] at hshown
  exact hnumeral.ne_nil hshown

/-! ## The array -/

/-- The array has no room for the text and the null character. -/
theorem digitCount_lt (val : BitVec 32) : digitCount val < (sprintfLu val).length := by
  rw [length_sprintfLu, Nat.lt_succ_iff]
  by_cases h : val = 0
  · rw [h, digitCount_zero]
    exact Nat.zero_le _
  · exact (digitCount_eq h).le

/-- The array is too small for every number, and storing the text into it fails. -/
theorem sprintf_overruns (val : BitVec 32) :
    ¬TextFits val ∧ ∀ s : Vector Byte (digitCount val), storeBytes s 0 (sprintfLu val) = none := by
  have hlt := digitCount_lt val
  constructor
  · intro h
    exact absurd (h _ hlt) (lt_irrefl _)
  · intro s
    rw [storeBytes_eq_none_iff, Nat.zero_add]
    exact ⟨hlt, List.ne_nil_of_length_pos (Nat.zero_lt_of_lt hlt)⟩

theorem textFits_seven : ¬TextFits 7 := by
  intro h
  have hcount : digitCount 7 = 1 := digitCount_eq (by decide)
  have hindex := h 1 (by decide)
  rw [hcount] at hindex
  exact absurd hindex (lt_irrefl 1)

end EmbeddedSystems.Aes
