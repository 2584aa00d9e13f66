import Mathlib

/-!
# Decimal numerals of C

The conversion of an integer to a string of decimal digits, as `sprintf` does it
for `%d` and its kin (`format`), and back, as `atoi` does it (`atoi`). Where the
number fits the type, the second undoes the first (`atoi_format`). The digits of
a natural number are its one numeral without leading zeros (`isNumeral_iff`).
-/

namespace EmbeddedSystems.Decimal

/-- The conversions `%d`, `%ld` and `%lld` of `sprintf`. -/
def format : ℤ → List Char
  | .ofNat n => Nat.toDigits 10 n
  | .negSucc n => '-' :: Nat.toDigits 10 (n + 1)

/-- `isspace`. -/
def isSpace (c : Char) : Bool := c.toNat = 32 || (9 ≤ c.toNat && c.toNat ≤ 13)

/-- The number that a string starts with, which is zero if it starts with no digit. -/
def parseNat (s : List Char) : ℕ := Nat.ofDigitChars 10 (s.takeWhile Char.isDigit) 0

/-- The integer that a string starts with, after white space. -/
def parse (s : List Char) : ℤ :=
  match s.dropWhile isSpace with
  | '-' :: s => -parseNat s
  | '+' :: s => parseNat s
  | s => parseNat s

/-- `atoi`, for an `int` of `w` bits. The behaviour is undefined where the number does not fit. -/
def atoi (w : ℕ) (s : List Char) : Option (BitVec w) :=
  if -2 ^ (w - 1) ≤ parse s ∧ parse s < 2 ^ (w - 1) then some (BitVec.ofInt w (parse s)) else none

theorem parseNat_toDigits (n : ℕ) : parseNat (Nat.toDigits 10 n) = n := by
  have hdigits : ∀ c ∈ Nat.toDigits 10 n, c.isDigit = true := fun c hc =>
    Nat.isDigit_of_mem_toDigits (by decide) le_rfl hc
  rw [parseNat, List.takeWhile_eq_self_iff.2 hdigits, Nat.ofDigitChars_ten_toDigits]

theorem toNat_of_isDigit {c : Char} (h : c.isDigit = true) : 48 ≤ c.toNat ∧ c.toNat ≤ 57 := by
  simp only [Char.isDigit, Bool.and_eq_true, decide_eq_true_eq] at h
  exact h

theorem isSpace_of_isDigit {c : Char} (h : c.isDigit = true) : isSpace c = false := by
  have hc := toNat_of_isDigit h
  simp only [isSpace, Bool.or_eq_false_iff, Bool.and_eq_false_iff, decide_eq_false_iff_not]
  omega

theorem parse_of_isDigit {c : Char} (h : c.isDigit = true) (s : List Char) :
    parse (c :: s) = parseNat (c :: s) := by
  have hspace := isSpace_of_isDigit h
  rw [parse, List.dropWhile_cons_of_neg (by simp [hspace])]
  split
  · rename_i heq
    obtain ⟨rfl, -⟩ := List.cons.inj heq
    exact absurd h (by decide)
  · rename_i heq
    obtain ⟨rfl, -⟩ := List.cons.inj heq
    exact absurd h (by decide)
  · rfl

theorem parse_format (i : ℤ) : parse (format i) = i := by
  cases i with
  | ofNat n =>
    obtain ⟨c, s, hs⟩ := List.exists_cons_of_ne_nil (Nat.toDigits_ne_nil (n := n) (b := 10))
    have hc : c.isDigit = true :=
      Nat.isDigit_of_mem_toDigits (n := n) (by decide) le_rfl (hs ▸ List.mem_cons_self)
    rw [format, hs, parse_of_isDigit hc, ← hs, parseNat_toDigits]
    rfl
  | negSucc n =>
    have hspace : isSpace '-' = false := by decide
    rw [format, parse, List.dropWhile_cons_of_neg (by simp [hspace])]
    change -(parseNat (Nat.toDigits 10 (n + 1)) : ℤ) = Int.negSucc n
    rw [parseNat_toDigits]
    rfl

/-- Reading a number back from its decimal digits. -/
theorem atoi_format {w : ℕ} {i : ℤ} (h₁ : -2 ^ (w - 1) ≤ i) (h₂ : i < 2 ^ (w - 1)) :
    atoi w (format i) = some (BitVec.ofInt w i) := by
  rw [atoi, parse_format, if_pos ⟨h₁, h₂⟩]

/-! ## Canonical numerals -/

/-- The canonical decimal numeral of `n`: the most significant digit comes first, and there are
    no leading zeros. -/
structure IsNumeral (n : ℕ) (s : List Char) : Prop where
  ne_nil : s ≠ []
  isDigit : ∀ c ∈ s, c.isDigit = true
  value : Nat.ofDigitChars 10 s 0 = n
  noLeadingZero : s.head? = some '0' → s = ['0']

theorem ofDigitChars_concat (s : List Char) (c : Char) :
    Nat.ofDigitChars 10 (s ++ [c]) 0 = 10 * Nat.ofDigitChars 10 s 0 + (c.toNat - 48) := by
  rw [Nat.ofDigitChars_append]
  rfl

theorem digitChar_toNat {c : Char} (h : c.isDigit = true) :
    c.toNat - 48 < 10 ∧ (c.toNat - 48).digitChar = c := by
  have hc := toNat_of_isDigit h
  have hlt : c.toNat - 48 < 10 := by omega
  refine ⟨hlt, Char.toNat_inj.1 ?_⟩
  rw [Nat.toNat_digitChar_of_lt_ten hlt, Nat.add_sub_cancel' hc.1]

theorem noLeadingZero_toDigits (n : ℕ) (h : (Nat.toDigits 10 n).head? = some '0') : n = 0 := by
  induction n using Nat.strong_induction_on with
  | _ n ih =>
    rcases Nat.lt_or_ge n 10 with hlt | hge
    · rw [Nat.toDigits_of_lt_base hlt, List.head?_cons, Option.some.injEq] at h
      exact Nat.digitChar_eq_zero.1 h
    · rw [Nat.toDigits_of_base_le (by decide) hge,
        List.head?_append_of_ne_nil _ Nat.toDigits_ne_nil] at h
      have hdiv := ih (n / 10) (by omega) h
      omega

theorem isNumeral_toDigits (n : ℕ) : IsNumeral n (Nat.toDigits 10 n) where
  ne_nil := Nat.toDigits_ne_nil
  isDigit c hc := Nat.isDigit_of_mem_toDigits (by decide) le_rfl hc
  value := Nat.ofDigitChars_ten_toDigits
  noLeadingZero h := by
    rw [noLeadingZero_toDigits n h, Nat.toDigits_zero]

theorem IsNumeral.eq_toDigits {n : ℕ} {s : List Char} (h : IsNumeral n s) :
    s = Nat.toDigits 10 n := by
  obtain ⟨hne, hdigit, rfl, hzero⟩ := h
  induction s using List.reverseRecOn with
  | nil => exact absurd rfl hne
  | append_singleton s c ih =>
    obtain ⟨hlt, hc⟩ := digitChar_toNat (hdigit c (by simp))
    rw [ofDigitChars_concat]
    by_cases hs : s = []
    · subst hs
      rw [Nat.ofDigitChars_nil, Nat.mul_zero, Nat.zero_add, Nat.toDigits_of_lt_base hlt, hc,
        List.nil_append]
    · -- the digits before the last do not start with a zero, so that their value is not zero
      have hhead : s.head? ≠ some '0' := by
        intro h
        have hlen := congrArg List.length
          (hzero (by rw [List.head?_append_of_ne_nil _ hs]; exact h))
        rw [List.length_append] at hlen
        exact hs (List.length_eq_zero_iff.1 (Nat.succ.inj hlen))
      have hdigits := ih hs (fun d hd => hdigit d (List.mem_append_left _ hd))
        (fun h => absurd h hhead)
      have hpos : 0 < Nat.ofDigitChars 10 s 0 := by
        refine Nat.pos_of_ne_zero fun h => hhead ?_
        rw [hdigits, h, Nat.toDigits_zero]
        rfl
      generalize Nat.ofDigitChars 10 s 0 = v at hdigits hpos
      have hdiv : (10 * v + (c.toNat - 48)) / 10 = v := by omega
      have hmod : (10 * v + (c.toNat - 48)) % 10 = c.toNat - 48 := by omega
      rw [Nat.toDigits_of_base_le (by decide) (by omega), hdiv, hmod, hc, ← hdigits]

/-- A number has one canonical numeral. -/
theorem isNumeral_iff {n : ℕ} {s : List Char} : IsNumeral n s ↔ s = Nat.toDigits 10 n := by
  constructor
  · exact IsNumeral.eq_toDigits
  · rintro rfl
    exact isNumeral_toDigits n

end EmbeddedSystems.Decimal
