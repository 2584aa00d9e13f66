import EmbeddedSystems.Library.Decimal
import EmbeddedSystems.Aes.Conformance
import EmbeddedSystems.Aes.Inverse

/-!
# The demonstration program

The main loop of `main.c`: it reads the switches, encrypts the reading in place
in the array `plain_text`, decrypts it, and clears the array, showing a number
on the display at each stage. The invariant of the loop is that the array is
clear (`Cleared`); every iteration shows the reading first and last
(`main_loop_shows_reading`).

The program is built for `AES128`, with words in little-endian layout. The
contexts of the two test functions are local variables, which nothing
initialises.
-/

namespace EmbeddedSystems.Aes

open Loop

/-- The array `key` of `test_encrypt_ecb_verbose`. -/
def encryptVerboseKey : Vector Byte Build.aes128.keyLen :=
  #v[0x2b, 0x7e, 0x15, 0x16, 0x28, 0xae, 0xd2, 0xa6,
    0xab, 0xf7, 0x15, 0x88, 0x09, 0xcf, 0x4f, 0x3c]

/-- The array `key` of `test_decrypt_ecb_verbose`. -/
def decryptVerboseKey : Vector Byte Build.aes128.keyLen :=
  #v[0x2b, 0x7e, 0x15, 0x16, 0x28, 0xae, 0xd2, 0xa6,
    0xab, 0xf7, 0x15, 0x88, 0x09, 0xcf, 0x4f, 0x3c]

section

/- The address of the array `plain_text`. -/
variable (plainText : ℕ)

/-- `test_encrypt_ecb_verbose`, with what its local `ctx` holds at first. -/
def testEncryptEcbVerbose (ctx : AesCtx .aes128) (m : Mem) : Mem :=
  aesEcbEncrypt (aesInitCtx ctx encryptVerboseKey) m plainText

/-- `test_decrypt_ecb_verbose`, with what its local `ctx` holds at first. -/
def testDecryptEcbVerbose (ctx : AesCtx .aes128) (m : Mem) : Mem :=
  aesEcbDecrypt (aesInitCtx ctx decryptVerboseKey) m plainText

/-- `hex2str`: `none` where the string does not fit its array, or the number an `int`. -/
def hex2str (m : Mem) : Option (BitVec 32) :=
  let theVal : ℤ := (m.load32 plainText).toNat
  let s := Decimal.format theVal
  -- `char s[16]` holds the digits and a null character
  if s.length < 16 then Decimal.atoi 32 s else none

/-- A call of `write_lcd`. -/
structure LcdWrite where
  type : String
  val : BitVec 32

/-- What an iteration reads: the switches, and what the stack holds where the local contexts
    of the two test functions are. -/
structure Reading where
  switches : BitVec 18
  encryptCtx : AesCtx .aes128
  decryptCtx : AesCtx .aes128

/-- `count`: the data register of the switches, whose other bits are zero. -/
def Reading.count (r : Reading) : BitVec 32 := r.switches.setWidth 32

/-- The memory at each stage of an iteration, and the calls of `write_lcd`. -/
structure Iteration where
  /-- Before the encryption. -/
  loaded : Mem
  /-- After `test_encrypt_ecb_verbose`. -/
  encrypted : Mem
  /-- After `test_decrypt_ecb_verbose`. -/
  decrypted : Mem
  /-- At the end of the iteration. -/
  cleared : Mem
  lcd : List LcdWrite

/-- The loop that clears `plain_text`. -/
def clearPlainText (m : Mem) : Mem := forUp 0 64 (fun i m => m.store32 (plainText + 4 * i) 0) m

/-- An iteration of the main loop. -/
def iteration (r : Reading) (m : Mem) : Option Iteration := do
  let count := r.count
  let loaded := m.store32 plainText count
  let encrypted := testEncryptEcbVerbose plainText r.encryptCtx loaded
  let decrypted := testDecryptEcbVerbose plainText r.decryptCtx encrypted
  let number ← hex2str plainText decrypted
  return {
    loaded := loaded
    encrypted := encrypted
    decrypted := decrypted
    cleared := clearPlainText plainText decrypted
    lcd := [⟨"encrypting", count⟩, ⟨"encrypted", encrypted.load32 plainText⟩,
      ⟨"decrypted", number⟩] }

/-- The memory when the program starts: the array is a global variable, without initialiser. -/
def initialMemory (m : Mem) : Mem := m.fill plainText 256 fun _ => 0

/-- The memory after the iterations with the given readings. -/
def mainLoop (readings : List Reading) (m : Mem) : Option Mem :=
  readings.foldlM (fun m r => (iteration plainText r m).map Iteration.cleared) m

/-- `plain_text[i]`. -/
def plainTextWord (m : Mem) (i : ℕ) : BitVec 32 := m.load32 (plainText + 4 * i)

/-- All 64 words of `plain_text` are zero. -/
def Cleared (m : Mem) : Prop := ∀ i < 64, plainTextWord plainText m i = 0

end

variable {plainText : ℕ} {m : Mem}

theorem load32_zero {a : ℕ} (h : ∀ i < 4, m (a + i) = 0) : m.load32 a = 0 := by
  have h₀ : m a = 0 := h 0 (by decide)
  rw [Mem.load32, h 3 (by decide), h 2 (by decide), h 1 (by decide), h₀]
  rfl

theorem cleared_initialMemory (m : Mem) : Cleared plainText (initialMemory plainText m) := by
  intro i hi
  refine load32_zero fun k hk => ?_
  rw [Nat.add_assoc]
  exact Mem.fill_apply_add _ (by omega)

theorem plainTextWord_store32_of_ne {i k : ℕ} (h : i ≠ k) (w : BitVec 32) :
    plainTextWord plainText (m.store32 (plainText + 4 * i) w) k = plainTextWord plainText m k :=
  Mem.load32_write_of_disjoint (by omega)

theorem cleared_clearPlainText (m : Mem) : Cleared plainText (clearPlainText plainText m) := by
  refine forUp_induction (fun i m => ∀ k < i, plainTextWord plainText m k = 0) (Nat.zero_le 64)
    (fun k hk => absurd hk (Nat.not_lt_zero k)) fun i m _ _ h k hk => ?_
  rcases Nat.lt_succ_iff_lt_or_eq.1 hk with hlt | rfl
  · rw [plainTextWord_store32_of_ne hlt.ne', h k hlt]
  · exact Mem.load32_store32_self _ _ _

/-- The two keys agree, so that the decryption restores the memory. -/
theorem testDecrypt_testEncrypt (encryptCtx decryptCtx : AesCtx .aes128) (m : Mem) :
    testDecryptEcbVerbose plainText decryptCtx (testEncryptEcbVerbose plainText encryptCtx m) =
      m := by
  have hkey : decryptVerboseKey = encryptVerboseKey := rfl
  rw [testDecryptEcbVerbose, testEncryptEcbVerbose, aesInitCtx, aesInitCtx, aesEcbDecrypt,
    aesEcbEncrypt, hkey, keyExpansion_eq decryptCtx.roundKey encryptCtx.roundKey,
    Mem.load_write_self, invCipher_cipher, Mem.write_write_self, Mem.write_load]

theorem length_format_lt {n : ℕ} (hn : n < 10 ^ 15) : (Decimal.format n).length < 16 := by
  have hlen :=
    (Nat.length_toDigits_le_iff (b := 10) (n := n) (k := 15) (by decide) (by decide)).2 hn
  exact Nat.lt_succ_of_le hlen

/-- A number below `2 ^ 31` is read back from its digits. -/
theorem hex2str_eq (h : (m.load32 plainText).toNat < 2 ^ 31) :
    hex2str plainText m = some (m.load32 plainText) := by
  have hfit : (Decimal.format (m.load32 plainText).toNat).length < 16 :=
    length_format_lt (h.trans (by decide))
  rw [hex2str]
  simp only [hfit, if_true]
  rw [Decimal.atoi_format (by omega) (by omega)]
  exact congrArg some (BitVec.eq_of_toNat_eq (by simp))

theorem toNat_count_lt (r : Reading) : r.count.toNat < 2 ^ 18 := by
  rw [Reading.count, BitVec.toNat_setWidth]
  exact (Nat.mod_le _ _).trans_lt r.switches.isLt

/-- An iteration returns, with the array as it was before the encryption once it is decrypted. -/
theorem iteration_eq (r : Reading) (m : Mem) :
    iteration plainText r m = some
      { loaded := m.store32 plainText r.count
        encrypted := testEncryptEcbVerbose plainText r.encryptCtx (m.store32 plainText r.count)
        decrypted := m.store32 plainText r.count
        cleared := clearPlainText plainText (m.store32 plainText r.count)
        lcd := [⟨"encrypting", r.count⟩,
          ⟨"encrypted", (testEncryptEcbVerbose plainText r.encryptCtx
            (m.store32 plainText r.count)).load32 plainText⟩,
          ⟨"decrypted", r.count⟩] } := by
  have hload : (m.store32 plainText r.count).load32 plainText = r.count :=
    Mem.load32_store32_self _ _ _
  have hnumber : hex2str plainText (m.store32 plainText r.count) = some r.count := by
    rw [hex2str_eq (by rw [hload]; exact (toNat_count_lt r).trans (by decide)), hload]
  rw [iteration]
  simp only [testDecrypt_testEncrypt, hnumber, Option.bind_eq_bind, Option.bind_some]
  rfl

theorem mainLoop_spec (readings : List Reading) (h : Cleared plainText m) :
    ∃ m', mainLoop plainText readings m = some m' ∧ Cleared plainText m' := by
  induction readings generalizing m with
  | nil => exact ⟨m, rfl, h⟩
  | cons r readings ih =>
    obtain ⟨m', hrun, hcleared⟩ := ih (cleared_clearPlainText (m.store32 plainText r.count))
    refine ⟨m', ?_, hcleared⟩
    rw [mainLoop, List.foldlM_cons, iteration_eq]
    exact hrun

theorem mainLoop_append (readings : List Reading) (r : Reading) (m : Mem) :
    mainLoop plainText (readings ++ [r]) m = (mainLoop plainText readings m).bind fun m =>
      (iteration plainText r m).map Iteration.cleared := by
  rw [mainLoop, List.foldlM_append]
  simp only [List.foldlM_cons, List.foldlM_nil, bind_pure]
  rfl

/-- The main loop, for every sequence of readings and every next one. The array is clear when
    the iteration starts, and when it ends, which leaves the memory to the next one. Once the reading is stored, the array is the reading followed by
    zeros; the encryption does not alter the words from 4 on; and after the decryption the
    array is what it was before the encryption, so that the display shows the reading both
    before the encryption and after the decryption, with the low word of the ciphertext in
    between. -/
theorem main_loop_shows_reading (plainText : ℕ) (m₀ : Mem) (readings : List Reading)
    (r : Reading) :
    ∃ m it, mainLoop plainText readings (initialMemory plainText m₀) = some m ∧
      Cleared plainText m ∧ iteration plainText r m = some it ∧
      mainLoop plainText (readings ++ [r]) (initialMemory plainText m₀) = some it.cleared ∧
      Cleared plainText it.cleared ∧
      it.encrypted = testEncryptEcbVerbose plainText r.encryptCtx it.loaded ∧
      it.decrypted = testDecryptEcbVerbose plainText r.decryptCtx it.encrypted ∧
      plainTextWord plainText it.loaded 0 = r.count ∧
      (∀ i, 1 ≤ i → i < 64 → plainTextWord plainText it.loaded i = 0) ∧
      (∀ i, 4 ≤ i → i < 64 → plainTextWord plainText it.encrypted i = 0) ∧
      (∀ i < 64, plainTextWord plainText it.decrypted i = plainTextWord plainText it.loaded i) ∧
      it.lcd = [⟨"encrypting", r.count⟩, ⟨"encrypted", plainTextWord plainText it.encrypted 0⟩,
        ⟨"decrypted", r.count⟩] := by
  obtain ⟨m, hrun, hcleared⟩ := mainLoop_spec readings (cleared_initialMemory m₀)
  have hloaded : ∀ i, 1 ≤ i → i < 64 →
      plainTextWord plainText (m.store32 plainText r.count) i = 0 := by
    intro i h₁ h₂
    rw [← hcleared i h₂]
    exact plainTextWord_store32_of_ne (i := 0) (by omega) r.count
  have hnext : mainLoop plainText (readings ++ [r]) (initialMemory plainText m₀) =
      some (clearPlainText plainText (m.store32 plainText r.count)) := by
    rw [mainLoop_append, hrun, Option.bind_some, iteration_eq]
    rfl
  refine ⟨m, _, hrun, hcleared, iteration_eq r m, hnext, cleared_clearPlainText _, rfl,
    (testDecrypt_testEncrypt _ _ _).symm, Mem.load32_store32_self _ _ _, hloaded,
    fun i h₁ h₂ => ?_, fun _ _ => rfl, rfl⟩
  rw [← hloaded i (by omega) h₂]
  exact Mem.load32_write_of_disjoint (by omega)

end EmbeddedSystems.Aes
