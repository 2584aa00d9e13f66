import EmbeddedSystems.Library.CString

/-!
# The string cipher

The function `main` of Lesson 2 encrypts two strings in place, by adding 10 to
each character, and decrypts them by subtracting it. The loops stop at the null
character, and at the index 100.

The character 246 becomes null when it is encrypted, and the decryption stops
there. A string without it among its first 100 characters is restored, and no
other (`restored_iff`). The two strings of the source are (`mainLoops_strText`).
-/

namespace EmbeddedSystems.Nios2leds

namespace StringCipher

open CString

/-- `for (j = 0; (j < 100 && str[j] != '\0'); j++) str[j] = str[j] + 10;`. -/
def encrypt (m : Mem) (str : ℕ) : Mem := forString 100 (fun c => c + 10) m str

/-- `for (j = 0; (j < 100 && str[j] != '\0'); j++) str[j] = str[j] - 10;`. -/
def decrypt (m : Mem) (str : ℕ) : Mem := forString 100 (fun c => c - 10) m str

/-- The variable `str` of `main`. -/
def strText : String :=
  "Yo listen up, here's the story About a little guy that lives in a blue world And all day "

/-- The variable `str2` of `main`. -/
def str2Text : String :=
  "and all night and everything he sees is just blue Like him, inside and outside"

/-- The loops of `main`, for the addresses of its two strings. -/
def mainLoops (m : Mem) (str str2 : ℕ) : Mem :=
  let m := encrypt m str
  let m := encrypt m str2
  let m := decrypt m str
  decrypt m str2

/-- What the decryption leaves in the buffer of the string `s`, at the address `str`, is what was
    there before the encryption. -/
def Restored (m : Mem) (str : ℕ) (s : CString) : Prop :=
  (decrypt (encrypt (m.writeList str s.toList) str) str).bytes str s.toList.length = s.toList

/-! ## One string -/

/-- The bytes of the string after the encryption. -/
def encrypted (s : CString) : List Byte := transform (fun c => c + 10) 100 s.toList

/-- The bytes of the string after the encryption and the decryption. -/
def decrypted (s : CString) : List Byte := transform (fun c => c - 10) 100 (encrypted s)

theorem length_encrypted (s : CString) : (encrypted s).length = s.toList.length :=
  length_transform 100 s.toList

theorem length_decrypted (s : CString) : (decrypted s).length = s.toList.length :=
  (length_transform 100 (encrypted s)).trans (length_encrypted s)

theorem encrypt_writeList (m : Mem) (str : ℕ) (s : CString) :
    encrypt (m.writeList str s.toList) str = m.writeList str (encrypted s) :=
  forString_writeList 100 _ m str s.zero_mem_toList

theorem decrypt_writeList (m : Mem) (str : ℕ) (s : CString) :
    decrypt (m.writeList str (encrypted s)) str = m.writeList str (decrypted s) :=
  forString_writeList 100 _ m str (zero_mem_transform s.zero_mem_toList)

theorem add_ten_ne_zero_iff (b : Byte) : b + 10 ≠ 0 ↔ b ≠ 246 := by
  rw [ne_eq, ne_eq, ← BitVec.eq_sub_iff_add_eq]
  rfl

theorem decrypted_eq_iff (s : CString) :
    decrypted s = s.toList ↔ ∀ b ∈ s.chars.take 100, b ≠ 246 := by
  rw [decrypted, encrypted, transform_transform_iff (fun b => BitVec.add_sub_cancel b 10),
    takeWhile_toList]
  simp only [add_ten_ne_zero_iff]

/-- A string is restored if and only if the character 246 is not among its first 100. -/
theorem restored_iff (m : Mem) (str : ℕ) (s : CString) :
    Restored m str s ↔ ∀ b ∈ s.chars.take 100, b ≠ 246 := by
  rw [Restored, encrypt_writeList, decrypt_writeList, ← length_decrypted, Mem.bytes_writeList,
    decrypted_eq_iff]

/-- The string of the one character 246. -/
def oUmlaut : CString := ⟨[246], by simp⟩

theorem not_restored_oUmlaut : ¬Restored (fun _ => 0) 0 oUmlaut := by
  intro h
  rw [Restored, encrypt_writeList, decrypt_writeList, ← length_decrypted, Mem.bytes_writeList] at h
  exact absurd h (by decide)

/-! ## The two strings -/

theorem decrypted_ofAscii {t : String} (h : isAscii t = true) :
    decrypted (ofAscii t h) = (ofAscii t h).toList := by
  rw [decrypted_eq_iff]
  rintro _ hb rfl
  exact absurd (toNat_of_mem_ascii h (List.mem_of_mem_take hb)).2 (by decide)

/-- The loops over two strings at different places do not disturb each other. -/
theorem mainLoops_writeList (m : Mem) {str str2 : ℕ} {s s2 : CString}
    (h : str + s.toList.length ≤ str2 ∨ str2 + s2.toList.length ≤ str) :
    mainLoops ((m.writeList str s.toList).writeList str2 s2.toList) str str2 =
      (m.writeList str (decrypted s)).writeList str2 (decrypted s2) := by
  have hcomm : ∀ l l2 : List Byte, l.length = s.toList.length → l2.length = s2.toList.length →
      (m.writeList str l).writeList str2 l2 = (m.writeList str2 l2).writeList str l := by
    intro l l2 hl hl2
    exact Mem.writeList_comm (by rwa [hl, hl2])
  have hs := length_encrypted s
  have hs2 := length_encrypted s2
  rw [mainLoops]
  rw [hcomm _ _ rfl rfl, encrypt_writeList, ← hcomm _ _ hs rfl, encrypt_writeList,
    hcomm _ _ hs hs2, decrypt_writeList, ← hcomm _ _ (length_decrypted s) hs2, decrypt_writeList]

theorem isAscii_strText : isAscii strText = true := by decide

theorem isAscii_str2Text : isAscii str2Text = true := by decide

/-- The two strings of `main` are restored, wherever they lie. -/
theorem mainLoops_strText (m : Mem) {str str2 : ℕ} (h : str + 90 ≤ str2 ∨ str2 + 79 ≤ str) :
    let strings := (m.writeList str (ofAscii strText isAscii_strText).toList).writeList str2
      (ofAscii str2Text isAscii_str2Text).toList
    mainLoops strings str str2 = strings := by
  intro strings
  rw [mainLoops_writeList m h, decrypted_ofAscii, decrypted_ofAscii]

end StringCipher

end EmbeddedSystems.Nios2leds
