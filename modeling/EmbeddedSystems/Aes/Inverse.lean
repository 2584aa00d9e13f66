import EmbeddedSystems.Aes.Field

/-!
# The inverse cipher

Every step of a round has its inverse, so that `invCipher` undoes `cipher` and
`cipher` undoes `invCipher`, whatever the array of round keys holds: the two are
a permutation of the blocks and its inverse (`cipherPerm`).

The loops do not mirror each other: an iteration of `invCipher` starts with the
inverses of the first two steps of a round, and ends with those of the last two
steps of the round before. Moving the former to the end of the iteration before
(`Loop.forDown_rotate`) makes them mirror each other.
-/

namespace EmbeddedSystems.Aes

open Fips197 Loop
open Matrix hiding inv_zero

/-! ## The steps -/

theorem addRoundKey_addRoundKey {n : ℕ} (round : ℕ) (s : State) (roundKey : Vector Byte n) :
    addRoundKey round (addRoundKey round s roundKey) roundKey = s := by
  refine State.ext fun i j => ?_
  rw [addRoundKey_cell, addRoundKey_cell, BitVec.xor_assoc, BitVec.xor_self, BitVec.xor_zero]

theorem invSubBytes_subBytes (s : State) : invSubBytes (subBytes s) = s := by
  refine State.ext fun i j => ?_
  rw [invSubBytes, subCells_cell, subBytes, subCells_cell, getSBoxInvert_getSBoxValue]

theorem subBytes_invSubBytes (s : State) : subBytes (invSubBytes s) = s := by
  refine State.ext fun i j => ?_
  rw [subBytes, subCells_cell, invSubBytes, subCells_cell, getSBoxValue_getSBoxInvert]

theorem invShiftRows_shiftRows (s : State) : invShiftRows (shiftRows s) = s := by
  refine State.ext fun i j => ?_
  rw [invShiftRows_cell, shiftRows_cell, sub_add_cancel]

theorem shiftRows_invShiftRows (s : State) : shiftRows (invShiftRows s) = s := by
  refine State.ext fun i j => ?_
  rw [shiftRows_cell, invShiftRows_cell, add_sub_cancel_right]

theorem invMixColumns_mixColumns (s : State) : invMixColumns (mixColumns s) = s := by
  have hcol : ∀ i, (invMixColumns (mixColumns s)).col i = s.col i := by
    intro i
    rw [invMixColumns_col, mixColumns_col, invMixCol_mixCol]
  exact State.ext fun i => congrFun (hcol i)

theorem mixColumns_invMixColumns (s : State) : mixColumns (invMixColumns s) = s := by
  have hcol : ∀ i, (mixColumns (invMixColumns s)).col i = s.col i := by
    intro i
    rw [mixColumns_col, invMixColumns_col, mixCol_invMixCol]
  exact State.ext fun i => congrFun (hcol i)

/-- For every state, `MixColumns` multiplies each column by the circulant matrix of the first row
    `{02} {03} {01} {01}` over the field, `InvMixColumns` by that of `{0e} {0b} {0d} {09}`, and so
    each undoes the other. -/
theorem mixColumns_circulant (s : State) :
    (∀ i, byteEquiv ∘ (mixColumns s).col i =
      mixMatrix.map byteEquiv *ᵥ (byteEquiv ∘ s.col i)) ∧
    (∀ i, byteEquiv ∘ (invMixColumns s).col i =
      invMixMatrix.map byteEquiv *ᵥ (byteEquiv ∘ s.col i)) ∧
    invMixColumns (mixColumns s) = s ∧ mixColumns (invMixColumns s) = s := by
  refine ⟨fun i => ?_, fun i => ?_, invMixColumns_mixColumns s, mixColumns_invMixColumns s⟩
  · rw [mixColumns_col, map_mixMatrix]
    exact funext (byteEquiv_mixCol (s.col i))
  · rw [invMixColumns_col, map_invMixMatrix]
    exact funext (byteEquiv_invMixCol (s.col i))

/-! ## The rounds -/

variable {v : Build}

/-- A round, as an iteration of `cipher` runs it. -/
abbrev roundStep (roundKey : Vector Byte v.keyExpSize) (round : ℕ) (s : State) : State :=
  addRoundKey round (mixColumns (shiftRows (subBytes s))) roundKey

/-- A round undone, as an iteration of `invCipher_eq` runs it. -/
abbrev invRoundStep (roundKey : Vector Byte v.keyExpSize) (round : ℕ) (s : State) : State :=
  invSubBytes (invShiftRows (invMixColumns (addRoundKey round s roundKey)))

theorem invRoundStep_roundStep (roundKey : Vector Byte v.keyExpSize) (round : ℕ) (s : State) :
    invRoundStep roundKey round (roundStep roundKey round s) = s := by
  rw [invRoundStep, roundStep, addRoundKey_addRoundKey, invMixColumns_mixColumns,
    invShiftRows_shiftRows, invSubBytes_subBytes]

theorem roundStep_invRoundStep (roundKey : Vector Byte v.keyExpSize) (round : ℕ) (s : State) :
    roundStep roundKey round (invRoundStep roundKey round s) = s := by
  rw [roundStep, invRoundStep, subBytes_invSubBytes, shiftRows_invShiftRows,
    mixColumns_invMixColumns, addRoundKey_addRoundKey]

theorem cipher_eq (s : State) (roundKey : Vector Byte v.keyExpSize) :
    cipher s roundKey = addRoundKey v.nr (shiftRows (subBytes
      (forUp 1 (v.nr - 1 + 1) (roundStep roundKey) (addRoundKey 0 s roundKey)))) roundKey := by
  rw [Nat.sub_add_cancel v.nr_pos, cipher]

/-- `invCipher` with the start of each iteration moved to the end of the one before. -/
theorem invCipher_eq (s : State) (roundKey : Vector Byte v.keyExpSize) :
    invCipher s roundKey = addRoundKey 0 (forDown (v.nr - 1) (invRoundStep roundKey)
      (invSubBytes (invShiftRows (addRoundKey v.nr s roundKey)))) roundKey := by
  rw [invCipher, forDown_rotate (fun s => invSubBytes (invShiftRows s))
    (fun round s => invMixColumns (addRoundKey round s roundKey))]

theorem invCipher_cipher (s : State) (roundKey : Vector Byte v.keyExpSize) :
    invCipher (cipher s roundKey) roundKey = s := by
  rw [invCipher_eq, cipher_eq, addRoundKey_addRoundKey, invShiftRows_shiftRows,
    invSubBytes_subBytes, forDown_forUp (invRoundStep_roundStep roundKey),
    addRoundKey_addRoundKey]

theorem cipher_invCipher (s : State) (roundKey : Vector Byte v.keyExpSize) :
    cipher (invCipher s roundKey) roundKey = s := by
  rw [invCipher_eq, cipher_eq, addRoundKey_addRoundKey,
    forUp_forDown (roundStep_invRoundStep roundKey), subBytes_invSubBytes, shiftRows_invShiftRows,
    addRoundKey_addRoundKey]

/-- The cipher as a permutation of the blocks, `invCipher` being its inverse. -/
def cipherPerm (roundKey : Vector Byte v.keyExpSize) : Equiv.Perm (Vector Byte 16) where
  toFun s := cipher s roundKey
  invFun s := invCipher s roundKey
  left_inv s := invCipher_cipher s roundKey
  right_inv s := cipher_invCipher s roundKey

/-! ## The calls in place -/

theorem aesEcbDecrypt_aesEcbEncrypt (ctx : AesCtx v) (m : Mem) (buf : ℕ) :
    aesEcbDecrypt ctx (aesEcbEncrypt ctx m buf) buf = m := by
  rw [aesEcbDecrypt, aesEcbEncrypt, Mem.load_write_self, invCipher_cipher, Mem.write_write_self,
    Mem.write_load]

theorem aesEcbEncrypt_aesEcbDecrypt (ctx : AesCtx v) (m : Mem) (buf : ℕ) :
    aesEcbEncrypt ctx (aesEcbDecrypt ctx m buf) buf = m := by
  rw [aesEcbEncrypt, aesEcbDecrypt, Mem.load_write_self, cipher_invCipher, Mem.write_write_self,
    Mem.write_load]

/-- For every round count and every content of the array of round keys, `invCipher`
    is a two-sided inverse of `cipher`; so the calls of the ECB interface run a
    permutation of the blocks and its inverse, and undo each other in memory. -/
theorem invCipher_two_sided_inverse (v : Build) :
    (∀ (roundKey : Vector Byte v.keyExpSize) (s : State),
      invCipher (cipher s roundKey) roundKey = s ∧ cipher (invCipher s roundKey) roundKey = s) ∧
    ∀ ctx : AesCtx v, ∃ π : Equiv.Perm (Vector Byte 16), ∀ (m : Mem) (buf : ℕ),
      (aesEcbEncrypt ctx m buf).load buf 16 = π (m.load buf 16) ∧
      (aesEcbDecrypt ctx m buf).load buf 16 = π.symm (m.load buf 16) ∧
      aesEcbDecrypt ctx (aesEcbEncrypt ctx m buf) buf = m ∧
      aesEcbEncrypt ctx (aesEcbDecrypt ctx m buf) buf = m := by
  refine ⟨fun roundKey s => ⟨invCipher_cipher s roundKey, cipher_invCipher s roundKey⟩,
    fun ctx => ⟨cipherPerm ctx.roundKey, fun m buf => ⟨?_, ?_, ?_, ?_⟩⟩⟩
  · exact Mem.load_write_self _ _
  · exact Mem.load_write_self _ _
  · exact aesEcbDecrypt_aesEcbEncrypt ctx m buf
  · exact aesEcbEncrypt_aesEcbDecrypt ctx m buf

end EmbeddedSystems.Aes
