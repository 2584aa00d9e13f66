import EmbeddedSystems.Aes.Field

/-!
# Conformance to FIPS-197

The program computes the cipher of the specification (`aesEcbEncrypt_conforms`).

The array of round keys holds the key schedule: after `i` words, the words below
`i` are those of the recurrence (`keyExpansion_word`), whatever the array held
before. The state of the program is the transpose of the state of the
specification (`rowCol`), and under it every step of a round is the step of the
specification, and so is the cipher (`rowCol_cipher`).
-/

namespace EmbeddedSystems.Aes

open Loop Fips197

/-! ## Words of an array -/

/-- The word `i` of an array of bytes. -/
def word {n : ℕ} (a : Vector Byte n) (i : ℕ) : Word := fun j => a[i * 4 + j]!

theorem word_setWord_self {n : ℕ} (a : Vector Byte n) {i : ℕ} (hi : i * 4 + 4 ≤ n)
    (w : Vector Byte 4) : word (setWord a (i * 4) w) i = w.get := by
  funext j
  have hlt : i * 4 + j < n := by omega
  simp only [word, setWord, getElem!_set!, Nat.add_left_cancel_iff, hlt, and_true]
  fin_cases j <;> rfl

theorem word_setWord_of_ne {n : ℕ} (a : Vector Byte n) {i k : ℕ} (h : i ≠ k)
    (w : Vector Byte 4) : word (setWord a (i * 4) w) k = word a k := by
  funext j
  have hne : ∀ l : Fin 4, i * 4 + l ≠ k * 4 + j := fun l => by omega
  rw [word, setWord, getElem!_set!, getElem!_set!, getElem!_set!, getElem!_set!,
    if_neg fun h => hne 3 h.1, if_neg fun h => hne 2 h.1, if_neg fun h => hne 1 h.1,
    if_neg fun h => hne 0 h.1, word]

theorem get_getWord {n : ℕ} (a : Vector Byte n) (i : ℕ) : (getWord a (i * 4)).get = word a i := by
  funext j
  fin_cases j <;> rfl

/-! ## The key schedule -/

theorem get_rotWord (w : Vector Byte 4) : (rotWord w).get = Fips197.rotWord w.get := by
  funext j
  fin_cases j <;> simp [rotWord, Fips197.rotWord, Vector.get_eq_getElem]

theorem get_subWord (w : Vector Byte 4) : (subWord w).get = Fips197.subWord w.get := by
  funext j
  rw [Fips197.subWord, ← getSBoxValue_eq]
  fin_cases j <;> simp [subWord, Vector.get_eq_getElem]

theorem get_xor {n : ℕ} (a b : Vector Byte n) (i : Fin n) : (a ^^^ b).get i = a.get i ^^^ b.get i :=
  getElem_xor a b i i.isLt

variable {v : Build}

theorem get_nextTempa {i : ℕ} (h₁ : v.nk ≤ i) (h₂ : i < nb * (v.nr + 1)) (tempa : Vector Byte 4) :
    (nextTempa v i tempa).get =
      if i % v.nk = 0 then
        fun j => Fips197.subWord (Fips197.rotWord tempa.get) j ^^^ Fips197.rcon (i / v.nk) j
      else if 6 < v.nk ∧ i % v.nk = 4 then Fips197.subWord tempa.get
      else tempa.get := by
  have hbuild : v = .aes256 ↔ 6 < v.nk := by cases v <;> decide
  by_cases hmod : i % v.nk = 0
  · have hlow : 1 ≤ i / v.nk := (Nat.one_le_div_iff v.nk_pos).2 h₁
    have hhigh : i / v.nk ≤ 10 := by
      have hbound : nb * (v.nr + 1) ≤ 11 * v.nk := by cases v <;> decide
      exact Nat.lt_succ_iff.1 ((Nat.div_lt_iff_lt_mul v.nk_pos).2 (h₂.trans_le hbound))
    have hfour : ¬(v = .aes256 ∧ i % v.nk = 4) := by omega
    rw [nextTempa, if_neg hfour, if_pos hmod, if_pos hmod]
    funext j
    rw [← get_rotWord, ← get_subWord, Fips197.rcon, ← rcon_eq _ hlow hhigh]
    fin_cases j <;> simp [Vector.get_eq_getElem]
  · simp only [nextTempa, if_neg hmod, hbuild]
    split_ifs
    · exact get_subWord tempa
    · rfl

/-- The invariant of `KeyExpansion`: the words below `i` are those of the schedule. -/
def Scheduled (key : Vector Byte v.keyLen) (i : ℕ) (roundKey : Vector Byte v.keyExpSize) : Prop :=
  ∀ k < i, word roundKey k = keyWord v.nk (fun x => key[x]!) k

theorem scheduled_setWord {key : Vector Byte v.keyLen} {i : ℕ} {roundKey : Vector Byte v.keyExpSize}
    (hi : i < nb * (v.nr + 1)) (h : Scheduled key i roundKey) {w : Vector Byte 4}
    (hw : w.get = keyWord v.nk (fun x => key[x]!) i) :
    Scheduled key (i + 1) (setWord roundKey (i * 4) w) := by
  have hsize : i * 4 + 4 ≤ v.keyExpSize := by
    rw [v.keyExpSize_eq]
    unfold nb at hi
    omega
  intro k hk
  rcases Nat.lt_succ_iff_lt_or_eq.1 hk with hlt | rfl
  · rw [word_setWord_of_ne _ hlt.ne', h k hlt]
  · rw [word_setWord_self _ hsize, hw]

theorem scheduled_keyExpansionStep {key : Vector Byte v.keyLen} {i : ℕ}
    {roundKey : Vector Byte v.keyExpSize} (h₁ : v.nk ≤ i) (h₂ : i < nb * (v.nr + 1))
    (h : Scheduled key i roundKey) : Scheduled key (i + 1) (keyExpansionStep v i roundKey) := by
  have hpos := v.nk_pos
  have hprev : word roundKey (i - 1) = keyWord v.nk (fun x => key[x]!) (i - 1) := h _ (by omega)
  have hback : word roundKey (i - v.nk) = keyWord v.nk (fun x => key[x]!) (i - v.nk) :=
    h _ (by omega)
  refine scheduled_setWord h₂ h ?_
  funext j
  rw [get_xor, get_nextTempa h₁ h₂, get_getWord, get_getWord, hprev, hback,
    keyWord_of_le _ hpos h₁]

/-- `KeyExpansion` makes the key schedule, whatever the array held before. -/
theorem keyExpansion_word (roundKey : Vector Byte v.keyExpSize) (key : Vector Byte v.keyLen) :
    Scheduled key (nb * (v.nr + 1)) (keyExpansion roundKey key) := by
  refine forUp_induction (Scheduled key) v.nk_le ?_ fun i rk h₁ h₂ h =>
    scheduled_keyExpansionStep h₁ h₂ h
  refine forUp_induction (Scheduled key) (Nat.zero_le _) (fun k hk => absurd hk (by simp))
    fun i rk _ hi h => ?_
  refine scheduled_setWord (hi.trans_le v.nk_le) h ?_
  funext j
  rw [get_getWord, keyWord_of_lt _ hi, word, mul_comm]

/-- The key schedule does not depend on what the array held before. -/
theorem keyExpansion_eq (roundKey roundKey' : Vector Byte v.keyExpSize)
    (key : Vector Byte v.keyLen) : keyExpansion roundKey key = keyExpansion roundKey' key := by
  ext i hi : 1
  have hk : i / 4 < nb * (v.nr + 1) := by
    rw [v.keyExpSize_eq] at hi
    unfold nb
    omega
  have hword := congrFun ((keyExpansion_word roundKey key _ hk).trans
    (keyExpansion_word roundKey' key _ hk).symm) ⟨i % 4, Nat.mod_lt i (by decide)⟩
  simp only [word, Nat.div_add_mod'] at hword
  rwa [getElem!_pos _ i hi, getElem!_pos _ i hi] at hword

/-! ## The steps of a round -/

/-- The state by row and column: the transpose of the one of the program. -/
def rowCol (s : State) : Fips197.State := fun r c => s.cell c r

theorem rowCol_subBytes (s : State) : rowCol (subBytes s) = Fips197.subBytes (rowCol s) := by
  funext r c
  rw [rowCol, subBytes, subCells_cell, getSBoxValue_eq, Fips197.subBytes, rowCol]

theorem rowCol_shiftRows (s : State) : rowCol (shiftRows s) = Fips197.shiftRows (rowCol s) := by
  funext r c
  rw [rowCol, shiftRows_cell, Fips197.shiftRows, rowCol]

theorem rowCol_mixColumns (s : State) :
    rowCol (mixColumns s) = Fips197.mixColumns (rowCol s) := by
  funext r c
  apply byteEquiv.injective
  have hcol : rowCol (mixColumns s) r c = mixCol (s.col c) r := congrFun (mixColumns_col s c) r
  rw [byteEquiv_mixColumns, hcol, byteEquiv_mixCol]
  rfl

theorem rowCol_addRoundKey (round : ℕ) (s : State) (roundKey : Vector Byte v.keyExpSize) :
    rowCol (addRoundKey round s roundKey) =
      Fips197.addRoundKey (word roundKey) round (rowCol s) := by
  funext r c
  rw [rowCol, addRoundKey_cell, Fips197.addRoundKey, rowCol, word, nb,
    show (4 * round + c) * 4 + r = round * 4 * 4 + c * 4 + r by ring]

/-! ## The cipher -/

theorem rowCol_rounds (roundKey : Vector Byte v.keyExpSize) (s : State) :
    rowCol (forUp 1 v.nr (fun round s =>
      addRoundKey round (mixColumns (shiftRows (subBytes s))) roundKey)
        (addRoundKey 0 s roundKey)) = rounds (word roundKey) (rowCol s) (v.nr - 1) := by
  refine forUp_induction (fun i t => rowCol t = rounds (word roundKey) (rowCol s) (i - 1)) v.nr_pos
    (rowCol_addRoundKey 0 s roundKey) fun i t hi _ ht => ?_
  obtain ⟨n, rfl⟩ : ∃ n, i = n + 1 := ⟨i - 1, (Nat.sub_add_cancel hi).symm⟩
  rw [rowCol_addRoundKey, rowCol_mixColumns, rowCol_shiftRows, rowCol_subBytes, ht]
  rfl

theorem rowCol_cipher (s : State) (roundKey : Vector Byte v.keyExpSize) :
    rowCol (cipher s roundKey) = Fips197.cipher v.nr (word roundKey) (rowCol s) := by
  rw [cipher, rowCol_addRoundKey, rowCol_shiftRows, rowCol_subBytes, rowCol_rounds, Fips197.cipher]

/-- The cipher reads the first `4 * (nr + 1)` words of the schedule only. -/
theorem cipher_congr {w w' : ℕ → Word} {nr : ℕ} (h : ∀ k < 4 * (nr + 1), w k = w' k)
    (s : Fips197.State) : Fips197.cipher nr w s = Fips197.cipher nr w' s := by
  have hadd : ∀ n ≤ nr, ∀ s, Fips197.addRoundKey w n s = Fips197.addRoundKey w' n s := by
    intro n hn s
    funext r c
    rw [Fips197.addRoundKey, Fips197.addRoundKey, h _ (by omega)]
  have hrounds : ∀ n ≤ nr, rounds w s n = rounds w' s n := by
    intro n
    induction n with
    | zero => exact fun hn => hadd 0 hn s
    | succ n ih => exact fun hn => by rw [rounds, rounds, ih (by omega), hadd _ hn]
  rw [Fips197.cipher, Fips197.cipher, hrounds _ (Nat.sub_le nr 1), hadd nr le_rfl]

theorem rowCol_eq_ofBlock (s : State) : rowCol s = ofBlock s := by
  funext r c
  simp only [rowCol, State.cell, ofBlock, add_comm]

theorem toBlock_rowCol (s : State) : toBlock (rowCol s) = s := by
  ext k hk : 1
  simp [toBlock, rowCol, State.cell, Vector.get_eq_getElem, Nat.div_add_mod]

/-- For every parameter set, key and block, wherever the block lies and whatever the
    context held before, `AES_init_ctx` and `AES_ECB_encrypt` make the ciphertext of the
    specification. -/
theorem aesEcbEncrypt_conforms (v : Build) (ctx : AesCtx v) (key : Vector Byte v.keyLen) (m : Mem)
    (buf : ℕ) : (aesEcbEncrypt (aesInitCtx ctx key) m buf).load buf 16 =
      Fips197.encrypt v.nk v.nr (fun i => key[i]!) (m.load buf 16) := by
  rw [aesEcbEncrypt, aesInitCtx, Mem.load_write_self, ← toBlock_rowCol (cipher _ _), rowCol_cipher,
    encrypt, rowCol_eq_ofBlock, cipher_congr (keyExpansion_word ctx.roundKey key)]

end EmbeddedSystems.Aes
