import EmbeddedSystems.Aes.Modes

/-!
# Cipher block chaining in place

The two functions implement cipher block chaining (`aesCbcEncryptBuffer_implements`,
`aesCbcDecryptBuffer_implements`).

The encryption follows the chain through a pointer to the block it has just
overwritten. The invariant of its loop (`CbcEncryptInv`) says which bytes hold
ciphertext by then, that the pointer is to the last block of the chain, and that
it points below the block to come, so that combining the two byte by byte is
combining them as blocks (`xorWithIv_eq`).
-/

namespace EmbeddedSystems.Aes

open Loop

variable {v : Build} {ctx : AesCtx v} {m : Mem} {buf : ℕ} {iv : IvPtr}

/-! ## Combining with the initial vector -/

/-- The pointer is to `ctx->Iv` or to a block that ends before the address `buf`. -/
def IvPtr.Below (buf : ℕ) : IvPtr → Prop
  | ctxIv => True
  | block a => a + 16 ≤ buf

theorem IvPtr.get_fill (h : iv.Below buf) (len : ℕ) (f : ℕ → Byte) (i : Fin 16) :
    iv.get ctx (m.fill buf len f) i = iv.get ctx m i := by
  cases iv with
  | ctxIv => rfl
  | block a =>
    have hlt : a + i < buf := (Nat.add_lt_add_left i.isLt a).trans_le h
    exact Mem.fill_apply_of_not_mem (Or.inl hlt)

theorem xorWithIv_eq (h : iv.Below buf) :
    xorWithIv ctx m buf iv = m.write buf (m.load buf 16 ^^^ iv.load ctx m) := by
  rw [← Mem.fill_eq_write]
  refine foldl_induction
    (fun i m' => m' = m.fill buf i fun k => (m.load buf 16 ^^^ iv.load ctx m)[k]!)
    (Mem.fill_zero buf _).symm ?_
  rintro i _ rfl
  have hbyte : (m.load buf 16 ^^^ iv.load ctx m)[i.val]! = m (buf + i) ^^^ iv.get ctx m i := by
    rw [getElem!_pos _ i.val i.isLt, getElem_xor, Mem.getElem_load, IvPtr.load, Vector.getElem_ofFn]
  rw [Mem.fill_succ, hbyte, IvPtr.get_fill h, Mem.fill_apply_of_not_mem (Or.inr le_rfl)]

/-- The rule of invariants for a loop over the `n` blocks of a buffer. -/
theorem forStep_blocks {σ : Type*} {length : BitVec 32} {n : ℕ} (hn : length.toNat = 16 * n)
    (P : ℕ → σ → Prop) {body : σ → σ} {s : σ} (h₀ : P 0 s)
    (hbody : ∀ i s, P i s → P (i + 1) (body s)) :
    ∃ t, forStep length 16 body s = some t ∧ P n t :=
  forStep_induction (by decide) (hn.trans (Nat.mul_comm 16 n)) P h₀ hbody

/-! ## Encryption -/

/-- Encryption by cipher block chaining with AES. -/
def cbcEncryptMode (roundKey : Vector Byte v.keyExpSize) : BlockMode (Vector Byte 16) Byte 16 :=
  cbcEncrypt (· ^^^ ·) fun s => cipher s roundKey

/-- The chain of a buffer: its block `j` is the initial vector of the iteration `j`. -/
def cbcChain (ctx : AesCtx v) (m : Mem) (buf : ℕ) : ℕ → Vector Byte 16 :=
  chain (· ^^^ ·) (fun s => cipher s ctx.roundKey) ctx.iv fun j => m.load (buf + 16 * j) 16

theorem blockOf_eq_load (m : Mem) (buf : ℕ) :
    blockOf 16 (fun k => m (buf + k)) = fun j => m.load (buf + 16 * j) 16 := by
  funext j
  simp only [blockOf, Mem.load, Nat.add_assoc]

theorem cbcEncryptMode_out (ctx : AesCtx v) (m : Mem) (buf : ℕ) :
    (cbcEncryptMode ctx.roundKey).out ctx.iv (fun k => m (buf + k)) =
      flatten fun j => cbcChain ctx m buf (j + 1) := by
  rw [cbcChain, ← blockOf_eq_load]
  rfl

theorem cbcEncryptMode_next (ctx : AesCtx v) (m : Mem) (buf n : ℕ) :
    (cbcEncryptMode ctx.roundKey).next ctx.iv (fun k => m (buf + k)) (16 * n) =
      cbcChain ctx m buf n := by
  rw [cbcChain, ← blockOf_eq_load]
  exact cbcEncrypt_next_mul _ _ _ _ n

/-- What holds after `j` iterations of the loop of `AES_CBC_encrypt_buffer`. -/
structure CbcEncryptInv (ctx : AesCtx v) (m : Mem) (buf j : ℕ) (s : CbcEncryptVars) : Prop where
  mem_eq : s.m = m.fill buf (16 * j) (flatten fun i => cbcChain ctx m buf (i + 1))
  buf_eq : s.buf = buf + 16 * j
  below : s.iv.Below s.buf
  iv_eq : s.iv.load ctx s.m = cbcChain ctx m buf j

theorem cbcEncryptInv_start : CbcEncryptInv ctx m buf 0 { m := m, iv := .ctxIv, buf := buf } where
  mem_eq := (Mem.fill_zero buf _).symm
  buf_eq := rfl
  below := trivial
  iv_eq := by
    ext i hi : 1
    rw [IvPtr.load, Vector.getElem_ofFn]
    rfl

theorem cbcEncryptInv_step {j : ℕ} {s : CbcEncryptVars} (h : CbcEncryptInv ctx m buf j s) :
    CbcEncryptInv ctx m buf (j + 1) (cbcEncryptStep ctx s) := by
  have hload : s.m.load s.buf 16 = m.load (buf + 16 * j) 16 := by
    rw [h.mem_eq, h.buf_eq, Mem.load_fill_of_le le_rfl]
  have hwrite : (cbcEncryptStep ctx s).m = s.m.write s.buf (cbcChain ctx m buf (j + 1)) := by
    rw [cbcEncryptStep, xorWithIv_eq h.below, Mem.load_write_self, Mem.write_write_self, hload,
      h.iv_eq]
    rfl
  refine ⟨?_, ?_, le_rfl, ?_⟩
  · rw [hwrite, h.mem_eq, h.buf_eq, Mem.fill_write fun i => (flatten_mul_add _ j i).symm,
      Nat.mul_succ]
  · rw [cbcEncryptStep, h.buf_eq, Nat.mul_succ, Nat.add_assoc]
  · have hptr : (cbcEncryptStep ctx s).iv.load ctx (cbcEncryptStep ctx s).m =
        (cbcEncryptStep ctx s).m.load s.buf 16 := rfl
    rw [hptr, hwrite, Mem.load_write_self]

theorem aesCbcEncryptBuffer_implements :
    Implements (v := v) aesCbcEncryptBuffer cbcEncryptMode := by
  rintro ctx m buf length ⟨n, hn : length.toNat = 16 * n⟩
  obtain ⟨s, hs, hinv⟩ := forStep_blocks hn (CbcEncryptInv ctx m buf) cbcEncryptInv_start
    fun _ _ => cbcEncryptInv_step
  rw [aesCbcEncryptBuffer, hs, cbcEncryptMode_out, hn, cbcEncryptMode_next, ← hinv.mem_eq,
    ← hinv.iv_eq]
  rfl

/-! ## Decryption -/

/-- Decryption by cipher block chaining with AES. -/
def cbcDecryptMode (roundKey : Vector Byte v.keyExpSize) : BlockMode (Vector Byte 16) Byte 16 :=
  cbcDecrypt (· ^^^ ·) fun s => invCipher s roundKey

/-- The initial vector of the block `j` of a ciphertext: the block before it. -/
def cbcBefore (ctx : AesCtx v) (m : Mem) (buf : ℕ) : ℕ → Vector Byte 16 :=
  before ctx.iv fun j => m.load (buf + 16 * j) 16

/-- The block `j` of the plaintext of a ciphertext. -/
def cbcPlain (ctx : AesCtx v) (m : Mem) (buf j : ℕ) : Vector Byte 16 :=
  invCipher (m.load (buf + 16 * j) 16) ctx.roundKey ^^^ cbcBefore ctx m buf j

theorem cbcDecryptMode_out (ctx : AesCtx v) (m : Mem) (buf : ℕ) :
    (cbcDecryptMode ctx.roundKey).out ctx.iv (fun k => m (buf + k)) =
      flatten (cbcPlain ctx m buf) := by
  have hplain : cbcPlain ctx m buf = unchain (· ^^^ ·) (fun s => invCipher s ctx.roundKey) ctx.iv
      (blockOf 16 fun k => m (buf + k)) := by
    rw [blockOf_eq_load]
    rfl
  rw [hplain]
  rfl

theorem cbcDecryptMode_next (ctx : AesCtx v) (m : Mem) (buf n : ℕ) :
    (cbcDecryptMode ctx.roundKey).next ctx.iv (fun k => m (buf + k)) (16 * n) =
      cbcBefore ctx m buf n := by
  rw [cbcBefore, ← blockOf_eq_load]
  exact cbcDecrypt_next_mul _ _ _ _ n

/-- What holds after `j` iterations of the loop of `AES_CBC_decrypt_buffer`. -/
structure CbcDecryptInv (ctx : AesCtx v) (m : Mem) (buf j : ℕ) (s : CbcDecryptVars v) : Prop where
  ctx_eq : s.ctx = { ctx with iv := cbcBefore ctx m buf j }
  mem_eq : s.m = m.fill buf (16 * j) (flatten (cbcPlain ctx m buf))
  buf_eq : s.buf = buf + 16 * j

theorem cbcDecryptInv_start : CbcDecryptInv ctx m buf 0 { ctx := ctx, m := m, buf := buf } where
  ctx_eq := rfl
  mem_eq := (Mem.fill_zero buf _).symm
  buf_eq := rfl

theorem IvPtr.load_ctxIv (ctx : AesCtx v) (m : Mem) : IvPtr.ctxIv.load ctx m = ctx.iv := by
  ext i hi : 1
  rw [IvPtr.load, Vector.getElem_ofFn]
  rfl

theorem cbcDecryptInv_step {j : ℕ} {s : CbcDecryptVars v} (h : CbcDecryptInv ctx m buf j s) :
    CbcDecryptInv ctx m buf (j + 1) (cbcDecryptStep s) := by
  have hload : s.m.load s.buf 16 = m.load (buf + 16 * j) 16 := by
    rw [h.mem_eq, h.buf_eq, Mem.load_fill_of_le le_rfl]
  have hwrite : (cbcDecryptStep s).m = s.m.write s.buf (cbcPlain ctx m buf j) := by
    have hbelow : IvPtr.ctxIv.Below s.buf := trivial
    rw [cbcDecryptStep, xorWithIv_eq hbelow, Mem.load_write_self, Mem.write_write_self, hload,
      IvPtr.load_ctxIv, h.ctx_eq]
    rfl
  refine ⟨?_, ?_, ?_⟩
  · rw [cbcDecryptStep, hload, h.ctx_eq]
    rfl
  · rw [hwrite, h.mem_eq, h.buf_eq, Mem.fill_write fun i => (flatten_mul_add _ j i).symm,
      Nat.mul_succ]
  · rw [cbcDecryptStep, h.buf_eq, Nat.mul_succ, Nat.add_assoc]

theorem aesCbcDecryptBuffer_implements :
    Implements (v := v) aesCbcDecryptBuffer cbcDecryptMode := by
  rintro ctx m buf length ⟨n, hn : length.toNat = 16 * n⟩
  obtain ⟨s, hs, hinv⟩ := forStep_blocks hn (CbcDecryptInv ctx m buf) cbcDecryptInv_start
    fun _ _ => cbcDecryptInv_step
  rw [aesCbcDecryptBuffer, hs, cbcDecryptMode_out, hn, cbcDecryptMode_next, ← hinv.mem_eq,
    ← hinv.ctx_eq]
  rfl

/-! ## Conformance -/

/-- The blocks of a filled buffer. -/
theorem load_fill_flatten (c : ℕ → Vector Byte 16) {n j : ℕ} (hj : j < n) :
    (m.fill buf (16 * n) (flatten c)).load (buf + 16 * j) 16 = c j := by
  ext i hi : 1
  rw [Mem.getElem_load, Nat.add_assoc, Mem.fill_apply_add _ (by omega)]
  exact flatten_mul_add c j ⟨i, hi⟩

/-- Cipher block chaining in place, for every context and every buffer of `n` blocks. The
    encryption leaves the chain `C₁, …, C_n` in the buffer and `C_n` in `ctx->Iv`, with
    `C₀ = ctx->Iv` and `C_{j+1} = Cipher (P_j ^ C_j)`. The decryption leaves
    `P_j = InvCipher (C_j) ^ C_{j-1}` in the buffer and the last block of ciphertext in `ctx->Iv`.
    Neither changes the round keys, or a byte outside the buffer. -/
theorem cbc_conforms (ctx : AesCtx v) (m : Mem) (buf : ℕ) {length : BitVec 32} {n : ℕ}
    (hn : length.toNat = 16 * n) :
    (∃ m', aesCbcEncryptBuffer ctx m buf length =
        some ({ ctx with iv := cbcChain ctx m buf n }, m') ∧
      (∀ j < n, m'.load (buf + 16 * j) 16 = cbcChain ctx m buf (j + 1)) ∧
      ∀ x, x < buf ∨ buf + 16 * n ≤ x → m' x = m x) ∧
    ∃ m', aesCbcDecryptBuffer ctx m buf length =
        some ({ ctx with iv := cbcBefore ctx m buf n }, m') ∧
      (∀ j < n, m'.load (buf + 16 * j) 16 = cbcPlain ctx m buf j) ∧
      ∀ x, x < buf ∨ buf + 16 * n ≤ x → m' x = m x := by
  have hencrypt := aesCbcEncryptBuffer_implements ctx m buf length ⟨n, hn⟩
  have hdecrypt := aesCbcDecryptBuffer_implements ctx m buf length ⟨n, hn⟩
  rw [hn, cbcEncryptMode_out, cbcEncryptMode_next] at hencrypt
  rw [hn, cbcDecryptMode_out, cbcDecryptMode_next] at hdecrypt
  refine ⟨⟨_, hencrypt, fun j hj => ?_, fun x hx => Mem.fill_apply_of_not_mem hx⟩,
    ⟨_, hdecrypt, fun j hj => ?_, fun x hx => Mem.fill_apply_of_not_mem hx⟩⟩
  · exact load_fill_flatten (fun j => cbcChain ctx m buf (j + 1)) hj
  · exact load_fill_flatten (cbcPlain ctx m buf) hj

/-- A context with the key `0, 1, …, 15` and the initial vector `15, 14, …, 0`. -/
def countingCtx : AesCtx .aes128 :=
  aesInitCtxIv default (Vector.ofFn fun i => BitVec.ofNat 8 i.val)
    (Vector.ofFn fun i => BitVec.ofNat 8 (15 - i.val))

/-- The byte at every address is the address, modulo 256. -/
def countingMem : Mem := fun a => BitVec.ofNat 8 a

theorem cbc_conforms_two_blocks :
    (∃ m', aesCbcEncryptBuffer countingCtx countingMem 5 32#32 =
        some ({ countingCtx with iv := cbcChain countingCtx countingMem 5 2 }, m') ∧
      (∀ j < 2, m'.load (5 + 16 * j) 16 = cbcChain countingCtx countingMem 5 (j + 1)) ∧
      ∀ x, x < 5 ∨ 5 + 16 * 2 ≤ x → m' x = countingMem x) ∧
    ∃ m', aesCbcDecryptBuffer countingCtx countingMem 5 32#32 =
        some ({ countingCtx with iv := cbcBefore countingCtx countingMem 5 2 }, m') ∧
      (∀ j < 2, m'.load (5 + 16 * j) 16 = cbcPlain countingCtx countingMem 5 j) ∧
      ∀ x, x < 5 ∨ 5 + 16 * 2 ≤ x → m' x = countingMem x :=
  cbc_conforms countingCtx countingMem 5 (rfl : (32#32).toNat = 16 * 2)

end EmbeddedSystems.Aes
