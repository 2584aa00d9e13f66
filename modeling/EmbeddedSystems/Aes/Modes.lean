import EmbeddedSystems.Library.BlockMode
import EmbeddedSystems.Aes.Cipher

/-!
# The modes of operation

The functions of `aes.c` that encrypt and decrypt a buffer in memory, with
cipher block chaining and in counter mode, and the mode of operation that a
function of this kind implements (`Implements`).

A call that does not return is `none`: the counter of the loops over blocks has
32 bits, and wraps on some lengths that are not a multiple of 16.
-/

namespace EmbeddedSystems.Aes

open Loop

variable {v : Build}

/-! ## Cipher block chaining -/

/-- What the pointer `Iv` points to: `ctx->Iv`, or a block in memory. -/
inductive IvPtr
  | ctxIv
  | block (a : ℕ)

/-- `Iv[i]`. -/
def IvPtr.get (ctx : AesCtx v) (m : Mem) (i : Fin 16) : IvPtr → Byte
  | ctxIv => ctx.iv.get i
  | block a => m (a + i)

/-- The block `Iv` points to. -/
def IvPtr.load (ctx : AesCtx v) (m : Mem) (iv : IvPtr) : Vector Byte 16 :=
  Vector.ofFn fun i => iv.get ctx m i

/-- `XorWithIv`. -/
def xorWithIv (ctx : AesCtx v) (m : Mem) (buf : ℕ) (iv : IvPtr) : Mem :=
  Fin.foldl 16 (fun m i => m.store (buf + i) (m (buf + i) ^^^ iv.get ctx m i)) m

/-- The variables of the loop of `AES_CBC_encrypt_buffer`. -/
structure CbcEncryptVars where
  m : Mem
  iv : IvPtr
  buf : ℕ

/-- The body of the loop of `AES_CBC_encrypt_buffer`. -/
def cbcEncryptStep (ctx : AesCtx v) (s : CbcEncryptVars) : CbcEncryptVars :=
  let m := xorWithIv ctx s.m s.buf s.iv
  let m := m.write s.buf (cipher (m.load s.buf 16) ctx.roundKey)
  { m := m, iv := .block s.buf, buf := s.buf + 16 }

/-- `AES_CBC_encrypt_buffer`. -/
def aesCbcEncryptBuffer (ctx : AesCtx v) (m : Mem) (buf : ℕ) (length : BitVec 32) :
    Option (AesCtx v × Mem) := do
  let s ← forStep length 16 (cbcEncryptStep ctx) { m := m, iv := .ctxIv, buf := buf }
  -- store `Iv` in `ctx` for the next call
  return ({ ctx with iv := s.iv.load ctx s.m }, s.m)

/-- The variables of the loop of `AES_CBC_decrypt_buffer`. -/
structure CbcDecryptVars (v : Build) where
  ctx : AesCtx v
  m : Mem
  buf : ℕ

/-- The body of the loop of `AES_CBC_decrypt_buffer`. -/
def cbcDecryptStep (s : CbcDecryptVars v) : CbcDecryptVars v :=
  let storeNextIv := s.m.load s.buf 16
  let m := s.m.write s.buf (invCipher (s.m.load s.buf 16) s.ctx.roundKey)
  let m := xorWithIv s.ctx m s.buf .ctxIv
  { ctx := { s.ctx with iv := storeNextIv }, m := m, buf := s.buf + 16 }

/-- `AES_CBC_decrypt_buffer`. -/
def aesCbcDecryptBuffer (ctx : AesCtx v) (m : Mem) (buf : ℕ) (length : BitVec 32) :
    Option (AesCtx v × Mem) := do
  let s ← forStep length 16 cbcDecryptStep { ctx := ctx, m := m, buf := buf }
  return (s.ctx, s.m)

/-! ## Counter mode -/

/-- The loop that increments `ctx->Iv`, over the bytes below `n`, the last one first. -/
def incIv : (n : ℕ) → Vector Byte 16 → Vector Byte 16
  | 0, iv => iv
  | bi + 1, iv =>
    -- the increment overflows, and carries into the byte before
    if iv[bi]! = 255 then incIv bi (iv.set! bi 0)
    else iv.set! bi (iv[bi]! + 1)

/-- The variables of the loop of `AES_CTR_xcrypt_buffer`, and a record of what it has done. -/
structure CtrVars (v : Build) where
  ctx : AesCtx v
  m : Mem
  /-- The keystream block in use. -/
  buffer : Vector Byte 16
  bi : ℕ
  /-- The blocks given to `Cipher` so far. -/
  fed : List (Vector Byte 16)
  /-- For each byte so far, the keystream block it was masked with and the offset into it. -/
  masks : List (Vector Byte 16 × ℕ)

/-- The start of an iteration: a fresh keystream block when the last one is used up. -/
def ctrRefill (s : CtrVars v) : CtrVars v :=
  if s.bi = 16 then
    { s with
      buffer := cipher s.ctx.iv s.ctx.roundKey
      ctx := { s.ctx with iv := incIv 16 s.ctx.iv }
      bi := 0
      fed := s.fed ++ [s.ctx.iv] }
  else s

/-- The iteration `i` of the loop of `AES_CTR_xcrypt_buffer`, with the `++bi` of its header. -/
def ctrStep (buf i : ℕ) (s : CtrVars v) : CtrVars v :=
  let s := ctrRefill s
  { s with
    m := s.m.store (buf + i) (s.m (buf + i) ^^^ s.buffer[s.bi]!)
    masks := s.masks ++ [(s.buffer, s.bi)]
    bi := s.bi + 1 }

/-- The loop of `AES_CTR_xcrypt_buffer`. The array `buffer` is not initialised, and not read
    before the first keystream block is in it. -/
def ctrLoop (ctx : AesCtx v) (m : Mem) (buf : ℕ) (length : BitVec 32) : CtrVars v :=
  forUp 0 length.toNat (ctrStep buf)
    { ctx := ctx, m := m, buffer := Vector.replicate 16 0, bi := 16, fed := [], masks := [] }

/-- `AES_CTR_xcrypt_buffer`. -/
def aesCtrXcryptBuffer (ctx : AesCtx v) (m : Mem) (buf : ℕ) (length : BitVec 32) :
    AesCtx v × Mem :=
  let s := ctrLoop ctx m buf length
  (s.ctx, s.m)

/-! ## What a call does -/

/-- A call on the buffer of the given address and length. -/
abbrev Call (v : Build) := AesCtx v → Mem → ℕ → BitVec 32 → Option (AesCtx v × Mem)

/-- A call implements a mode of operation: on lengths the mode allows it returns, replaces the
    buffer by the output of the mode and `ctx->Iv` by its state, and changes nothing else. -/
def Implements (call : Call v)
    (mode : Vector Byte v.keyExpSize → BlockMode (Vector Byte 16) Byte 16) : Prop :=
  ∀ (ctx : AesCtx v) (m : Mem) (buf : ℕ) (length : BitVec 32),
    (mode ctx.roundKey).unit ∣ length.toNat →
    call ctx m buf length = some
      ({ ctx with iv := (mode ctx.roundKey).next ctx.iv (fun k => m (buf + k)) length.toNat },
        m.fill buf length.toNat ((mode ctx.roundKey).out ctx.iv fun k => m (buf + k)))

/-- A call on a buffer with the bytes `l`, placed at the address `buf` of the memory `m`: the
    context it leaves and what it leaves in the buffer. -/
def onBuffer (call : Call v) (m : Mem) (buf : ℕ) (ctx : AesCtx v) (l : List Byte) :
    Option (AesCtx v × List Byte) := do
  let (ctx, m) ← call ctx (m.writeList buf l) buf (BitVec.ofNat 32 l.length)
  return (ctx, m.bytes buf l.length)

/-- Wherever the buffer lies, the call is a run of the mode on its bytes. -/
theorem Implements.onBuffer {call : Call v}
    {mode : Vector Byte v.keyExpSize → BlockMode (Vector Byte 16) Byte 16}
    (h : Implements call mode) (m : Mem) (buf : ℕ) (ctx : AesCtx v) {l : List Byte}
    (hl : l.length < 2 ^ 32) (hunit : (mode ctx.roundKey).unit ∣ l.length) :
    onBuffer call m buf ctx l = some
      ({ ctx with iv := ((mode ctx.roundKey).run ctx.iv l).1 },
        ((mode ctx.roundKey).run ctx.iv l).2) := by
  have hlen : (BitVec.ofNat 32 l.length).toNat = l.length := by
    rw [BitVec.toNat_ofNat, Nat.mod_eq_of_lt hl]
  have hdata : ∀ k < l.length, m.writeList buf l (buf + k) = l[k]! := fun _ =>
    Mem.writeList_apply_add
  have hout : (List.range l.length).map
      ((mode ctx.roundKey).out ctx.iv fun k => m.writeList buf l (buf + k)) =
        ((mode ctx.roundKey).run ctx.iv l).2 :=
    List.map_congr_left fun k hk =>
      (mode ctx.roundKey).out_congr hunit hdata k (List.mem_range.1 hk)
  rw [Aes.onBuffer, h _ _ _ _ (by rwa [hlen]), hlen,
    (mode ctx.roundKey).next_congr hunit hdata]
  simp only [Option.bind_eq_bind, Option.bind_some, Mem.bytes_fill, hout]
  rfl

end EmbeddedSystems.Aes
