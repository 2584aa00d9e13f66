import EmbeddedSystems.Aes.Cbc
import EmbeddedSystems.Aes.Ctr

/-!
# Calls on buffers

What follows from the modes the functions implement, wherever the buffers lie:
a call on a buffer can be split at the end of any block (`split_at_block_boundary`),
and a function undoes the one whose mode its own inverts (`Implements.roundTrips`).
-/

namespace EmbeddedSystems.Aes

variable {v : Build}

/-! ## Splitting -/

/-- One call on `a` followed by `b` gives the same bytes and the same context as a call on `a`
    and then one on `b`, wherever the three buffers lie. -/
def Splits (call : Call v) (ctx : AesCtx v) (a b : List Byte) : Prop :=
  ∀ (m m₁ m₂ : Mem) (buf buf₁ buf₂ : ℕ),
    onBuffer call m buf ctx (a ++ b) = do
      let (ctx, outA) ← onBuffer call m₁ buf₁ ctx a
      let (ctx, outB) ← onBuffer call m₂ buf₂ ctx b
      return (ctx, outA ++ outB)

theorem Implements.splits {call : Call v}
    {mode : Vector Byte v.keyExpSize → BlockMode (Vector Byte 16) Byte 16}
    (h : Implements call mode) (ctx : AesCtx v) {a b : List Byte}
    (hlen : a.length + b.length < 2 ^ 32) (ha : 16 ∣ a.length)
    (hb : (mode ctx.roundKey).unit ∣ b.length) : Splits call ctx a b := by
  intro m m₁ m₂ buf buf₁ buf₂
  have hunit : (mode ctx.roundKey).unit ∣ a.length := (mode ctx.roundKey).unit_dvd.trans ha
  have hfirst := h.onBuffer m₁ buf₁ ctx ((Nat.le_add_right _ _).trans_lt hlen) hunit
  have hsecond := h.onBuffer m₂ buf₂
    { ctx with iv := ((mode ctx.roundKey).run ctx.iv a).1 } ((Nat.le_add_left _ _).trans_lt hlen) hb
  rw [← List.length_append] at hlen
  rw [h.onBuffer m buf ctx hlen (List.length_append ▸ dvd_add hunit hb), hfirst,
    BlockMode.run_append _ _ ha]
  simp only [Option.bind_eq_bind, Option.bind_some, hsecond]
  rfl

/-- Splitting at a block boundary is invisible, for the three functions that work on a buffer. -/
theorem split_at_block_boundary (ctx : AesCtx v) {a b : List Byte}
    (hlen : a.length + b.length < 2 ^ 32) (ha : 16 ∣ a.length) :
    (16 ∣ b.length → Splits aesCbcEncryptBuffer ctx a b ∧ Splits aesCbcDecryptBuffer ctx a b) ∧
    Splits (fun ctx m buf length => some (aesCtrXcryptBuffer ctx m buf length)) ctx a b :=
  ⟨fun hb => ⟨aesCbcEncryptBuffer_implements.splits ctx hlen ha hb,
    aesCbcDecryptBuffer_implements.splits ctx hlen ha hb⟩,
    aesCtrXcryptBuffer_implements.splits ctx hlen ha (one_dvd _)⟩

/-- A buffer of one block. -/
def oneBlock : List Byte := List.replicate 16 0

theorem split_at_block_boundary_oneBlock :
    oneBlock.length + oneBlock.length < 2 ^ 32 ∧ 16 ∣ oneBlock.length ∧
      Splits aesCbcEncryptBuffer (default : AesCtx .aes128) oneBlock oneBlock ∧
      Splits aesCbcDecryptBuffer (default : AesCtx .aes128) oneBlock oneBlock ∧
      Splits (fun ctx m buf length => some (aesCtrXcryptBuffer ctx m buf length))
        (default : AesCtx .aes128) oneBlock oneBlock :=
  have h := split_at_block_boundary (default : AesCtx .aes128) (by decide)
    (by decide : 16 ∣ oneBlock.length)
  ⟨by decide, by decide, (h.1 (by decide)).1, (h.1 (by decide)).2, h.2⟩

/-! ## Round trips -/

/-- The call `decrypt` undoes the call `encrypt` on buffers with the bytes `l`, in whatever
    memory and at whatever address its input arrives, and both leave the same context. -/
def RoundTrips (encrypt decrypt : Call v) (ctx : AesCtx v) (l : List Byte) : Prop :=
  ∀ (m₁ m₂ : Mem) (src dst : ℕ), ∃ (ctx' : AesCtx v) (m₁' m₂' : Mem),
    encrypt ctx (m₁.writeList src l) src (BitVec.ofNat 32 l.length) = some (ctx', m₁') ∧
    decrypt ctx (m₂.writeList dst (m₁'.bytes src l.length)) dst (BitVec.ofNat 32 l.length) =
      some (ctx', m₂') ∧
    m₂'.bytes dst l.length = l

theorem onBuffer_eq_some {call : Call v} {m : Mem} {buf : ℕ} {ctx ctx' : AesCtx v}
    {l out : List Byte} (h : onBuffer call m buf ctx l = some (ctx', out)) :
    ∃ m', call ctx (m.writeList buf l) buf (BitVec.ofNat 32 l.length) = some (ctx', m') ∧
      m'.bytes buf l.length = out := by
  obtain ⟨⟨ctx₁, m'⟩, hcall, heq⟩ := Option.bind_eq_some_iff.1 h
  obtain ⟨rfl, rfl⟩ := Prod.mk.inj (Option.some.inj heq)
  exact ⟨m', hcall, rfl⟩

theorem Implements.roundTrips {encrypt decrypt : Call v}
    {mode inverse : Vector Byte v.keyExpSize → BlockMode (Vector Byte 16) Byte 16}
    (hencrypt : Implements encrypt mode) (hdecrypt : Implements decrypt inverse)
    (hinverts : ∀ roundKey, (mode roundKey).Inverts (inverse roundKey)) (ctx : AesCtx v)
    {l : List Byte} (hlen : l.length < 2 ^ 32) (hunit : (mode ctx.roundKey).unit ∣ l.length) :
    RoundTrips encrypt decrypt ctx l := by
  intro m₁ m₂ src dst
  obtain ⟨m₁', hcall₁, hout₁⟩ := onBuffer_eq_some (hencrypt.onBuffer m₁ src ctx hlen hunit)
  have hout : (m₁'.bytes src l.length).length = l.length := Mem.length_bytes _ _
  have hunit' : (inverse ctx.roundKey).unit ∣ (m₁'.bytes src l.length).length := by
    rwa [hout, (hinverts ctx.roundKey).unit]
  obtain ⟨m₂', hcall₂, hout₂⟩ := onBuffer_eq_some
    (hdecrypt.onBuffer m₂ dst ctx (by rwa [hout]) hunit')
  have hrun := BlockMode.run_run (hinverts ctx.roundKey) ctx.iv hunit
  rw [hout, hout₁, hrun] at hcall₂
  rw [hout, hout₁, hrun] at hout₂
  refine ⟨_, m₁', m₂', hcall₁, ?_, hout₂⟩
  rw [hout₁]
  exact hcall₂

theorem aesCbc_roundTrips (ctx : AesCtx v) {l : List Byte} (hlen : l.length < 2 ^ 32)
    (hblocks : 16 ∣ l.length) : RoundTrips aesCbcEncryptBuffer aesCbcDecryptBuffer ctx l :=
  aesCbcEncryptBuffer_implements.roundTrips aesCbcDecryptBuffer_implements
    (fun roundKey => cbcEncrypt_inverts xor_xor_cancel fun s => invCipher_cipher s roundKey)
    ctx hlen hblocks

theorem aesCtr_roundTrips (ctx : AesCtx v) {l : List Byte} (hlen : l.length < 2 ^ 32) :
    RoundTrips (fun ctx m buf length => some (aesCtrXcryptBuffer ctx m buf length))
      (fun ctx m buf length => some (aesCtrXcryptBuffer ctx m buf length)) ctx l :=
  aesCtrXcryptBuffer_implements.roundTrips aesCtrXcryptBuffer_implements
    (fun _ => counterMode_inverts fun a b => by
      rw [BitVec.xor_assoc, BitVec.xor_self, BitVec.xor_zero])
    ctx hlen (one_dvd _)

theorem aesEcb_roundTrips (ctx : AesCtx v) {l : List Byte} (hlen : l.length = 16) :
    RoundTrips (fun ctx m buf _ => some (ctx, aesEcbEncrypt ctx m buf))
      (fun ctx m buf _ => some (ctx, aesEcbDecrypt ctx m buf)) ctx l := by
  intro m₁ m₂ src dst
  refine ⟨ctx, _, _, rfl, rfl, ?_⟩
  have hload : (aesEcbDecrypt ctx (m₂.writeList dst ((aesEcbEncrypt ctx (m₁.writeList src l)
      src).bytes src 16)) dst).load dst 16 = (m₁.writeList src l).load src 16 := by
    rw [aesEcbDecrypt, Mem.load_write_self, Mem.load_writeList_bytes, aesEcbEncrypt,
      Mem.load_write_self, invCipher_cipher]
  rw [hlen, Mem.bytes_eq_of_load_eq hload, ← hlen, Mem.bytes_writeList]

end EmbeddedSystems.Aes
