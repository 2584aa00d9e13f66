import EmbeddedSystems.Library.BigEndian
import EmbeddedSystems.Aes.Inverse
import EmbeddedSystems.Aes.Modes

/-!
# Counter mode

`AES_CTR_xcrypt_buffer` implements the counter mode, with `ctx->Iv` as the
counter: the loop that increments it is addition modulo `2 ^ 128` on the
big-endian number it holds (`iterate_incIv`), and after `i` iterations of the
main loop it is ahead of every counter block used (`CtrInv`).

Over a run of calls on one context, the counter blocks given to the cipher are
consecutive numbers (`CtrRunInv`), so that none is used twice before `2 ^ 128`
of them are, and every byte of the data was masked with one of them
(`CtrRun.Masked`).
-/

namespace EmbeddedSystems.Aes

open Loop BigEndian

variable {v : Build}

/-! ## The increment -/

/-- The 16 bytes of a number, as a 128-bit big-endian number. -/
def be128 (x : ℕ) : Vector Byte 16 := BigEndian.ofNat 8 16 x

/-- Bytes from `n` on are not touched. -/
theorem getElem!_incIv_of_le {n k : ℕ} (h : n ≤ k) (iv : Vector Byte 16) :
    (incIv n iv)[k]! = iv[k]! := by
  induction n generalizing iv with
  | zero => rfl
  | succ n ih =>
    have hne : ¬(n = k ∧ k < 16) := fun hk => (Nat.lt_of_succ_le h).ne hk.1
    rw [incIv]
    split_ifs
    · rw [ih (Nat.le_of_succ_le h), getElem!_set!, if_neg hne]
    · rw [getElem!_set!, if_neg hne]

theorem prefixValue_set!_of_le (iv : Vector Byte 16) {n k : ℕ} (h : n ≤ k) (b : Byte) :
    prefixValue (iv.set! k b) n = prefixValue iv n := by
  refine prefixValue_congr fun i hi => ?_
  rw [getElem!_set!, if_neg fun hk => (hi.trans_le h).ne' hk.1]

/-- The carry: the first `n` bytes are incremented modulo `2 ^ (8 * n)`. -/
theorem prefixValue_incIv {n : ℕ} (hn : n ≤ 16) (iv : Vector Byte 16) :
    prefixValue (incIv n iv) n = (prefixValue iv n + 1) % 2 ^ (8 * n) := by
  induction n generalizing iv with
  | zero => simp [prefixValue]
  | succ n ih =>
    have hset : ∀ b : Byte, (iv.set! n b)[n]! = b := by
      intro b
      rw [getElem!_set!, if_pos ⟨rfl, hn⟩]
    have hzero : (0 : Byte).toNat = 0 := rfl
    have hmax : (255 : Byte).toNat + 1 = 2 ^ 8 := rfl
    rw [incIv]
    split_ifs with hb
    · calc prefixValue (incIv n (iv.set! n 0)) (n + 1)
          = (prefixValue iv n + 1) % 2 ^ (8 * n) * 2 ^ 8 := by
            rw [prefixValue, ih (Nat.le_of_succ_le hn), getElem!_incIv_of_le le_rfl, hset,
              prefixValue_set!_of_le iv le_rfl, hzero, Nat.add_zero]
        _ = (prefixValue iv n + 1) * 2 ^ 8 % 2 ^ (8 * (n + 1)) := by
            rw [Nat.mul_succ, pow_add, Nat.mul_mod_mul_right]
        _ = (prefixValue iv (n + 1) + 1) % 2 ^ (8 * (n + 1)) := by
            rw [prefixValue, hb, Nat.succ_mul, Nat.add_assoc, hmax]
    · have hbyte : (iv[n]! + 1).toNat = iv[n]!.toNat + 1 := by
        have hne : iv[n]!.toNat ≠ 255 := fun h => hb (BitVec.eq_of_toNat_eq h)
        rw [BitVec.toNat_add, Nat.mod_eq_of_lt (by have := iv[n]!.isLt; simp; omega)]
        rfl
      have hvalue : prefixValue (iv.set! n (iv[n]! + 1)) (n + 1) = prefixValue iv (n + 1) + 1 := by
        rw [prefixValue, prefixValue_set!_of_le iv le_rfl, hset, hbyte, prefixValue, Nat.add_assoc]
      rw [hvalue, Nat.mod_eq_of_lt]
      exact hvalue ▸ prefixValue_lt _ (n + 1)

/-- The loop adds one modulo `2 ^ 128`. -/
theorem value_incIv (iv : Vector Byte 16) : value (incIv 16 iv) = (value iv + 1) % 2 ^ 128 :=
  prefixValue_incIv le_rfl iv

theorem iterate_incIv (iv : Vector Byte 16) (k : ℕ) :
    (incIv 16)^[k] iv = be128 ((value iv + k) % 2 ^ 128) := by
  rw [be128, eq_ofNat_iff, Nat.mod_mod]
  induction k with
  | zero =>
    have hlt : value iv < 2 ^ 128 := value_lt iv
    rw [Function.iterate_zero_apply, Nat.add_zero, Nat.mod_eq_of_lt hlt]
  | succ k ih => rw [Function.iterate_succ_apply', value_incIv, ih, Nat.mod_add_mod, Nat.add_assoc]

/-- The counters before the wrap are different. -/
theorem iterate_incIv_injOn (iv : Vector Byte 16) {i j : ℕ} (hi : i < 2 ^ 128) (hj : j < 2 ^ 128)
    (h : (incIv 16)^[i] iv = (incIv 16)^[j] iv) : i = j := by
  rw [iterate_incIv, iterate_incIv, be128, be128, eq_ofNat_iff, value_ofNat, Nat.mod_mod,
    Nat.mod_mod] at h
  exact (Nat.ModEq.add_left_cancel' (value iv) h).eq_of_lt_of_lt hi hj

/-! ## The loop over a buffer -/

/-- The counter block `j` of a call. -/
def counterBlock (ctx : AesCtx v) (j : ℕ) : Vector Byte 16 := (incIv 16)^[j] ctx.iv

/-- The keystream block `j` of a call. -/
def keystreamBlock (ctx : AesCtx v) (j : ℕ) : Vector Byte 16 :=
  cipher (counterBlock ctx j) ctx.roundKey

/-- The counter mode with AES. -/
def ctrMode (roundKey : Vector Byte v.keyExpSize) : BlockMode (Vector Byte 16) Byte 16 :=
  counterMode (fun s => cipher s roundKey) (· ^^^ ·) (incIv 16)

theorem ctrMode_out (ctx : AesCtx v) (d : ℕ → Byte) (k : ℕ) :
    (ctrMode ctx.roundKey).out ctx.iv d k = d k ^^^ (keystreamBlock ctx (k / 16))[k % 16]! := by
  rw [getElem!_pos (keystreamBlock ctx (k / 16)) (k % 16) (Nat.mod_lt k (by decide))]
  rfl

/-- What holds after the first `n` blocks of keystream, wherever the loop is in the last. -/
structure CtrBlocks (ctx : AesCtx v) (n : ℕ) (s : CtrVars v) : Prop where
  ctx_eq : s.ctx = { ctx with iv := counterBlock ctx n }
  fed_eq : s.fed = (List.range n).map (counterBlock ctx)

/-- What holds when the counter is `i`. -/
structure CtrInv (ctx : AesCtx v) (m : Mem) (buf i : ℕ) (s : CtrVars v) : Prop where
  blocks : CtrBlocks ctx ((i + 15) / 16) s
  mem_eq : s.m = m.fill buf i ((ctrMode ctx.roundKey).out ctx.iv fun k => m (buf + k))
  masks_eq : s.masks = (List.range i).map fun k => (keystreamBlock ctx (k / 16), k % 16)
  bi_eq : s.bi = if i % 16 = 0 then 16 else i % 16
  buffer_eq : i % 16 ≠ 0 → s.buffer = keystreamBlock ctx (i / 16)

variable {ctx : AesCtx v} {m : Mem} {buf : ℕ}

/-- After the refill the keystream block of the byte `i` is in use. -/
theorem ctrRefill_spec {i : ℕ} {s : CtrVars v} (h : CtrInv ctx m buf i s) :
    CtrBlocks ctx (i / 16 + 1) (ctrRefill s) ∧ (ctrRefill s).buffer = keystreamBlock ctx (i / 16) ∧
      (ctrRefill s).bi = i % 16 := by
  have hbi := h.bi_eq
  by_cases hi : i % 16 = 0
  · have hblocks := h.blocks
    rw [show (i + 15) / 16 = i / 16 by omega] at hblocks
    rw [if_pos hi] at hbi
    rw [ctrRefill, if_pos hbi]
    refine ⟨⟨?_, ?_⟩, ?_, hi.symm⟩
    · rw [hblocks.ctx_eq]
      simp only [counterBlock, Function.iterate_succ_apply']
    · rw [hblocks.fed_eq, hblocks.ctx_eq, List.range_succ, List.map_append]
      rfl
    · rw [hblocks.ctx_eq]
      rfl
  · have hblocks := h.blocks
    rw [show (i + 15) / 16 = i / 16 + 1 by omega] at hblocks
    rw [if_neg hi] at hbi
    have hne : s.bi ≠ 16 := by omega
    rw [ctrRefill, if_neg hne]
    exact ⟨hblocks, h.buffer_eq hi, hbi⟩

theorem ctrRefill_frame (s : CtrVars v) :
    (ctrRefill s).m = s.m ∧ (ctrRefill s).masks = s.masks := by
  rw [ctrRefill]
  split_ifs <;> exact ⟨rfl, rfl⟩

theorem ctrInv_start (ctx : AesCtx v) (m : Mem) (buf : ℕ) : CtrInv ctx m buf 0
    { ctx := ctx, m := m, buffer := Vector.replicate 16 0, bi := 16, fed := [], masks := [] } where
  blocks := ⟨rfl, rfl⟩
  mem_eq := (Mem.fill_zero buf _).symm
  masks_eq := rfl
  bi_eq := rfl
  buffer_eq h := absurd rfl h

theorem ctrInv_step {i : ℕ} {s : CtrVars v} (h : CtrInv ctx m buf i s) :
    CtrInv ctx m buf (i + 1) (ctrStep buf i s) := by
  obtain ⟨hblocks, hbuffer, hbi⟩ := ctrRefill_spec h
  obtain ⟨hm, hmasks⟩ := ctrRefill_frame s
  refine ⟨?_, ?_, ?_, ?_, fun hi => ?_⟩
  · rw [show (i + 1 + 15) / 16 = i / 16 + 1 by omega]
    exact ⟨hblocks.ctx_eq, hblocks.fed_eq⟩
  · have hbyte : s.m (buf + i) = m (buf + i) := by
      rw [h.mem_eq, Mem.fill_apply_of_not_mem (Or.inr le_rfl)]
    rw [ctrStep, hm, hbuffer, hbi, hbyte, Mem.fill_succ, ctrMode_out, h.mem_eq]
  · rw [ctrStep, hmasks, hbuffer, hbi, h.masks_eq, List.range_succ, List.map_append]
    rfl
  · have hnext : (ctrStep buf i s).bi = i % 16 + 1 := congrArg (· + 1) hbi
    rw [hnext]
    split_ifs <;> omega
  · rw [show (i + 1) / 16 = i / 16 by omega]
    exact hbuffer

/-- What `AES_CTR_xcrypt_buffer` has done when its loop ends. -/
theorem ctrLoop_spec (ctx : AesCtx v) (m : Mem) (buf : ℕ) (length : BitVec 32) :
    CtrInv ctx m buf length.toNat (ctrLoop ctx m buf length) :=
  forUp_induction (CtrInv ctx m buf) (Nat.zero_le _) (ctrInv_start ctx m buf)
    fun _ _ _ _ => ctrInv_step

theorem aesCtrXcryptBuffer_eq (ctx : AesCtx v) (m : Mem) (buf : ℕ) (length : BitVec 32) :
    aesCtrXcryptBuffer ctx m buf length =
      ({ ctx with iv := counterBlock ctx ((length.toNat + 15) / 16) },
        m.fill buf length.toNat ((ctrMode ctx.roundKey).out ctx.iv fun k => m (buf + k))) := by
  have hloop := ctrLoop_spec ctx m buf length
  rw [aesCtrXcryptBuffer, hloop.mem_eq, hloop.blocks.ctx_eq]

theorem aesCtrXcryptBuffer_implements :
    Implements (v := v) (fun ctx m buf length => some (aesCtrXcryptBuffer ctx m buf length))
      ctrMode :=
  fun ctx m buf length _ => congrArg some (aesCtrXcryptBuffer_eq ctx m buf length)

/-- Counter mode in place, for every context and every buffer, of any length: the byte `k` is
    combined with the byte `k mod 16` of the encrypted counter `iv + k div 16`, and the counter
    is advanced by the number of blocks started, where `iv` is the initial `ctx->Iv` as a
    128-bit big-endian number. -/
theorem aesCtrXcryptBuffer_conforms (ctx : AesCtx v) (m : Mem) (buf : ℕ) (length : BitVec 32) :
    (∀ k < length.toNat, (aesCtrXcryptBuffer ctx m buf length).2 (buf + k) = m (buf + k) ^^^
      (cipher (be128 ((value ctx.iv + k / 16) % 2 ^ 128)) ctx.roundKey)[k % 16]!) ∧
    (∀ x, x < buf ∨ buf + length.toNat ≤ x → (aesCtrXcryptBuffer ctx m buf length).2 x = m x) ∧
    (aesCtrXcryptBuffer ctx m buf length).1.iv =
      be128 ((value ctx.iv + (length.toNat + 15) / 16) % 2 ^ 128) ∧
    (aesCtrXcryptBuffer ctx m buf length).1.roundKey = ctx.roundKey := by
  rw [aesCtrXcryptBuffer_eq]
  refine ⟨fun k hk => ?_, fun x hx => Mem.fill_apply_of_not_mem hx, iterate_incIv _ _, rfl⟩
  calc m.fill buf length.toNat _ (buf + k)
      = m (buf + k) ^^^ (keystreamBlock ctx (k / 16))[k % 16]! := by
        rw [Mem.fill_apply_add _ hk, ctrMode_out]
    _ = _ := by rw [keystreamBlock, counterBlock, iterate_incIv]

/-- The record of the masks is of what the bytes of the buffer are combined with. -/
theorem ctrLoop_masks (ctx : AesCtx v) (m : Mem) (buf : ℕ) (length : BitVec 32) :
    (ctrLoop ctx m buf length).m.bytes buf length.toNat =
      List.zipWith (fun b p => b ^^^ p.1[p.2]!) (m.bytes buf length.toNat)
        (ctrLoop ctx m buf length).masks := by
  have hloop := ctrLoop_spec ctx m buf length
  rw [hloop.mem_eq, hloop.masks_eq, Mem.bytes_fill, Mem.bytes_eq_map, List.zipWith_map,
    List.zipWith_self]
  exact List.map_congr_left fun k _ => ctrMode_out _ _ _

/-! ## Runs of calls -/

/-- A call of `AES_CTR_xcrypt_buffer`. The memory may change between calls. -/
structure CtrCall where
  m : Mem
  buf : ℕ
  length : BitVec 32

/-- The number of blocks a call starts. -/
def CtrCall.blocks (c : CtrCall) : ℕ := (c.length.toNat + 15) / 16

/-- The context of a run of calls, the records of all their loops, and the bytes of all their
    buffers, before and after. -/
structure CtrRun (v : Build) where
  ctx : AesCtx v
  fed : List (Vector Byte 16)
  masks : List (Vector Byte 16 × ℕ)
  input : List Byte
  output : List Byte

/-- The next call of a run. -/
def CtrRun.call (r : CtrRun v) (c : CtrCall) : CtrRun v :=
  let s := ctrLoop r.ctx c.m c.buf c.length
  { ctx := s.ctx
    fed := r.fed ++ s.fed
    masks := r.masks ++ s.masks
    input := r.input ++ c.m.bytes c.buf c.length.toNat
    output := r.output ++ s.m.bytes c.buf c.length.toNat }

/-- A run of calls on one context, which nothing else changes. -/
def ctrRun (ctx : AesCtx v) (calls : List CtrCall) : CtrRun v :=
  calls.foldl CtrRun.call { ctx := ctx, fed := [], masks := [], input := [], output := [] }

/-- Every byte of the input is combined with the byte of keystream of its mask. -/
def CtrRun.Masked (r : CtrRun v) : Prop :=
  r.masks.length = r.input.length ∧
    r.output = List.zipWith (fun b p => b ^^^ p.1[p.2]!) r.input r.masks

theorem cipher_injective (roundKey : Vector Byte v.keyExpSize) :
    Function.Injective fun s => cipher s roundKey :=
  (cipherPerm roundKey).injective

/-- The keystream blocks before the wrap are different. -/
theorem keystreamBlock_injOn (ctx : AesCtx v) {i j : ℕ} (hi : i < 2 ^ 128) (hj : j < 2 ^ 128)
    (h : keystreamBlock ctx i = keystreamBlock ctx j) : i = j :=
  iterate_incIv_injOn ctx.iv hi hj (cipher_injective ctx.roundKey h)

/-- What holds after calls that have started `n` blocks in all. -/
structure CtrRunInv (ctx : AesCtx v) (n : ℕ) (r : CtrRun v) : Prop where
  ctx_eq : r.ctx = { ctx with iv := counterBlock ctx n }
  fed_eq : r.fed = (List.range n).map (counterBlock ctx)
  masks_nodup : r.masks.Nodup
  masks_used : ∀ p ∈ r.masks, ∃ j < n, p.1 = keystreamBlock ctx j
  masked : r.Masked

theorem CtrRunInv.counterBlock {n : ℕ} {r : CtrRun v} (h : CtrRunInv ctx n r) (j : ℕ) :
    counterBlock r.ctx j = counterBlock ctx (n + j) := by
  rw [h.ctx_eq, Nat.add_comm]
  exact (Function.iterate_add_apply _ j n _).symm

theorem CtrRunInv.keystreamBlock {n : ℕ} {r : CtrRun v} (h : CtrRunInv ctx n r) (j : ℕ) :
    keystreamBlock r.ctx j = keystreamBlock ctx (n + j) := by
  rw [Aes.keystreamBlock, Aes.keystreamBlock, h.counterBlock, h.ctx_eq]

theorem CtrRun.Masked.call {r : CtrRun v} (h : r.Masked) (c : CtrCall) : (r.call c).Masked := by
  have hloop := ctrLoop_spec r.ctx c.m c.buf c.length
  refine ⟨?_, ?_⟩
  · rw [CtrRun.call, List.length_append, List.length_append, h.1, hloop.masks_eq, List.length_map,
      List.length_range, Mem.length_bytes]
  · rw [CtrRun.call, List.zipWith_append h.1.symm, ← h.2, ctrLoop_masks]

/-- The masks of a call are of keystream blocks that no call before has used. -/
theorem ctrRunInv_call {n : ℕ} {r : CtrRun v} (h : CtrRunInv ctx n r) {c : CtrCall}
    (hn : n + c.blocks ≤ 2 ^ 128) : CtrRunInv ctx (n + c.blocks) (r.call c) := by
  have hloop := ctrLoop_spec r.ctx c.m c.buf c.length
  have hblock : ∀ k < c.length.toNat, k / 16 < c.blocks := by
    intro k hk
    rw [CtrCall.blocks]
    omega
  have hmasks : (r.call c).masks = r.masks ++ (List.range c.length.toNat).map fun k =>
      (Aes.keystreamBlock ctx (n + k / 16), k % 16) := by
    simp only [CtrRun.call, hloop.masks_eq, h.keystreamBlock]
  refine ⟨?_, ?_, ?_, ?_, h.masked.call c⟩
  · rw [CtrRun.call, hloop.blocks.ctx_eq, h.counterBlock, h.ctx_eq]
    rfl
  · rw [CtrRun.call, hloop.blocks.fed_eq, h.fed_eq, List.range_add, List.map_append, List.map_map,
      funext h.counterBlock]
    rfl
  · rw [hmasks, List.nodup_append]
    refine ⟨h.masks_nodup, List.Nodup.map_on (fun k hk k' hk' heq => ?_) List.nodup_range, ?_⟩
    · rw [List.mem_range] at hk hk'
      have hk₁ := hblock k hk
      have hk₂ := hblock k' hk'
      obtain ⟨hblocks, hoffset⟩ := Prod.mk.inj heq
      have hsame := keystreamBlock_injOn ctx (by omega) (by omega) hblocks
      omega
    · rintro p hp _ hq rfl
      obtain ⟨k, hk, rfl⟩ := List.mem_map.1 hq
      obtain ⟨j, hj, heq⟩ := h.masks_used _ hp
      have hk₁ := hblock k (List.mem_range.1 hk)
      have hsame := keystreamBlock_injOn ctx (by omega) (by omega) heq
      omega
  · intro p hp
    rw [hmasks] at hp
    rcases List.mem_append.1 hp with hp | hp
    · obtain ⟨j, hj, heq⟩ := h.masks_used p hp
      exact ⟨j, Nat.lt_add_right _ hj, heq⟩
    · obtain ⟨k, hk, rfl⟩ := List.mem_map.1 hp
      exact ⟨n + k / 16, Nat.add_lt_add_left (hblock k (List.mem_range.1 hk)) n, rfl⟩

theorem ctrRunInv_foldl {calls : List CtrCall} {n : ℕ} {r : CtrRun v} (h : CtrRunInv ctx n r)
    (hn : n + (calls.map CtrCall.blocks).sum ≤ 2 ^ 128) :
    CtrRunInv ctx (n + (calls.map CtrCall.blocks).sum) (calls.foldl CtrRun.call r) := by
  induction calls generalizing n r with
  | nil => exact h
  | cons c calls ih =>
    rw [List.map_cons, List.sum_cons, ← Nat.add_assoc] at hn ⊢
    exact ih (ctrRunInv_call h (Nat.le_of_add_right_le hn)) hn

theorem ctrRun_spec {calls : List CtrCall} (ctx : AesCtx v)
    (h : (calls.map CtrCall.blocks).sum ≤ 2 ^ 128) :
    CtrRunInv ctx (calls.map CtrCall.blocks).sum (ctrRun ctx calls) := by
  have hstart : CtrRunInv ctx 0
      { ctx := ctx, fed := [], masks := [], input := [], output := [] } :=
    ⟨rfl, rfl, List.nodup_nil, fun p hp => absurd hp List.not_mem_nil, rfl, rfl⟩
  have hrun : CtrRunInv ctx (0 + (calls.map CtrCall.blocks).sum) (ctrRun ctx calls) :=
    ctrRunInv_foldl hstart (by rwa [Nat.zero_add])
  rwa [Nat.zero_add] at hrun

/-- No keystream is used twice, over any run of calls on one context that starts at most
    `2 ^ 128` blocks: the counter blocks given to `Cipher` are pairwise distinct, so are the
    keystream blocks, and no two bytes are masked by the same byte of keystream. Every byte of
    the output is the one of the input, combined with the byte of keystream that its mask is:
    a byte of an encrypted counter block. -/
theorem ctrRun_no_reuse (ctx : AesCtx v) (calls : List CtrCall)
    (h : (calls.map CtrCall.blocks).sum ≤ 2 ^ 128) :
    (ctrRun ctx calls).fed.Nodup ∧ (ctrRun ctx calls).masks.Nodup ∧
      ((ctrRun ctx calls).fed.map fun s => cipher s ctx.roundKey).Nodup ∧
      (ctrRun ctx calls).Masked ∧
      ∀ p ∈ (ctrRun ctx calls).masks,
        p.1 ∈ (ctrRun ctx calls).fed.map fun s => cipher s ctx.roundKey := by
  have hrun := ctrRun_spec ctx h
  have hfed : (ctrRun ctx calls).fed.Nodup := by
    rw [hrun.fed_eq]
    refine List.Nodup.map_on (fun i hi j hj heq => ?_) List.nodup_range
    exact iterate_incIv_injOn ctx.iv ((List.mem_range.1 hi).trans_le h)
      ((List.mem_range.1 hj).trans_le h) heq
  refine ⟨hfed, hrun.masks_nodup, hfed.map (cipher_injective ctx.roundKey), hrun.masked,
    fun p hp => ?_⟩
  obtain ⟨j, hj, heq⟩ := hrun.masks_used p hp
  rw [hrun.fed_eq, List.map_map, heq]
  exact List.mem_map_of_mem (List.mem_range.2 hj)

/-- Two calls, which end within a block, on the same buffer. -/
def twoCalls : List CtrCall := [⟨fun _ => 0, 0, 5⟩, ⟨fun _ => 0, 0, 40⟩]

theorem ctrRun_no_reuse_twoCalls : (twoCalls.map CtrCall.blocks).sum ≤ 2 ^ 128 ∧
    (ctrRun (default : AesCtx .aes128) twoCalls).fed.Nodup ∧
      (ctrRun (default : AesCtx .aes128) twoCalls).masks.Nodup ∧
      ((ctrRun (default : AesCtx .aes128) twoCalls).fed.map fun s =>
        cipher s (default : AesCtx .aes128).roundKey).Nodup ∧
      (ctrRun (default : AesCtx .aes128) twoCalls).Masked ∧
      ∀ p ∈ (ctrRun (default : AesCtx .aes128) twoCalls).masks,
        p.1 ∈ (ctrRun (default : AesCtx .aes128) twoCalls).fed.map fun s =>
          cipher s (default : AesCtx .aes128).roundKey :=
  ⟨by decide, ctrRun_no_reuse default twoCalls (by decide)⟩

end EmbeddedSystems.Aes
