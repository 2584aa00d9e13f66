import EmbeddedSystems.Aes.Buffers
import EmbeddedSystems.Aes.Conformance

/-!
# A session between two parties

A sender encrypts a sequence of messages on one context, a receiver decrypts
them in the same order on another, and both may set a new initial vector in
between. Every operation leaves the two contexts equal and the plaintext in the
buffer of the receiver (`session_in_sync`): one operation does (`Session.inSync_step`)
and so does any list of them.
-/

namespace EmbeddedSystems.Aes

variable {v : Build}

/-- A mode of operation, as the two parties agree on it. -/
inductive Mode
  | ecb
  | cbc
  | ctr

namespace Mode

/-- The lengths of the buffers the mode is for. -/
def Allows : Mode → ℕ → Prop
  | ecb, n => n = 16
  | cbc, n => 16 ∣ n
  | ctr, _ => True

/-- The call of the sender. -/
def encrypt : Mode → Call v
  | ecb => fun ctx m buf _ => some (ctx, aesEcbEncrypt ctx m buf)
  | cbc => aesCbcEncryptBuffer
  | ctr => fun ctx m buf length => some (aesCtrXcryptBuffer ctx m buf length)

/-- The call of the receiver. -/
def decrypt : Mode → Call v
  | ecb => fun ctx m buf _ => some (ctx, aesEcbDecrypt ctx m buf)
  | cbc => aesCbcDecryptBuffer
  | ctr => fun ctx m buf length => some (aesCtrXcryptBuffer ctx m buf length)

theorem roundTrips {mode : Mode} (ctx : AesCtx v) {l : List Byte} (hlen : l.length < 2 ^ 32)
    (hallows : mode.Allows l.length) : RoundTrips mode.encrypt mode.decrypt ctx l := by
  cases mode with
  | ecb => exact aesEcb_roundTrips ctx hallows
  | cbc => exact aesCbc_roundTrips ctx hlen hallows
  | ctr => exact aesCtr_roundTrips ctx hlen

end Mode

/-- A message: its plaintext, and where the buffers of the sender and of the receiver lie. -/
structure Message where
  mode : Mode
  data : List Byte
  src : ℕ
  dst : ℕ
  length_lt : data.length < 2 ^ 32
  allows : mode.Allows data.length

/-- An operation of the session. -/
inductive Op
  | setIv (iv : Vector Byte 16)
  | send (msg : Message)

/-- A context and the memory of the party that holds it. -/
structure Party (v : Build) where
  ctx : AesCtx v
  m : Mem

structure Session (v : Build) where
  sender : Party v
  receiver : Party v

/-- Both parties set up their context, which need not be initialised, with the same key and
    initial vector. -/
def Session.start (sender receiver : Party v) (key : Vector Byte v.keyLen) (iv : Vector Byte 16) :
    Session v where
  sender := { sender with ctx := aesInitCtxIv sender.ctx key iv }
  receiver := { receiver with ctx := aesInitCtxIv receiver.ctx key iv }

/-- An operation, which both parties run: the sender encrypts the plaintext in place, and the
    receiver decrypts in place what has arrived. -/
def Session.step (s : Session v) : Op → Option (Session v)
  | .setIv iv => some
    { sender := { s.sender with ctx := aesCtxSetIv s.sender.ctx iv }
      receiver := { s.receiver with ctx := aesCtxSetIv s.receiver.ctx iv } }
  | .send msg => do
    let length := BitVec.ofNat 32 msg.data.length
    let (ctx, m) ← msg.mode.encrypt s.sender.ctx (s.sender.m.writeList msg.src msg.data) msg.src
      length
    let sent := m.bytes msg.src msg.data.length
    let (ctx', m') ← msg.mode.decrypt s.receiver.ctx (s.receiver.m.writeList msg.dst sent) msg.dst
      length
    return { sender := ⟨ctx, m⟩, receiver := ⟨ctx', m'⟩ }

/-- The operations in order. -/
def Session.run (s : Session v) (ops : List Op) : Option (Session v) := ops.foldlM Session.step s

/-- After the operation, the buffer of the receiver holds the plaintext. -/
def Op.Delivered (s : Session v) : Op → Prop
  | setIv _ => True
  | send msg => s.receiver.m.bytes msg.dst msg.data.length = msg.data

/-- The two contexts agree, on the round keys and on the initial vector. -/
def Session.InSync (s : Session v) : Prop := s.sender.ctx = s.receiver.ctx

theorem Session.inSync_start (sender receiver : Party v) (key : Vector Byte v.keyLen)
    (iv : Vector Byte 16) : (Session.start sender receiver key iv).InSync := by
  change aesInitCtxIv sender.ctx key iv = aesInitCtxIv receiver.ctx key iv
  rw [aesInitCtxIv, aesInitCtxIv, keyExpansion_eq sender.ctx.roundKey receiver.ctx.roundKey]

theorem Session.inSync_step {s : Session v} (h : s.InSync) (op : Op) :
    ∃ s', s.step op = some s' ∧ s'.InSync ∧ op.Delivered s' := by
  obtain ⟨⟨ctx, m₁⟩, ⟨_, m₂⟩⟩ := s
  obtain rfl : ctx = _ := h
  cases op with
  | setIv iv => exact ⟨_, rfl, rfl, trivial⟩
  | send msg =>
    obtain ⟨ctx', m₁', m₂', hencrypt, hdecrypt, hdata⟩ :=
      msg.mode.roundTrips ctx msg.length_lt msg.allows m₁ m₂ msg.src msg.dst
    refine ⟨⟨⟨ctx', m₁'⟩, ⟨ctx', m₂'⟩⟩, ?_, rfl, hdata⟩
    simp only [Session.step, hencrypt, hdecrypt, Option.bind_eq_bind, Option.bind_some]
    rfl

theorem Session.inSync_run {s : Session v} (h : s.InSync) (ops : List Op) :
    ∃ s', s.run ops = some s' ∧ s'.InSync := by
  induction ops generalizing s with
  | nil => exact ⟨s, rfl, h⟩
  | cons op ops ih =>
    obtain ⟨s₁, hstep, hsync, -⟩ := inSync_step h op
    obtain ⟨s', hrun, hsync'⟩ := ih hsync
    refine ⟨s', ?_, hsync'⟩
    rw [Session.run, List.foldlM_cons, hstep]
    exact hrun

/-- The session stays in sync. For every key, every initial vector and every list of operations,
    which ends with the operation `op`: the operations all return, the buffer of the receiver
    then holds the plaintext of `op`, and the two contexts are equal. -/
theorem session_in_sync (key : Vector Byte v.keyLen) (iv : Vector Byte 16)
    (sender receiver : Party v) (ops : List Op) (op : Op) :
    ∃ s, (Session.start sender receiver key iv).run (ops ++ [op]) = some s ∧
      op.Delivered s ∧ s.sender.ctx = s.receiver.ctx := by
  obtain ⟨s, hrun, hsync⟩ := Session.inSync_run (Session.inSync_start sender receiver key iv) ops
  obtain ⟨s', hstep, hsync', hdelivered⟩ := Session.inSync_step hsync op
  refine ⟨s', ?_, hdelivered, hsync'⟩
  rw [Session.run] at hrun
  rw [Session.run, List.foldlM_append, hrun]
  simp only [List.foldlM_cons, List.foldlM_nil, Option.bind_eq_bind, Option.bind_some, hstep]
  rfl

end EmbeddedSystems.Aes
