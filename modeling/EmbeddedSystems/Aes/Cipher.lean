import EmbeddedSystems.Library.Loop
import EmbeddedSystems.Aes.Tables

/-!
# The block cipher

The cipher of `aes.c`, function by function, for the three parameter sets the
file can be built for (`Build`): the key schedule (`keyExpansion`), the four
steps of a round on the state and their inverses, `cipher` and `invCipher`, and
the calls of the ECB interface, which run them in place on a block in memory.

The state is the array of 16 bytes the program casts its buffer to: the byte
`4 * i + j` of the block is `state[i][j]`, so that `i` is a column of the state
and `j` a row of it.

Beside each function stands the lemma that says what it leaves in a cell of the
state; later modules use these, and never the loops.
-/

namespace EmbeddedSystems.Aes

open Loop

/-- The parameter sets: `AES128`, `AES192` or `AES256` defined in `aes.h`. -/
inductive Build
  | aes128
  | aes192
  | aes256
  deriving DecidableEq

/-- `Nb`: the number of columns of the state. -/
def nb : ℕ := 4

namespace Build

/-- `Nk`: the number of 32-bit words in a key. -/
def nk : Build → ℕ
  | aes128 => 4
  | aes192 => 6
  | aes256 => 8

/-- `Nr`: the number of rounds. -/
def nr : Build → ℕ
  | aes128 => 10
  | aes192 => 12
  | aes256 => 14

/-- `AES_KEYLEN`. -/
def keyLen : Build → ℕ
  | aes128 => 16
  | aes192 => 24
  | aes256 => 32

/-- `AES_keyExpSize`. -/
def keyExpSize : Build → ℕ
  | aes128 => 176
  | aes192 => 208
  | aes256 => 240

theorem keyExpSize_eq (v : Build) : v.keyExpSize = 16 * (v.nr + 1) := by cases v <;> rfl
theorem nk_pos (v : Build) : 0 < v.nk := by cases v <;> decide
theorem nk_le (v : Build) : v.nk ≤ nb * (v.nr + 1) := by cases v <;> decide
theorem nr_pos (v : Build) : 0 < v.nr := by cases v <;> decide

end Build

/-- `struct AES_ctx`. -/
@[ext]
structure AesCtx (v : Build) where
  roundKey : Vector Byte v.keyExpSize
  iv : Vector Byte 16

instance (v : Build) : Inhabited (AesCtx v) := ⟨⟨Vector.replicate _ 0, Vector.replicate _ 0⟩⟩

/-! ## The key schedule -/

/-- The four bytes of the array `a` from `k` on. -/
def getWord {n : ℕ} (a : Vector Byte n) (k : ℕ) : Vector Byte 4 :=
  #v[a[k + 0]!, a[k + 1]!, a[k + 2]!, a[k + 3]!]

/-- The array `a` with the four bytes from `k` on set to `w`. -/
def setWord {n : ℕ} (a : Vector Byte n) (k : ℕ) (w : Vector Byte 4) : Vector Byte n :=
  (((a.set! (k + 0) w[0]).set! (k + 1) w[1]).set! (k + 2) w[2]).set! (k + 3) w[3]

/-- `RotWord()`. -/
def rotWord (tempa : Vector Byte 4) : Vector Byte 4 :=
  let u8tmp := tempa[0]
  let tempa := tempa.set 0 tempa[1]
  let tempa := tempa.set 1 tempa[2]
  let tempa := tempa.set 2 tempa[3]
  tempa.set 3 u8tmp

/-- `Subword()`. -/
def subWord (tempa : Vector Byte 4) : Vector Byte 4 :=
  let tempa := tempa.set 0 (getSBoxValue tempa[0])
  let tempa := tempa.set 1 (getSBoxValue tempa[1])
  let tempa := tempa.set 2 (getSBoxValue tempa[2])
  tempa.set 3 (getSBoxValue tempa[3])

/-- The array `tempa` of the iteration `i` of the second loop of `KeyExpansion`, from the word
    before the word `i`. -/
def nextTempa (v : Build) (i : ℕ) (tempa : Vector Byte 4) : Vector Byte 4 :=
  let tempa :=
    if i % v.nk = 0 then
      let tempa := subWord (rotWord tempa)
      tempa.set 0 (tempa[0] ^^^ rcon[i / v.nk]!)
    else tempa
  -- compiled for `AES256` only
  if v = .aes256 ∧ i % v.nk = 4 then subWord tempa else tempa

/-- The iteration `i` of the second loop of `KeyExpansion`: the word `i` of the schedule. -/
def keyExpansionStep (v : Build) (i : ℕ) (roundKey : Vector Byte v.keyExpSize) :
    Vector Byte v.keyExpSize :=
  let k := (i - 1) * 4
  let tempa := nextTempa v i (getWord roundKey k)
  let j := i * 4
  let k := (i - v.nk) * 4
  setWord roundKey j (getWord roundKey k ^^^ tempa)

/-- `KeyExpansion`. -/
def keyExpansion {v : Build} (roundKey : Vector Byte v.keyExpSize) (key : Vector Byte v.keyLen) :
    Vector Byte v.keyExpSize :=
  let roundKey := forUp 0 v.nk (fun i rk => setWord rk (i * 4) (getWord key (i * 4))) roundKey
  forUp v.nk (nb * (v.nr + 1)) (keyExpansionStep v) roundKey

variable {v : Build}

/-- `AES_init_ctx`. -/
def aesInitCtx (ctx : AesCtx v) (key : Vector Byte v.keyLen) : AesCtx v :=
  { ctx with roundKey := keyExpansion ctx.roundKey key }

/-- `AES_init_ctx_iv`. -/
def aesInitCtxIv (ctx : AesCtx v) (key : Vector Byte v.keyLen) (iv : Vector Byte 16) : AesCtx v :=
  { ctx with roundKey := keyExpansion ctx.roundKey key, iv := iv }

/-- `AES_ctx_set_iv`. -/
def aesCtxSetIv (ctx : AesCtx v) (iv : Vector Byte 16) : AesCtx v := { ctx with iv := iv }

/-! ## The state -/

/-- `state_t`, as the 16 bytes it lies on. -/
abbrev State := Vector Byte 16

/-- `(*state)[i][j]`. -/
def State.cell (s : State) (i j : Fin 4) : Byte := s.get ⟨4 * i + j, by omega⟩

/-- The state after `(*state)[i][j] = b`. -/
def State.setCell (s : State) (i j : Fin 4) (b : Byte) : State := s.set (4 * i + j) b

/-- The column `i` of the state. -/
def State.col (s : State) (i : Fin 4) : Fin 4 → Byte := s.cell i

theorem State.ext {s t : State} (h : ∀ i j, s.cell i j = t.cell i j) : s = t := by
  refine Vector.ext fun k hk => ?_
  have := h ⟨k / 4, by omega⟩ ⟨k % 4, by omega⟩
  simpa [cell, Vector.get_eq_getElem, Nat.div_add_mod] using this

theorem State.cell_setCell (s : State) (i j i' j' : Fin 4) (b : Byte) :
    (s.setCell i j b).cell i' j' = if i = i' ∧ j = j' then b else s.cell i' j' := by
  have hiff : (4 * i.val + j.val = 4 * i'.val + j'.val) ↔ i = i' ∧ j = j' := by omega
  simp only [cell, setCell, Vector.get_eq_getElem, Vector.getElem_set, hiff]

/-- A loop over the cells `p 0, …, p 3` rewrites each of them once. -/
theorem State.cell_foldl {p : Fin 4 → Fin 4 × Fin 4} (hp : Function.Injective p)
    (f : Fin 4 → Byte → Byte) (s : State) (j : Fin 4) :
    (Fin.foldl 4 (fun (s : State) j =>
      s.setCell (p j).1 (p j).2 (f j (s.cell (p j).1 (p j).2))) s).cell (p j).1 (p j).2 =
        f j (s.cell (p j).1 (p j).2) := by
  refine foldl_part (fun j (s : State) => s.cell (p j).1 (p j).2) f
    (fun j s => ?_) (fun j j' s hj => ?_) j s
  · simp [cell_setCell]
  · have hne : ¬((p j).1 = (p j').1 ∧ (p j).2 = (p j').2) := fun h => hj (hp (Prod.ext h.1 h.2))
    simp [cell_setCell, hne]

/-- A loop over the cells `p 0, …, p 3` leaves the other cells alone. -/
theorem State.cell_foldl_of_ne {p : Fin 4 → Fin 4 × Fin 4} {i j : Fin 4} (hp : ∀ k, p k ≠ (i, j))
    (f : Fin 4 → Byte → Byte) (s : State) :
    (Fin.foldl 4 (fun (s : State) j =>
      s.setCell (p j).1 (p j).2 (f j (s.cell (p j).1 (p j).2))) s).cell i j = s.cell i j := by
  refine foldl_frame (fun s : State => s.cell i j) (fun k s => ?_) s
  have hne : ¬((p k).1 = i ∧ (p k).2 = j) := fun h => hp k (Prod.ext h.1 h.2)
  simp [cell_setCell, hne]

/-! ## The steps of a round -/

/-- `AddRoundKey`. -/
def addRoundKey {n : ℕ} (round : ℕ) (s : State) (roundKey : Vector Byte n) : State :=
  Fin.foldl 4 (fun s i => Fin.foldl 4 (fun s j =>
    s.setCell i j (s.cell i j ^^^ roundKey[round * nb * 4 + i * nb + j]!)) s) s

theorem addRoundKey_cell {n : ℕ} (round : ℕ) (s : State) (roundKey : Vector Byte n)
    (i j : Fin 4) : (addRoundKey round s roundKey).cell i j =
      s.cell i j ^^^ roundKey[round * nb * 4 + i * nb + j]! := by
  have hcol : (addRoundKey round s roundKey).col i = fun j =>
      s.col i j ^^^ roundKey[round * nb * 4 + i * nb + j]! := by
    refine foldl_part (fun i (s : State) => s.col i)
      (fun i col j => col j ^^^ roundKey[round * nb * 4 + i * nb + j]!)
      (fun i s => ?_) (fun i i' s hi => ?_) i s
    · funext j
      exact State.cell_foldl (p := fun j => (i, j)) (Prod.mk_right_injective i)
        (fun j b => b ^^^ roundKey[round * nb * 4 + i * nb + j]!) s j
    · funext j
      exact State.cell_foldl_of_ne (p := fun j => (i, j)) (fun k h => hi (congrArg Prod.fst h))
        (fun j b => b ^^^ roundKey[round * nb * 4 + i * nb + j]!) s
  exact congrFun hcol j

/-- The loops of `SubBytes` and `InvSubBytes`, with the table `box`. -/
def subCells (box : Byte → Byte) (s : State) : State :=
  Fin.foldl 4 (fun s i => Fin.foldl 4 (fun s j => s.setCell j i (box (s.cell j i))) s) s

theorem subCells_cell (box : Byte → Byte) (s : State) (i j : Fin 4) :
    (subCells box s).cell i j = box (s.cell i j) := by
  have hrow : (fun i => (subCells box s).cell i j) = fun i => box (s.cell i j) := by
    refine foldl_part (fun j (s : State) i => s.cell i j) (fun _ row i => box (row i))
      (fun j s => ?_) (fun j j' s hj => ?_) j s
    · funext i
      exact State.cell_foldl (p := fun i => (i, j)) (Prod.mk_left_injective j) (fun _ => box) s i
    · funext i
      exact State.cell_foldl_of_ne (p := fun i => (i, j)) (fun k h => hj (congrArg Prod.snd h))
        (fun _ => box) s
  exact congrFun hrow i

/-- `SubBytes`. -/
def subBytes (s : State) : State := subCells getSBoxValue s

/-- `InvSubBytes`. -/
def invSubBytes (s : State) : State := subCells getSBoxInvert s

/-- `ShiftRows`. -/
def shiftRows (s : State) : State :=
  -- rotate first row 1 column to left
  let temp := s.cell 0 1
  let s := s.setCell 0 1 (s.cell 1 1)
  let s := s.setCell 1 1 (s.cell 2 1)
  let s := s.setCell 2 1 (s.cell 3 1)
  let s := s.setCell 3 1 temp
  -- rotate second row 2 columns to left
  let temp := s.cell 0 2
  let s := s.setCell 0 2 (s.cell 2 2)
  let s := s.setCell 2 2 temp
  let temp := s.cell 1 2
  let s := s.setCell 1 2 (s.cell 3 2)
  let s := s.setCell 3 2 temp
  -- rotate third row 3 columns to left
  let temp := s.cell 0 3
  let s := s.setCell 0 3 (s.cell 3 3)
  let s := s.setCell 3 3 (s.cell 2 3)
  let s := s.setCell 2 3 (s.cell 1 3)
  s.setCell 1 3 temp

theorem shiftRows_cell (s : State) (i j : Fin 4) :
    (shiftRows s).cell i j = s.cell (i + j) j := by
  fin_cases i <;> fin_cases j <;> simp [shiftRows, State.cell_setCell]

/-- `xtime`: the operands are promoted to `int`, the result is truncated to a byte. -/
def xtime (x : Byte) : Byte :=
  let x := x.setWidth 32
  ((x <<< 1) ^^^ ((x >>> 7 &&& 1#32) * 0x1b#32)).setWidth 8

/-- The body of the loop of `MixColumns`, on the column `i`. -/
def mixColumn (s : State) (i : Fin 4) : State :=
  let t := s.cell i 0
  let tmp := s.cell i 0 ^^^ s.cell i 1 ^^^ s.cell i 2 ^^^ s.cell i 3
  let tm := xtime (s.cell i 0 ^^^ s.cell i 1)
  let s := s.setCell i 0 (s.cell i 0 ^^^ (tm ^^^ tmp))
  let tm := xtime (s.cell i 1 ^^^ s.cell i 2)
  let s := s.setCell i 1 (s.cell i 1 ^^^ (tm ^^^ tmp))
  let tm := xtime (s.cell i 2 ^^^ s.cell i 3)
  let s := s.setCell i 2 (s.cell i 2 ^^^ (tm ^^^ tmp))
  let tm := xtime (s.cell i 3 ^^^ t)
  s.setCell i 3 (s.cell i 3 ^^^ (tm ^^^ tmp))

/-- `MixColumns`. -/
def mixColumns (s : State) : State := Fin.foldl 4 mixColumn s

/-- What `MixColumns` makes of a column. -/
def mixCol (c : Fin 4 → Byte) (j : Fin 4) : Byte :=
  c j ^^^ (xtime (c j ^^^ c (j + 1)) ^^^ (c 0 ^^^ c 1 ^^^ c 2 ^^^ c 3))

theorem mixColumn_col (s : State) (i : Fin 4) : (mixColumn s i).col i = mixCol (s.col i) := by
  funext j
  fin_cases j <;> simp [mixColumn, mixCol, State.col, State.cell_setCell]

theorem mixColumn_col_of_ne (s : State) {i i' : Fin 4} (h : i ≠ i') :
    (mixColumn s i).col i' = s.col i' := by
  funext j
  simp [mixColumn, State.col, State.cell_setCell, h]

theorem mixColumns_col (s : State) (i : Fin 4) : (mixColumns s).col i = mixCol (s.col i) :=
  foldl_part (fun i (s : State) => s.col i) (fun _ => mixCol)
    (fun i s => mixColumn_col s i) (fun _ _ s h => mixColumn_col_of_ne s h) i s

/-- The macro `Multiply`, an `int` expression: `y` is an `int` constant, and the
    bytes it multiplies are promoted. -/
def multiply (x : Byte) (y : BitVec 32) : BitVec 32 :=
  ((y &&& 1#32) * x.setWidth 32) ^^^
    ((y >>> 1 &&& 1#32) * (xtime x).setWidth 32) ^^^
    ((y >>> 2 &&& 1#32) * (xtime (xtime x)).setWidth 32) ^^^
    ((y >>> 3 &&& 1#32) * (xtime (xtime (xtime x))).setWidth 32) ^^^
    ((y >>> 4 &&& 1#32) * (xtime (xtime (xtime (xtime x)))).setWidth 32)

/-- The body of the loop of `InvMixColumns`, on the column `i`. -/
def invMixColumn (s : State) (i : Fin 4) : State :=
  let a := s.cell i 0
  let b := s.cell i 1
  let c := s.cell i 2
  let d := s.cell i 3
  let s := s.setCell i 0
    (multiply a 0x0e ^^^ multiply b 0x0b ^^^ multiply c 0x0d ^^^ multiply d 0x09 |>.setWidth 8)
  let s := s.setCell i 1
    (multiply a 0x09 ^^^ multiply b 0x0e ^^^ multiply c 0x0b ^^^ multiply d 0x0d |>.setWidth 8)
  let s := s.setCell i 2
    (multiply a 0x0d ^^^ multiply b 0x09 ^^^ multiply c 0x0e ^^^ multiply d 0x0b |>.setWidth 8)
  s.setCell i 3
    (multiply a 0x0b ^^^ multiply b 0x0d ^^^ multiply c 0x09 ^^^ multiply d 0x0e |>.setWidth 8)

/-- `InvMixColumns`. -/
def invMixColumns (s : State) : State := Fin.foldl 4 invMixColumn s

/-- The multipliers of `InvMixColumns`: row `j` makes the cell `j` of a column. -/
def invMixRows : Matrix (Fin 4) (Fin 4) (BitVec 32) :=
  !![0x0e, 0x0b, 0x0d, 0x09; 0x09, 0x0e, 0x0b, 0x0d; 0x0d, 0x09, 0x0e, 0x0b; 0x0b, 0x0d, 0x09, 0x0e]

/-- What `InvMixColumns` makes of a column. -/
def invMixCol (c : Fin 4 → Byte) (j : Fin 4) : Byte :=
  (multiply (c 0) (invMixRows j 0) ^^^ multiply (c 1) (invMixRows j 1) ^^^
    multiply (c 2) (invMixRows j 2) ^^^ multiply (c 3) (invMixRows j 3)).setWidth 8

theorem invMixColumn_col (s : State) (i : Fin 4) :
    (invMixColumn s i).col i = invMixCol (s.col i) := by
  funext j
  fin_cases j <;> simp [invMixColumn, invMixCol, invMixRows, State.col, State.cell_setCell]

theorem invMixColumn_col_of_ne (s : State) {i i' : Fin 4} (h : i ≠ i') :
    (invMixColumn s i).col i' = s.col i' := by
  funext j
  simp [invMixColumn, State.col, State.cell_setCell, h]

theorem invMixColumns_col (s : State) (i : Fin 4) :
    (invMixColumns s).col i = invMixCol (s.col i) :=
  foldl_part (fun i (s : State) => s.col i) (fun _ => invMixCol)
    (fun i s => invMixColumn_col s i) (fun _ _ s h => invMixColumn_col_of_ne s h) i s

/-- `InvShiftRows`. -/
def invShiftRows (s : State) : State :=
  -- rotate first row 1 column to right
  let temp := s.cell 3 1
  let s := s.setCell 3 1 (s.cell 2 1)
  let s := s.setCell 2 1 (s.cell 1 1)
  let s := s.setCell 1 1 (s.cell 0 1)
  let s := s.setCell 0 1 temp
  -- rotate second row 2 columns to right
  let temp := s.cell 0 2
  let s := s.setCell 0 2 (s.cell 2 2)
  let s := s.setCell 2 2 temp
  let temp := s.cell 1 2
  let s := s.setCell 1 2 (s.cell 3 2)
  let s := s.setCell 3 2 temp
  -- rotate third row 3 columns to right
  let temp := s.cell 0 3
  let s := s.setCell 0 3 (s.cell 1 3)
  let s := s.setCell 1 3 (s.cell 2 3)
  let s := s.setCell 2 3 (s.cell 3 3)
  s.setCell 3 3 temp

theorem invShiftRows_cell (s : State) (i j : Fin 4) :
    (invShiftRows s).cell i j = s.cell (i - j) j := by
  fin_cases i <;> fin_cases j <;> simp [invShiftRows, State.cell_setCell] <;> rfl

/-! ## The cipher and its inverse -/

/-- `Cipher`. -/
def cipher (s : State) (roundKey : Vector Byte v.keyExpSize) : State :=
  let s := addRoundKey 0 s roundKey
  let s := forUp 1 v.nr (fun round s =>
    addRoundKey round (mixColumns (shiftRows (subBytes s))) roundKey) s
  addRoundKey v.nr (shiftRows (subBytes s)) roundKey

/-- `InvCipher`. -/
def invCipher (s : State) (roundKey : Vector Byte v.keyExpSize) : State :=
  let s := addRoundKey v.nr s roundKey
  let s := forDown (v.nr - 1) (fun round s =>
    invMixColumns (addRoundKey round (invSubBytes (invShiftRows s)) roundKey)) s
  addRoundKey 0 (invSubBytes (invShiftRows s)) roundKey

/-- `AES_ECB_encrypt`, on the block at `buf`. -/
def aesEcbEncrypt (ctx : AesCtx v) (m : Mem) (buf : ℕ) : Mem :=
  m.write buf (cipher (m.load buf 16) ctx.roundKey)

/-- `AES_ECB_decrypt`, on the block at `buf`. -/
def aesEcbDecrypt (ctx : AesCtx v) (m : Mem) (buf : ℕ) : Mem :=
  m.write buf (invCipher (m.load buf 16) ctx.roundKey)

end EmbeddedSystems.Aes
