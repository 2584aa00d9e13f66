import Mathlib

/-!
# Byte memory

The memory a C function sees through a pointer: a byte at every address
(`Mem`), with the accesses of a program to it:

* `store`: one byte;
* `load`, `write`: an array of bytes of fixed size, as `memcpy` and a cast of
  the pointer to an array type move it;
* `load32`, `store32`: a 32-bit word, in little-endian layout;
* `bytes`, `writeList`: a buffer whose length is only known at run time.

There are no bounds in such a memory; `storeBytes` stores into an array that has
them.

A write is characterised by what it stores (`load_write_self`) and by its
frame, the addresses it leaves alone (`write_apply_of_not_mem`). What a loop
over a buffer leaves behind is a memory filled with a sequence of bytes
(`fill`), which grows by a byte or an array at a time (`fill_succ`,
`fill_write`).
-/

namespace EmbeddedSystems

abbrev Byte := BitVec 8

-- The numbers of bytes in a word, of bits in a byte and of bytes in a block are not zero:
-- declared once for the literals of these index types in all modules.
instance neZeroFour : NeZero 4 := ⟨by decide⟩
instance neZeroEight : NeZero 8 := ⟨by decide⟩
instance neZeroSixteen : NeZero 16 := ⟨by decide⟩

/-- Bytewise exclusive or of arrays. -/
instance {n : ℕ} : XorOp (Vector Byte n) := ⟨fun a b => Vector.zipWith (· ^^^ ·) a b⟩

@[simp]
theorem getElem_xor {n : ℕ} (a b : Vector Byte n) (i : ℕ) (hi : i < n) :
    (a ^^^ b)[i] = a[i] ^^^ b[i] :=
  Vector.getElem_zipWith hi

theorem xor_xor_cancel {n : ℕ} (a b : Vector Byte n) : a ^^^ b ^^^ b = a := by
  ext i hi : 1
  rw [getElem_xor, getElem_xor, BitVec.xor_assoc, BitVec.xor_self, BitVec.xor_zero]

theorem getElem!_set! {α : Type*} [Inhabited α] {n : ℕ} (a : Vector α n) (k x : ℕ) (b : α) :
    (a.set! k b)[x]! = if k = x ∧ x < n then b else a[x]! := by
  by_cases hx : x < n
  · rw [getElem!_pos (a.set! k b) x hx, getElem!_pos a x hx, Vector.getElem_set!]
    simp [hx]
  · rw [getElem!_neg (a.set! k b) x hx, getElem!_neg a x hx, if_neg fun h => hx h.2]

/-- The bytes of a list, stored one by one from the index `i` on into an array of `n` bytes. A
    store out of its range fails. -/
def storeBytes {n : ℕ} (s : Vector Byte n) (i : ℕ) : List Byte → Option (Vector Byte n)
  | [] => some s
  | b :: l => if h : i < n then storeBytes (s.set i b) (i + 1) l else none

theorem storeBytes_eq_none_iff {n : ℕ} (s : Vector Byte n) (i : ℕ) (l : List Byte) :
    storeBytes s i l = none ↔ n < i + l.length ∧ l ≠ [] := by
  induction l generalizing s i with
  | nil => simp [storeBytes]
  | cons b l ih =>
    rw [storeBytes]
    split_ifs with h
    · rw [ih, List.length_cons]
      cases l <;> simp <;> omega
    · simp only [List.length_cons, true_iff]
      exact ⟨by omega, List.cons_ne_nil b l⟩

/-- A memory: the byte at every address. -/
abbrev Mem := ℕ → Byte

namespace Mem

variable {n k : ℕ} (m : Mem)

/-- `*(uint8_t *)a = b`. -/
def store (a : ℕ) (b : Byte) : Mem := fun x => if x = a then b else m x

/-- The array of `n` bytes at the address `a`. -/
def load (a : ℕ) (n : ℕ) : Vector Byte n := Vector.ofFn fun i => m (a + i)

/-- The memory after writing the array `v` at the address `a`. -/
def write (a : ℕ) (v : Vector Byte n) : Mem := fun x =>
  if h : a ≤ x ∧ x - a < n then v.get ⟨x - a, h.2⟩ else m x

/-- The buffer of `len` bytes at the address `a`. -/
def bytes (a : ℕ) (len : ℕ) : List Byte := (List.range len).map fun k => m (a + k)

/-! ## Stores of one byte -/

@[simp]
theorem store_self (a : ℕ) (b : Byte) : m.store a b a = b := if_pos rfl

theorem store_of_ne {a x : ℕ} (h : x ≠ a) (b : Byte) : m.store a b x = m x := if_neg h

/-! ## Arrays -/

variable {m}

@[simp]
theorem getElem_load (a : ℕ) (i : ℕ) (hi : i < n) : (m.load a n)[i] = m (a + i) := by
  rw [load, Vector.getElem_ofFn]

theorem write_apply_add (a : ℕ) (v : Vector Byte n) {i : ℕ} (hi : i < n) :
    m.write a v (a + i) = v[i] := by
  simp [write, hi, Vector.get_eq_getElem]

theorem write_apply_of_not_mem {a x : ℕ} {v : Vector Byte n} (h : x < a ∨ a + n ≤ x) :
    m.write a v x = m x := by
  have hx : ¬(a ≤ x ∧ x - a < n) := by omega
  exact dif_neg hx

@[simp]
theorem load_write_self (a : ℕ) (v : Vector Byte n) : (m.write a v).load a n = v := by
  ext i hi : 1
  rw [getElem_load, write_apply_add a v hi]

theorem load_congr {m' : Mem} {a : ℕ} (h : ∀ i < n, m' (a + i) = m (a + i)) :
    m'.load a n = m.load a n := by
  ext i hi : 1
  rw [getElem_load, getElem_load, h i hi]

@[simp]
theorem write_write_self (a : ℕ) (v v' : Vector Byte n) :
    (m.write a v).write a v' = m.write a v' := by
  funext x
  by_cases h : a ≤ x ∧ x - a < n <;> simp [write, h]

@[simp]
theorem write_load (a : ℕ) : m.write a (m.load a n) = m := by
  funext x
  by_cases h : a ≤ x ∧ x - a < n <;> simp [write, h, Vector.get_eq_getElem]

/-! ## Buffers -/

@[simp]
theorem length_bytes (a : ℕ) (len : ℕ) : (m.bytes a len).length = len := by simp [bytes]

@[simp]
theorem getElem_bytes (a : ℕ) {len k : ℕ} (hk : k < (m.bytes a len).length) :
    (m.bytes a len)[k] = m (a + k) := by
  simp [bytes]

theorem bytes_eq_iff {a len : ℕ} {l : List Byte} (hl : l.length = len) :
    m.bytes a len = l ↔ ∀ k (hk : k < l.length), m (a + k) = l[k] := by
  constructor
  · rintro rfl k hk
    rw [getElem_bytes]
  · intro h
    refine List.ext_getElem (by simp [hl]) fun k hk hk' => ?_
    rw [getElem_bytes, h k hk']

theorem bytes_eq_map (m : Mem) (a len : ℕ) :
    m.bytes a len = (List.range len).map fun k => m (a + k) := rfl

/-! ## Filling -/

/-- The memory with the byte `f k` at the address `a + k`, for every `k < len`. -/
def fill (m : Mem) (a len : ℕ) (f : ℕ → Byte) : Mem := fun x =>
  if a ≤ x ∧ x < a + len then f (x - a) else m x

theorem fill_apply_add {a len k : ℕ} (f : ℕ → Byte) (hk : k < len) :
    m.fill a len f (a + k) = f k := by
  simp [fill, hk]

theorem fill_apply_of_not_mem {a len x : ℕ} {f : ℕ → Byte} (h : x < a ∨ a + len ≤ x) :
    m.fill a len f x = m x := by
  have hx : ¬(a ≤ x ∧ x < a + len) := by omega
  exact if_neg hx

@[simp]
theorem fill_zero (a : ℕ) (f : ℕ → Byte) : m.fill a 0 f = m := by
  funext x
  exact fill_apply_of_not_mem (by omega)

theorem fill_succ (a len : ℕ) (f : ℕ → Byte) :
    m.fill a (len + 1) f = (m.fill a len f).store (a + len) (f len) := by
  funext x
  rcases eq_or_ne x (a + len) with rfl | hx
  · rw [store_self, fill_apply_add f (Nat.lt_succ_self len)]
  · have hiff : a ≤ x ∧ x < a + (len + 1) ↔ a ≤ x ∧ x < a + len := by omega
    simp only [store_of_ne _ hx, fill, hiff]

/-- Writing an array at the end of what is filled. -/
theorem fill_write {a len : ℕ} {f : ℕ → Byte} {v : Vector Byte n}
    (h : ∀ i : Fin n, v.get i = f (len + i)) :
    (m.fill a len f).write (a + len) v = m.fill a (len + n) f := by
  funext x
  by_cases hx : a + len ≤ x ∧ x < a + len + n
  · obtain ⟨i, rfl⟩ := Nat.exists_eq_add_of_le hx.1
    have hi : i < n := by omega
    rw [write_apply_add _ _ hi, Nat.add_assoc a len i, fill_apply_add f (by omega)]
    exact h ⟨i, hi⟩
  · have hiff : a ≤ x ∧ x < a + (len + n) ↔ a ≤ x ∧ x < a + len := by omega
    have hout : x < a + len ∨ a + len + n ≤ x := by omega
    simp only [write_apply_of_not_mem hout, fill, hiff]

theorem fill_eq_write (a : ℕ) (v : Vector Byte n) : m.fill a n (fun k => v[k]!) = m.write a v := by
  have hget : ∀ i : Fin n, v.get i = v[0 + i.val]! := fun i => by
    rw [Nat.zero_add, getElem!_pos v i.val i.isLt, Vector.get_eq_getElem]
  have hwrite := fill_write (m := m) (a := a) (f := fun k => v[k]!) hget
  rw [fill_zero, Nat.add_zero, Nat.zero_add] at hwrite
  exact hwrite.symm

theorem bytes_fill (a len : ℕ) (f : ℕ → Byte) :
    (m.fill a len f).bytes a len = (List.range len).map f := by
  refine List.map_congr_left fun k hk => ?_
  exact fill_apply_add f (List.mem_range.1 hk)

theorem load_fill_of_le {a len c : ℕ} {f : ℕ → Byte} (h : a + len ≤ c) :
    (m.fill a len f).load c n = m.load c n :=
  load_congr fun i _ => fill_apply_of_not_mem (by omega)

/-- The memory after copying the bytes `l` to the address `a`. -/
def writeList (m : Mem) (a : ℕ) (l : List Byte) : Mem := m.fill a l.length fun k => l[k]!

theorem writeList_apply_add {a k : ℕ} {l : List Byte} (hk : k < l.length) :
    m.writeList a l (a + k) = l[k]! :=
  fill_apply_add _ hk

theorem bytes_writeList (a : ℕ) (l : List Byte) : (m.writeList a l).bytes a l.length = l := by
  rw [bytes_eq_iff rfl]
  intro k hk
  rw [writeList_apply_add hk, getElem!_pos l k hk]

theorem writeList_apply_of_not_mem {a x : ℕ} {l : List Byte} (h : x < a ∨ a + l.length ≤ x) :
    m.writeList a l x = m x :=
  fill_apply_of_not_mem h

/-- A write may be done byte by byte. -/
theorem writeList_cons (m : Mem) (a : ℕ) (b : Byte) (l : List Byte) :
    m.writeList a (b :: l) = (m.store a b).writeList (a + 1) l := by
  funext x
  by_cases hx : a ≤ x ∧ x < a + (b :: l).length
  · obtain ⟨k, rfl⟩ := Nat.exists_eq_add_of_le hx.1
    have hk : k < (b :: l).length := by omega
    rw [writeList_apply_add hk]
    cases k with
    | zero =>
      change b = (m.store a b).writeList (a + 1) l a
      rw [writeList_apply_of_not_mem (Or.inl (Nat.lt_add_one a)), store_self]
    | succ k =>
      have hadd : a + (k + 1) = a + 1 + k := by omega
      rw [hadd, writeList_apply_add (Nat.lt_of_succ_lt_succ hk)]
      rfl
  · rw [List.length_cons] at hx
    rw [writeList_apply_of_not_mem (by rw [List.length_cons]; omega),
      writeList_apply_of_not_mem (by omega), store_of_ne _ (by omega)]

/-- Replacing the first of the bytes that were written. -/
theorem store_writeList_cons (m : Mem) (a : ℕ) (b b' : Byte) (l : List Byte) :
    (m.writeList a (b :: l)).store a b' = m.writeList a (b' :: l) := by
  funext x
  rw [writeList_cons, writeList_cons]
  rcases eq_or_ne x a with rfl | hx
  · rw [store_self, writeList_apply_of_not_mem (Or.inl (Nat.lt_add_one x)), store_self]
  · rw [store_of_ne _ hx]
    simp only [writeList, fill, store_of_ne _ hx]

/-- Writes to different places may be done in any order. -/
theorem writeList_comm {m : Mem} {a a' : ℕ} {l l' : List Byte}
    (h : a + l.length ≤ a' ∨ a' + l'.length ≤ a) :
    (m.writeList a l).writeList a' l' = (m.writeList a' l').writeList a l := by
  funext x
  simp only [writeList, fill]
  split_ifs <;> first | rfl | omega

theorem load_writeList_bytes (m m' : Mem) (a c n : ℕ) :
    (m'.writeList c (m.bytes a n)).load c n = m.load a n := by
  ext i hi : 1
  have hlt : i < (m.bytes a n).length := by rwa [length_bytes]
  rw [getElem_load, getElem_load, writeList_apply_add hlt, getElem!_pos _ i hlt, getElem_bytes]

theorem bytes_eq_of_load_eq {m m' : Mem} {a c n : ℕ} (h : m'.load c n = m.load a n) :
    m'.bytes c n = m.bytes a n := by
  refine List.map_congr_left fun k hk => ?_
  have hlt : k < n := List.mem_range.1 hk
  have hget : (m'.load c n)[k] = (m.load a n)[k] := by rw [h]
  rwa [getElem_load, getElem_load] at hget

/-! ## Words -/

/-- The 32-bit word at the address `a`, its lowest byte first. -/
def load32 (m : Mem) (a : ℕ) : BitVec 32 := m (a + 3) ++ m (a + 2) ++ m (a + 1) ++ m a

/-- The four bytes of a word, lowest first. -/
def littleEndian (w : BitVec 32) : Vector Byte 4 :=
  #v[w.extractLsb' 0 8, w.extractLsb' 8 8, w.extractLsb' 16 8, w.extractLsb' 24 8]

/-- The memory after storing the word `w` at the address `a`, its lowest byte first. -/
def store32 (m : Mem) (a : ℕ) (w : BitVec 32) : Mem := m.write a (littleEndian w)

theorem load32_congr {m m' : Mem} {a : ℕ} (h : ∀ i < 4, m' (a + i) = m (a + i)) :
    m'.load32 a = m.load32 a := by
  have h₀ : m' a = m a := h 0 (by decide)
  rw [load32, load32, h 3 (by decide), h 2 (by decide), h 1 (by decide), h₀]

theorem load32_write_of_disjoint {a c : ℕ} {v : Vector Byte n} (h : c + 4 ≤ a ∨ a + n ≤ c) :
    (m.write a v).load32 c = m.load32 c :=
  load32_congr fun i hi => write_apply_of_not_mem (by omega)

theorem load32_store32_self (m : Mem) (a : ℕ) (w : BitVec 32) : (m.store32 a w).load32 a = w := by
  have hbyte : ∀ (i : ℕ) (hi : i < 4), m.store32 a w (a + i) = (littleEndian w)[i] := fun _ hi =>
    write_apply_add a _ hi
  have h₀ : m.store32 a w a = (littleEndian w)[0] := hbyte 0 (by decide)
  rw [load32, hbyte 3 (by decide), hbyte 2 (by decide), hbyte 1 (by decide), h₀]
  change w.extractLsb' 24 8 ++ w.extractLsb' 16 8 ++ w.extractLsb' 8 8 ++ w.extractLsb' 0 8 = w
  rw [BitVec.extractLsb'_append_extractLsb'_eq_extractLsb' (by decide),
    BitVec.extractLsb'_append_extractLsb'_eq_extractLsb' (by decide),
    BitVec.extractLsb'_append_extractLsb'_eq_extractLsb' (by decide)]
  exact BitVec.extractLsb'_eq_self

end Mem

end EmbeddedSystems
