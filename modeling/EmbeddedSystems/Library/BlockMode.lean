import Mathlib

/-!
# Modes of operation

A mode of operation extends a block cipher to sequences: it transforms a
sequence of elements in place, `B` of them to a block, and carries a state (the
initial vector, the counter) from one call to the next (`BlockMode`). Its laws
say that a call depends on nothing but its input and that a call can be split at
the end of any block, so that

* a call on two buffers, the first of whole blocks, is a call on one and then on
  the other (`run_append`);
* where a mode undoes another (`Inverts`), it recovers the input of every call
  and keeps the same state (`run_run`).

The modes are cipher block chaining, in its two directions, and the counter
mode, over any block cipher `E` with inverse `D`.
-/

namespace EmbeddedSystems

variable {σ α β : Type*} {B : ℕ}

/-! ## Blocks of a sequence -/

/-- The block `j` of a sequence. -/
def blockOf (B : ℕ) (d : ℕ → β) (j : ℕ) : Vector β B := Vector.ofFn fun i => d (B * j + i)

theorem blockOf_congr {d d' : ℕ → β} {n j : ℕ} (h : ∀ k < B * n, d k = d' k) (hj : j < n) :
    blockOf B d j = blockOf B d' j := by
  have hlt : B * j + B ≤ B * n := Nat.mul_le_mul_left B hj
  ext i hi : 1
  rw [blockOf, blockOf, Vector.getElem_ofFn, Vector.getElem_ofFn, h _ (by omega)]

theorem blockOf_add (d : ℕ → β) (n j : ℕ) :
    blockOf B d (n + j) = blockOf B (fun k => d (B * n + k)) j := by
  ext i hi : 1
  rw [blockOf, blockOf, Vector.getElem_ofFn, Vector.getElem_ofFn, Nat.mul_add, Nat.add_assoc]

section Flatten

variable [NeZero B]

/-- The elements of a sequence of blocks. -/
def flatten (c : ℕ → Vector β B) (k : ℕ) : β :=
  (c (k / B)).get ⟨k % B, Nat.mod_lt k (NeZero.pos B)⟩

theorem flatten_add (c : ℕ → Vector β B) (n k : ℕ) :
    flatten c (B * n + k) = flatten (fun j => c (n + j)) k := by
  simp only [flatten, Nat.mul_add_div (NeZero.pos B), Nat.mul_add_mod]

theorem flatten_mul_add (c : ℕ → Vector β B) (n : ℕ) (i : Fin B) :
    flatten c (B * n + i) = (c n).get i := by
  rw [flatten_add]
  simp only [flatten, Nat.div_eq_of_lt i.isLt, Nat.mod_eq_of_lt i.isLt, Nat.add_zero]

theorem blockOf_flatten (c : ℕ → Vector β B) : blockOf B (flatten c) = c := by
  funext j
  ext i hi : 1
  rw [blockOf, Vector.getElem_ofFn]
  exact flatten_mul_add c j ⟨i, hi⟩

theorem flatten_blockOf (d : ℕ → β) : flatten (blockOf B d) = d := by
  funext k
  rw [flatten, blockOf, Vector.get_eq_getElem, Vector.getElem_ofFn, Nat.div_add_mod]

theorem flatten_congr {c c' : ℕ → Vector β B} {n k : ℕ} (h : ∀ j < n, c j = c' j)
    (hk : k < B * n) : flatten c k = flatten c' k := by
  rw [flatten, flatten, h _ (Nat.div_lt_of_lt_mul hk)]

theorem mul_add_pred_div (n : ℕ) : (B * n + (B - 1)) / B = n := by
  rw [Nat.mul_add_div (NeZero.pos B), Nat.div_eq_of_lt (Nat.sub_lt (NeZero.pos B) one_pos),
    Nat.add_zero]

end Flatten

/-! ## Modes -/

/-- A mode of operation on blocks of `B` elements. A call takes a state and a
    sequence of elements, whose length must be a multiple of `unit`. -/
structure BlockMode (σ β : Type*) (B : ℕ) where
  /-- What the lengths of the calls are multiples of. -/
  unit : ℕ
  unit_dvd : unit ∣ B
  /-- The elements of the output. -/
  out : σ → (ℕ → β) → ℕ → β
  /-- The state after a call on the given number of elements. -/
  next : σ → (ℕ → β) → ℕ → σ
  out_congr : ∀ {s d d' n}, unit ∣ n → (∀ k < n, d k = d' k) → ∀ k < n, out s d k = out s d' k
  next_congr : ∀ {s d d' n}, unit ∣ n → (∀ k < n, d k = d' k) → next s d n = next s d' n
  out_add : ∀ s d n k, out s d (B * n + k) = out (next s d (B * n)) (fun i => d (B * n + i)) k
  next_add : ∀ s d n k, next s d (B * n + k) = next (next s d (B * n)) (fun i => d (B * n + i)) k

namespace BlockMode

variable [Inhabited β] (M N : BlockMode σ β B)

/-- A call on a buffer: the state it leaves and the output. -/
def run (s : σ) (l : List β) : σ × List β :=
  (M.next s (fun k => l[k]!) l.length, (List.range l.length).map (M.out s fun k => l[k]!))

theorem length_run (s : σ) (l : List β) : (M.run s l).2.length = l.length := by
  rw [run, List.length_map, List.length_range]

theorem getElem_run (s : σ) (l : List β) {k : ℕ} (hk : k < (M.run s l).2.length) :
    (M.run s l).2[k] = M.out s (fun k => l[k]!) k := by
  simp only [run, List.getElem_map, List.getElem_range]

/-- Splitting at the end of a block is invisible. -/
theorem run_append (s : σ) {a : List β} (ha : B ∣ a.length) (b : List β) :
    M.run s (a ++ b) = ((M.run (M.run s a).1 b).1, (M.run s a).2 ++ (M.run (M.run s a).1 b).2) := by
  obtain ⟨n, hn⟩ := ha
  have hunit : M.unit ∣ B * n := M.unit_dvd.mul_right n
  have hfirst : ∀ k < B * n, (a ++ b)[k]! = a[k]! := by
    intro k hk
    rw [List.getElem!_eq_getElem?_getD, List.getElem?_append_left (hn ▸ hk),
      List.getElem!_eq_getElem?_getD]
  have hsecond : (fun k => (a ++ b)[B * n + k]!) = fun k => b[k]! := by
    funext k
    rw [List.getElem!_eq_getElem?_getD, ← hn, List.getElem?_append_right (Nat.le_add_right _ k),
      Nat.add_sub_cancel_left, List.getElem!_eq_getElem?_getD]
  have hnext : M.next s (fun k => (a ++ b)[k]!) (B * n) = (M.run s a).1 := by
    rw [M.next_congr hunit hfirst, run, hn]
  have hout : ∀ k, M.out s (fun k => (a ++ b)[k]!) (B * n + k) =
      M.out (M.run s a).1 (fun k => b[k]!) k := by
    intro k
    rw [M.out_add, hnext, hsecond]
  refine Prod.ext ?_ ?_
  · rw [run, List.length_append, hn, M.next_add, hnext, hsecond]
    rfl
  · have hmap : (List.range (B * n)).map (M.out s fun k => (a ++ b)[k]!) =
        (List.range (B * n)).map (M.out s fun k => a[k]!) :=
      List.map_congr_left fun k hk => M.out_congr hunit hfirst k (List.mem_range.1 hk)
    rw [run, List.length_append, hn, List.range_add, List.map_append, List.map_map, hmap]
    simp only [run, hn, Function.comp_def, hout]

/-- The mode `N` undoes the mode `M`: it recovers the input, and ends in the same state. -/
structure Inverts : Prop where
  unit : N.unit = M.unit
  out : ∀ s d n, M.unit ∣ n → ∀ k < n, N.out s (M.out s d) k = d k
  next : ∀ s d n, M.unit ∣ n → N.next s (M.out s d) n = M.next s d n

theorem run_run {M N : BlockMode σ β B} (h : M.Inverts N) (s : σ) {l : List β}
    (hl : M.unit ∣ l.length) : N.run s (M.run s l).2 = ((M.run s l).1, l) := by
  have hunit : N.unit ∣ l.length := h.unit ▸ hl
  have hdata : ∀ k < l.length, (M.run s l).2[k]! = M.out s (fun k => l[k]!) k := by
    intro k hk
    rw [getElem!_pos _ k (by rwa [length_run]), getElem_run]
  refine Prod.ext ?_ (List.ext_getElem ?_ fun k hk (hk' : k < l.length) => ?_)
  · rw [run, length_run, N.next_congr hunit hdata, h.next _ _ _ hl]
    rfl
  · rw [length_run, length_run]
  · rw [getElem_run, N.out_congr hunit hdata k hk', h.out _ _ _ hl k hk', getElem!_pos l k hk']

end BlockMode

/-! ## Cipher block chaining -/

section Cbc

variable (op : α → α → α) (E D : α → α)

/-- The blocks `C₀, C₁, …` of a chain: `C₀ = iv` and `C_{j+1} = E (P_j ⊕ C_j)`, for the
    blocks `P₀, P₁, …` of the input. -/
def chain (iv : α) (p : ℕ → α) : ℕ → α
  | 0 => iv
  | j + 1 => E (op (p j) (chain iv p j))

/-- The block before the block `j` of a ciphertext: the initial vector before the first. -/
def before (iv : α) (c : ℕ → α) : ℕ → α
  | 0 => iv
  | j + 1 => c j

/-- The block `j` of the plaintext of a ciphertext. -/
def unchain (iv : α) (c : ℕ → α) (j : ℕ) : α := op (D (c j)) (before iv c j)

theorem chain_congr {iv : α} {p p' : ℕ → α} {n : ℕ} (h : ∀ j < n, p j = p' j) :
    ∀ j ≤ n, chain op E iv p j = chain op E iv p' j := by
  intro j
  induction j with
  | zero => exact fun _ => rfl
  | succ j ih => exact fun hj => by rw [chain, chain, h j hj, ih (Nat.le_of_succ_le hj)]

theorem chain_add (iv : α) (p : ℕ → α) (n j : ℕ) :
    chain op E iv p (n + j) = chain op E (chain op E iv p n) (fun i => p (n + i)) j := by
  induction j with
  | zero => rfl
  | succ j ih => rw [← Nat.add_assoc, chain, ih, chain]

theorem before_congr {iv : α} {c c' : ℕ → α} {n : ℕ} (h : ∀ j < n, c j = c' j) :
    ∀ j ≤ n, before iv c j = before iv c' j := by
  rintro (_ | j) hj
  · rfl
  · exact h j hj

theorem before_add (iv : α) (c : ℕ → α) (n j : ℕ) :
    before iv c (n + j) = before (before iv c n) (fun i => c (n + i)) j := by
  cases j <;> rfl

theorem before_chain (iv : α) (p : ℕ → α) (j : ℕ) :
    before iv (fun i => chain op E iv p (i + 1)) j = chain op E iv p j := by
  cases j <;> rfl

theorem unchain_congr {iv : α} {c c' : ℕ → α} {n : ℕ} (h : ∀ j < n, c j = c' j) :
    ∀ j < n, unchain op D iv c j = unchain op D iv c' j := by
  intro j hj
  rw [unchain, unchain, h j hj, before_congr h j hj.le]

theorem unchain_add (iv : α) (c : ℕ → α) (n j : ℕ) :
    unchain op D iv c (n + j) = unchain op D (before iv c n) (fun i => c (n + i)) j := by
  rw [unchain, unchain, before_add]

variable {op E D}

/-- Decrypting a chain recovers the input. -/
theorem unchain_chain (hop : ∀ a b, op (op a b) b = a) (hED : ∀ a, D (E a) = a) (iv : α)
    (p : ℕ → α) : unchain op D iv (fun i => chain op E iv p (i + 1)) = p := by
  funext j
  rw [unchain, before_chain, chain, hED, hop]

end Cbc

section Modes

variable [NeZero B] (op : Vector β B → Vector β B → Vector β B) (E D : Vector β B → Vector β B)

/-- Encryption by cipher block chaining. The state is the initial vector of the next call. -/
def cbcEncrypt : BlockMode (Vector β B) β B where
  unit := B
  unit_dvd := dvd_rfl
  out iv d := flatten fun j => chain op E iv (blockOf B d) (j + 1)
  next iv d n := chain op E iv (blockOf B d) (n / B)
  out_congr := by
    rintro iv d d' _ ⟨n, rfl⟩ h k hk
    exact flatten_congr (fun j hj => chain_congr op E (fun i => blockOf_congr h) (j + 1) hj) hk
  next_congr := by
    rintro iv d d' _ ⟨n, rfl⟩ h
    rw [Nat.mul_div_cancel_left n (NeZero.pos B)]
    exact chain_congr op E (fun i => blockOf_congr h) n le_rfl
  out_add iv d n k := by
    rw [Nat.mul_div_cancel_left n (NeZero.pos B), flatten_add]
    simp only [Nat.add_assoc, chain_add op E iv _ n, blockOf_add]
  next_add iv d n k := by
    rw [Nat.mul_div_cancel_left n (NeZero.pos B), Nat.mul_add_div (NeZero.pos B), chain_add]
    simp only [blockOf_add]

/-- Decryption by cipher block chaining. -/
def cbcDecrypt : BlockMode (Vector β B) β B where
  unit := B
  unit_dvd := dvd_rfl
  out iv c := flatten (unchain op D iv (blockOf B c))
  next iv c n := before iv (blockOf B c) (n / B)
  out_congr := by
    rintro iv c c' _ ⟨n, rfl⟩ h k hk
    exact flatten_congr (unchain_congr op D fun j => blockOf_congr h) hk
  next_congr := by
    rintro iv c c' _ ⟨n, rfl⟩ h
    rw [Nat.mul_div_cancel_left n (NeZero.pos B)]
    exact before_congr (fun j => blockOf_congr h) n le_rfl
  out_add iv c n k := by
    rw [Nat.mul_div_cancel_left n (NeZero.pos B), flatten_add]
    simp only [unchain_add op D iv _ n, blockOf_add]
  next_add iv c n k := by
    rw [Nat.mul_div_cancel_left n (NeZero.pos B), Nat.mul_add_div (NeZero.pos B), before_add]
    simp only [blockOf_add]

/-- The counter mode, with the operation `comb` on elements and the increment `inc` on counters.
    The state is the counter of the next block, and the last block of a call may be partial. -/
def counterMode (comb : β → β → β) (inc : Vector β B → Vector β B) :
    BlockMode (Vector β B) β B where
  unit := 1
  unit_dvd := one_dvd B
  out iv d k := comb (d k) (flatten (fun j => E (inc^[j] iv)) k)
  next iv _ n := inc^[(n + (B - 1)) / B] iv
  out_congr := by
    intro iv d d' n _ h k hk
    rw [h k hk]
  next_congr := fun _ _ => rfl
  out_add iv d n k := by
    rw [mul_add_pred_div, flatten_add]
    simp only [Nat.add_comm n, Function.iterate_add_apply]
  next_add iv d n k := by
    rw [mul_add_pred_div, Nat.add_assoc, Nat.mul_add_div (NeZero.pos B), Nat.add_comm n,
      Function.iterate_add_apply]

theorem cbcEncrypt_next_mul (iv : Vector β B) (d : ℕ → β) (n : ℕ) :
    (cbcEncrypt op E).next iv d (B * n) = chain op E iv (blockOf B d) n := by
  simp only [cbcEncrypt, Nat.mul_div_cancel_left n (NeZero.pos B)]

theorem cbcDecrypt_next_mul (iv : Vector β B) (c : ℕ → β) (n : ℕ) :
    (cbcDecrypt op D).next iv c (B * n) = before iv (blockOf B c) n := by
  simp only [cbcDecrypt, Nat.mul_div_cancel_left n (NeZero.pos B)]

variable {op E D}

theorem cbcEncrypt_inverts (hop : ∀ a b, op (op a b) b = a) (hED : ∀ a, D (E a) = a) :
    (cbcEncrypt op E).Inverts (cbcDecrypt op D) where
  unit := rfl
  out iv d _ _ k _ := by
    simp only [cbcEncrypt, cbcDecrypt, blockOf_flatten, unchain_chain hop hED, flatten_blockOf]
  next iv d n _ := by
    simp only [cbcEncrypt, cbcDecrypt, blockOf_flatten, before_chain]

theorem counterMode_inverts {comb : β → β → β} {inc : Vector β B → Vector β B}
    (hcomb : ∀ a b, comb (comb a b) b = a) :
    BlockMode.Inverts (counterMode E comb inc) (counterMode E comb inc) where
  unit := rfl
  out _ _ _ _ _ _ := hcomb _ _
  next _ _ _ _ := rfl

end Modes
end EmbeddedSystems
