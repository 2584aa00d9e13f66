import EmbeddedSystems.Library.BitScan
import EmbeddedSystems.Library.RoundRobin

/-!
# The arbitrator of the interconnect

The modules `altera_merlin_arbitrator` and `altera_merlin_arb_adder`, for any
number of requesters. The requests are doubled, and the sum of their complement and
the priority, which has one bit, isolates the first request from the priority on.
The adder is a chain of full adders up to four requesters, and a carry chain from
then on; both add (`arbAdder_eq`).

With the scheme "round-robin", and a priority with the bit `p`, the grant has the one
bit of the first requester in the circle, from `p` on (`grant_iff`). In the runs the
register is the pipelined one (`PIPELINE = 1`), which keeps a priority with one bit
(`run_oneHot`): that of the place behind the last winner, the requester granted at the
last update with a request. So in every run the grant goes to the first requester of
the rotation that starts behind the last winner (`one_grant`), and one that keeps
requesting is passed over fewer than `NUM_REQUESTERS` times (`passed_over`).

The register `last_grant`, which is never used, is left out.
-/

namespace EmbeddedSystems.HostSystem.Arbitrator

open RoundRobin

/-! ## The adder -/

section Adder

variable {w : ℕ}

/-- The wires `cout`. -/
def cout (a b : BitVec w) : (i : ℕ) → Bool
  | 0 => a.getLsbD 0 && b.getLsbD 0
  | i + 1 => (a.getLsbD (i + 1) && b.getLsbD (i + 1)) ||
      (cout a b i && (a.getLsbD (i + 1) ^^ b.getLsbD (i + 1)))

/-- The output `sum` of the block `full_adder`, bit by bit. -/
def sum (a b : BitVec w) : (i : ℕ) → Bool
  | 0 => a.getLsbD 0 ^^ b.getLsbD 0
  | i + 1 => (a.getLsbD (i + 1) ^^ b.getLsbD (i + 1)) ^^ cout a b i

/-- The module `altera_merlin_arb_adder`. -/
def arbAdder (a b : BitVec w) : BitVec w :=
  if w ≤ 8 then BitVec.ofFnLE fun i => sum a b i
  else (a.setWidth (w + 1) + b.setWidth (w + 1)).setWidth w

theorem cout_eq (a b : BitVec w) (i : ℕ) : cout a b i = BitVec.carry (i + 1) a b false := by
  induction i with
  | zero => simp [cout, BitVec.carry_succ, Bool.atLeastTwo]
  | succ i ih =>
    rw [cout, ih, BitVec.carry_succ (i + 1)]
    cases a.getLsbD (i + 1) <;> cases b.getLsbD (i + 1) <;>
      cases BitVec.carry (i + 1) a b false <;> rfl

theorem ofFnLE_sum (a b : BitVec w) : BitVec.ofFnLE (fun i : Fin w => sum a b i) = a + b := by
  apply BitVec.eq_of_getLsbD_eq
  intro i hi
  rw [BitVec.getLsbD_add hi, BitVec.getLsbD_ofFnLE, dif_pos hi]
  cases i with
  | zero => simp [sum]
  | succ i => simp [sum, cout_eq]

theorem arbAdder_eq (a b : BitVec w) : arbAdder a b = a + b := by
  rw [arbAdder]
  split_ifs
  · exact ofFnLE_sum a b
  · rw [BitVec.setWidth_add _ _ w.le_succ, BitVec.setWidth_setWidth_of_le _ w.le_succ,
      BitVec.setWidth_setWidth_of_le _ w.le_succ, BitVec.setWidth_eq, BitVec.setWidth_eq]

end Adder

/-! ## The module -/

/-- The parameter `SCHEME`. -/
inductive Scheme
  | roundRobin
  | fixedPriority
  | noArb
  deriving DecidableEq

/-- The inputs of the module. -/
structure Inp (n : ℕ) where
  request : BitVec n
  incrementTopPriority : Bool
  saveTopPriority : Bool

variable {n : ℕ}

/-- The wire `top_priority`. -/
def topPriority (scheme : Scheme) (topPriorityReg : BitVec n) : BitVec n :=
  if scheme = .roundRobin ∧ 1 < n then topPriorityReg else 1#n

/-- The wire `result`. -/
def result (scheme : Scheme) (request topPriorityReg : BitVec n) : BitVec (n + n) :=
  arbAdder (~~~request ++ ~~~request) (0#n ++ topPriority scheme topPriorityReg)

/-- The wire `grant_double_vector`. -/
def grantDoubleVector (scheme : Scheme) (request topPriorityReg : BitVec n) : BitVec (n + n) :=
  (request ++ request) &&& result scheme request topPriorityReg

/-- The output `grant`. -/
def grant (scheme : Scheme) (request topPriorityReg : BitVec n) : BitVec n :=
  if scheme = .noArb then request
  else (grantDoubleVector scheme request topPriorityReg).extractLsb' 0 n |||
    (grantDoubleVector scheme request topPriorityReg).extractLsb' n n

/-- The register `top_priority_reg` at a rising edge of the clock. -/
def clock (scheme : Scheme) (pipeline : Bool) (inp : Inp n) (topPriorityReg : BitVec n) :
    BitVec n :=
  let grant := grant scheme inp.request topPriorityReg
  if pipeline = true then
    if inp.incrementTopPriority = true then
      if inp.request ≠ 0#n then grant.rotateLeft 1 else topPriorityReg
    else topPriorityReg
  else if inp.incrementTopPriority = true then
    if inp.request ≠ 0#n then grant.rotateLeft 1 else topPriorityReg.rotateLeft 1
  else if inp.saveTopPriority = true then grant
  else topPriorityReg

/-- The register after a reset. -/
def resetState : BitVec n := 1#n

/-! ## The grant -/

/-- The requester `i` requests. -/
def Requests (request : BitVec n) (i : Fin n) : Prop := request.getLsbD i = true

/-- The vector with the one bit `p`. -/
def oneHot (p : Fin n) : BitVec n := BitVec.twoPow n p

variable {request : BitVec n} {p i : Fin n}

theorem getLsbD_oneHot (p i : Fin n) : (oneHot p).getLsbD i = true ↔ i = p := by
  rw [oneHot, BitVec.getLsbD_twoPow, decide_eq_true p.isLt, Bool.true_and, decide_eq_true_iff,
    Fin.val_inj, eq_comm]

theorem oneHot_injective : Function.Injective (oneHot (n := n)) := fun i j h =>
  (getLsbD_oneHot j i).1 (h ▸ (getLsbD_oneHot i i).2 rfl)

theorem eq_oneHot (h : ∀ i : Fin n, request.getLsbD i = true ↔ i = p) : request = oneHot p := by
  apply BitVec.eq_of_getLsbD_eq
  intro i hi
  rw [Bool.eq_iff_iff, h ⟨i, hi⟩, getLsbD_oneHot p ⟨i, hi⟩]

theorem not_requests_zero (i : Fin n) : ¬Requests 0#n i := by
  simp [Requests]

theorem exists_requests (h : request ≠ 0#n) : ∃ i, Requests request i := by
  by_contra hall
  refine h (BitVec.eq_of_getLsbD_eq fun i hi => ?_)
  rw [Bool.eq_false_iff.2 fun hbit => hall ⟨⟨i, hi⟩, hbit⟩]
  exact BitVec.getLsbD_zero.symm

/-- The doubled requests, at the places from `p` on. -/
theorem getLsbD_append_ahead (request : BitVec n) (p i : Fin n) :
    (request ++ request).getLsbD (p + ahead p i) = request.getLsbD i := by
  rw [BitVec.getLsbD_append, ahead_eq]
  rcases le_or_gt p.val i.val with hle | hgt
  · rw [if_pos hle, Nat.add_sub_cancel' hle, if_pos i.isLt]
  · have hplace : p.val + (n + i.val - p.val) = n + i.val := by omega
    rw [if_neg (not_le.2 hgt), hplace, if_neg (by simp), Nat.add_sub_cancel_left]

theorem grantDoubleVector_eq (hn : 1 < n) (request : BitVec n) (p : Fin n) :
    grantDoubleVector .roundRobin request (oneHot p) =
      (request ++ request) &&& (~~~(request ++ request) + BitVec.twoPow (n + n) p) := by
  have hone : 0#n ++ oneHot p = BitVec.twoPow (n + n) p := by
    apply BitVec.eq_of_getLsbD_eq
    intro j hj
    rw [BitVec.getLsbD_append, oneHot, BitVec.getLsbD_twoPow, BitVec.getLsbD_twoPow,
      BitVec.getLsbD_zero]
    have hp := p.isLt
    split_ifs <;> grind
  rw [grantDoubleVector, result, arbAdder_eq, topPriority, if_pos ⟨rfl, hn⟩, hone,
    BitVec.not_append]

theorem getLsbD_grantDoubleVector (hn : 1 < n) (request : BitVec n) (p i : Fin n) :
    (grantDoubleVector .roundRobin request (oneHot p)).getLsbD (p + ahead p i) = true ↔
      IsNext (Requests request) p i := by
  rw [grantDoubleVector_eq hn, BitScan.getLsbD_and_not_add_twoPow _ (p.isLt.trans_le (by simp)),
    getLsbD_append_ahead]
  refine and_congr_right fun _ => ⟨fun h j hj => ?_, fun h => ⟨Nat.le_add_right _ _, ?_⟩⟩
  · by_contra hlt
    have hfalse := h.2 (p + ahead p j) (Nat.le_add_right _ _)
      (Nat.add_lt_add_left (not_le.1 hlt) _)
    rw [getLsbD_append_ahead] at hfalse
    exact Bool.eq_false_iff.1 hfalse hj
  · intro m hpm hm
    -- The place `m` is the one of a requester that comes before `i`.
    rcases Nat.exists_eq_add_of_le hpm with ⟨d, rfl⟩
    have hd := Nat.lt_of_add_lt_add_left hm
    rcases exists_ahead_eq p (hd.trans (ahead_lt p i)) with ⟨j, rfl⟩
    rw [getLsbD_append_ahead, Bool.eq_false_iff]
    exact fun hj => absurd (h j hj) (not_le.2 hd)

/-- Only one half of the doubled grants can have the bit of a requester: the one in which it
    comes from the priority on. -/
theorem getLsbD_grant (hn : 1 < n) (request : BitVec n) (p i : Fin n) :
    (grant .roundRobin request (oneHot p)).getLsbD i =
      (grantDoubleVector .roundRobin request (oneHot p)).getLsbD (p + ahead p i) := by
  have hlt : p.val < n + n := p.isLt.trans_le (by simp)
  rw [grant, if_neg (by decide), BitVec.getLsbD_or, BitVec.getLsbD_extractLsb',
    BitVec.getLsbD_extractLsb', decide_eq_true i.isLt, Bool.true_and, Bool.true_and, zero_add]
  rcases le_or_gt p.val i.val with hle | hgt
  · have hplace : p.val + ahead p i = i := by
      rw [ahead_eq, if_pos hle, Nat.add_sub_cancel' hle]
    have hhigh : (grantDoubleVector .roundRobin request (oneHot p)).getLsbD (n + i) = false := by
      rw [grantDoubleVector_eq hn, Bool.eq_false_iff, ne_eq,
        BitScan.getLsbD_and_not_add_twoPow _ hlt]
      rintro ⟨hbit, -, hall⟩
      have hfalse := hall i hle (Nat.lt_add_of_pos_left (by omega))
      rw [BitVec.getLsbD_append, if_neg (by simp), Nat.add_sub_cancel_left] at hbit
      rw [BitVec.getLsbD_append, if_pos i.isLt, hbit] at hfalse
      exact Bool.false_ne_true hfalse.symm
    rw [hhigh, Bool.or_false, hplace]
  · have hplace : p.val + ahead p i = n + i := by
      rw [ahead_eq, if_neg (not_le.2 hgt)]
      omega
    have hlow : (grantDoubleVector .roundRobin request (oneHot p)).getLsbD i = false := by
      rw [grantDoubleVector_eq hn, Bool.eq_false_iff, ne_eq,
        BitScan.getLsbD_and_not_add_twoPow _ hlt]
      exact fun h => absurd h.2.1 (not_le.2 hgt)
    rw [hlow, Bool.false_or, hplace]

/-- The grant goes to the first requester in the circle, from the priority on. -/
theorem grant_iff (hn : 1 < n) (request : BitVec n) (p i : Fin n) :
    (grant .roundRobin request (oneHot p)).getLsbD i = true ↔ IsNext (Requests request) p i := by
  rw [getLsbD_grant hn, getLsbD_grantDoubleVector hn]

theorem grant_eq (hn : 1 < n) (h : IsNext (Requests request) p i) :
    grant .roundRobin request (oneHot p) = oneHot i :=
  eq_oneHot fun j => by
    rw [grant_iff hn]
    exact ⟨fun hj => hj.unique h, fun hj => hj ▸ h⟩

theorem grant_zero (hn : 1 < n) (p : Fin n) : grant .roundRobin 0#n (oneHot p) = 0#n := by
  apply BitVec.eq_of_getLsbD_eq
  intro i hi
  rw [Bool.eq_iff_iff, grant_iff hn 0#n p ⟨i, hi⟩]
  exact iff_of_false (fun h => not_requests_zero _ h.1) (not_requests_zero ⟨i, hi⟩)

/-! ## The priority -/

section

variable [NeZero n]

theorem rotateLeft_oneHot (hn : 1 < n) (i : Fin n) : (oneHot i).rotateLeft 1 = oneHot (i + 1) := by
  refine eq_oneHot fun j => ?_
  have hi := i.isLt
  have hj := j.isLt
  rw [BitVec.getLsbD_rotateLeft, Nat.mod_eq_of_lt hn, Fin.ext_iff, Fin.val_add_eq_ite,
    Fin.val_one', Nat.mod_eq_of_lt hn]
  rcases Nat.eq_zero_or_pos j.val with hzero | hpos
  · rw [hzero, decide_eq_true Nat.zero_lt_one, cond_true, oneHot, BitVec.getLsbD_twoPow,
      decide_eq_true hi, Bool.true_and, decide_eq_true_iff]
    rcases Nat.lt_or_ge (i.val + 1) n with hlt | hge
    · rw [if_neg (not_le.2 hlt)]
      omega
    · rw [if_pos hge]
      omega
  · rw [decide_eq_false (not_lt.2 hpos), cond_false, decide_eq_true hj, Bool.true_and, oneHot,
      BitVec.getLsbD_twoPow, decide_eq_true hi, Bool.true_and, decide_eq_true_iff]
    rcases Nat.lt_or_ge (i.val + 1) n with hlt | hge
    · rw [if_neg (not_le.2 hlt)]
      omega
    · rw [if_pos hge]
      omega

theorem resetState_eq (n : ℕ) [NeZero n] : (resetState : BitVec n) = oneHot 0 := by
  rw [oneHot, Fin.val_zero, BitVec.twoPow_zero]
  rfl

/-- What the pipelined register does: at an update with a request the priority goes to the place
    behind the requester that is granted, and otherwise it stays. -/
theorem clock_cases (hn : 1 < n) (inp : Inp n) (p : Fin n) :
    (∃ i, inp.incrementTopPriority = true ∧ IsNext (Requests inp.request) p i ∧
      clock .roundRobin true inp (oneHot p) = oneHot (i + 1)) ∨
    ((inp.incrementTopPriority = false ∨ inp.request = 0#n) ∧
      clock .roundRobin true inp (oneHot p) = oneHot p) := by
  rw [clock, if_pos rfl]
  split_ifs with hinc hreq
  · rcases exists_isNext p (exists_requests hreq) with ⟨i, hi⟩
    exact Or.inl ⟨i, hinc, hi, by rw [grant_eq hn hi, rotateLeft_oneHot hn]⟩
  · exact Or.inr ⟨Or.inr (not_not.1 hreq), rfl⟩
  · exact Or.inr ⟨Or.inl (Bool.eq_false_iff.2 hinc), rfl⟩

end

/-! ## Runs -/

/-- The register before the rising edge `t` of the clock, from the reset on. -/
def run (ω : ℕ → Inp n) : ℕ → BitVec n
  | 0 => resetState
  | t + 1 => clock .roundRobin true (ω t) (run ω t)

/-- The output `grant` before the rising edge `t`. -/
def grantAt (ω : ℕ → Inp n) (t : ℕ) : BitVec n := grant .roundRobin (ω t).request (run ω t)

/-- The grants at the updates of the priority, in the `d` edges from `t` on. -/
def grants (ω : ℕ → Inp n) (t : ℕ) : (d : ℕ) → List (BitVec n)
  | 0 => []
  | d + 1 =>
    if (ω t).incrementTopPriority = true then grantAt ω t :: grants ω (t + 1) d
    else grants ω (t + 1) d

/-- The requester `i` is granted at an update of the priority, at the edge `t`. -/
def Wins (ω : ℕ → Inp n) (t : ℕ) (i : Fin n) : Prop :=
  (ω t).incrementTopPriority = true ∧ Requests (grantAt ω t) i

/-- The requester `w` has won before the edge `t`, and nobody since. -/
def LastWinner (ω : ℕ → Inp n) (t : ℕ) (w : Fin n) : Prop :=
  ∃ u < t, Wins ω u w ∧ ∀ v, u < v → v < t → ∀ i, ¬Wins ω v i

variable [NeZero n] {ω : ℕ → Inp n} {t d : ℕ} {k : Fin n}

theorem run_oneHot (hn : 1 < n) (ω : ℕ → Inp n) (t : ℕ) : ∃ p, run ω t = oneHot p := by
  induction t with
  | zero => exact ⟨0, resetState_eq n⟩
  | succ t ih =>
    rcases ih with ⟨p, hp⟩
    rw [run, hp]
    rcases clock_cases hn (ω t) p with ⟨i, -, -, hi⟩ | ⟨-, hstay⟩
    · exact ⟨i + 1, hi⟩
    · exact ⟨p, hstay⟩

omit [NeZero n] in
theorem requests_grantAt_iff (hn : 1 < n) {p : Fin n} (hp : run ω t = oneHot p) (i : Fin n) :
    Requests (grantAt ω t) i ↔ IsNext (Requests (ω t).request) p i := by
  rw [Requests, grantAt, hp, grant_iff hn]

/-- After a win the priority is at the place behind the winner. -/
theorem run_of_wins (hn : 1 < n) {i : Fin n} (h : Wins ω t i) :
    run ω (t + 1) = oneHot (i + 1) := by
  obtain ⟨p, hp⟩ := run_oneHot hn ω t
  obtain ⟨hinc, hgrant⟩ := h
  have hi := (requests_grantAt_iff hn hp i).1 hgrant
  rw [run, hp]
  obtain ⟨j, -, hj, hnext⟩ | ⟨hquiet, -⟩ := clock_cases hn (ω t) p
  · rw [hnext, hj.unique hi]
  · -- There is an update, and a request.
    obtain hinc' | hzero := hquiet
    · exact absurd (hinc.symm.trans hinc') Bool.true_eq_false.mp
    · exact absurd (hzero ▸ hi.1) (not_requests_zero i)

/-- As long as nobody wins, the priority stays where it is. -/
theorem run_of_not_wins (hn : 1 < n) {u : ℕ} (hut : u ≤ t)
    (h : ∀ v, u ≤ v → v < t → ∀ i, ¬Wins ω v i) : run ω t = run ω u := by
  induction t, hut using Nat.le_induction with
  | base => rfl
  | succ t hut ih =>
    have hstay := ih fun v hv hvt => h v hv (Nat.lt_succ_of_lt hvt)
    obtain ⟨p, hp⟩ := run_oneHot hn ω t
    rw [← hstay, run, hp]
    obtain ⟨i, hinc, hi, -⟩ | ⟨-, hclock⟩ := clock_cases hn (ω t) p
    · exact absurd ⟨hinc, (requests_grantAt_iff hn hp i).2 hi⟩ (h t hut t.lt_succ_self i)
    · exact hclock

theorem run_of_lastWinner (hn : 1 < n) {w : Fin n} (h : LastWinner ω t w) :
    run ω t = oneHot (w + 1) := by
  obtain ⟨u, hut, hwins, hnone⟩ := h
  rw [run_of_not_wins hn hut hnone, run_of_wins hn hwins]

/-- In every run the grant goes to the first requester of the rotation that starts behind the last
    winner, and with the requester 0 while nobody has won; there is one whenever somebody
    requests. -/
theorem one_grant (hn : 1 < n) (ω : ℕ → Inp n) (t : ℕ) :
    (∀ w, LastWinner ω t w → ∀ i,
        Requests (grantAt ω t) i ↔ IsNext (Requests (ω t).request) (w + 1) i) ∧
      ((∀ u < t, ∀ i, ¬Wins ω u i) → ∀ i,
        Requests (grantAt ω t) i ↔ IsNext (Requests (ω t).request) 0 i) ∧
      ((ω t).request ≠ 0#n → ∃! i, Requests (grantAt ω t) i) := by
  refine ⟨fun w hw => requests_grantAt_iff hn (run_of_lastWinner hn hw), fun hnone => ?_,
    fun hreq => ?_⟩
  · have hstart : run ω t = oneHot 0 := by
      rw [run_of_not_wins hn t.zero_le fun v _ => hnone v, run, resetState_eq]
    exact requests_grantAt_iff hn hstart
  · obtain ⟨p, hp⟩ := run_oneHot hn ω t
    obtain ⟨i, hi⟩ := exists_isNext p (exists_requests hreq)
    refine ⟨i, (requests_grantAt_iff hn hp i).2 hi, fun j hj => ?_⟩
    exact ((requests_grantAt_iff hn hp j).1 hj).unique hi

/-- Of five requesters the first three request at every edge; the priority is updated at the
    first two. -/
def threeOfFive : ℕ → Inp 5
  | 0 | 1 => ⟨0b00111, true, false⟩
  | _ => ⟨0b00111, false, false⟩

theorem lastWinner_threeOfFive : LastWinner threeOfFive 3 1 := by
  have hgrant : (grantAt threeOfFive 1).getLsbD 1 = true := by decide
  refine ⟨1, by decide, ⟨rfl, hgrant⟩, fun v h₁ h₂ i hwins => ?_⟩
  obtain rfl : v = 2 := by omega
  exact absurd hwins.1 (by decide)

theorem one_grant_five :
    (∀ i, Requests (grantAt threeOfFive 0) i ↔ IsNext (Requests 0b00111) 0 i) ∧
      (∀ i, Requests (grantAt threeOfFive 3) i ↔ IsNext (Requests 0b00111) 2 i) ∧
      (∃! i, Requests (grantAt threeOfFive 3) i) ∧ Requests (grantAt threeOfFive 3) 2 :=
  ⟨(one_grant (by decide) threeOfFive 0).2.1 fun u hu => absurd hu u.not_lt_zero,
    (one_grant (by decide) threeOfFive 3).1 1 lastWinner_threeOfFive,
    (one_grant (by decide) threeOfFive 3).2.2 (by decide),
    ((one_grant (by decide) threeOfFive 3).1 1 lastWinner_threeOfFive 2).2
      ⟨rfl, fun j _ => Nat.zero_le (ahead 2 j)⟩⟩

/-- Whoever is granted while `k` requests passes `k` over. -/
theorem passedOver_grants (hn : 1 < n) {p : Fin n} (hp : run ω t = oneHot p)
    (hreq : ∀ u, t ≤ u → u < t + d → Requests (ω u).request k)
    (hpassed : oneHot k ∉ grants ω t d) :
    ∃ l q, PassedOver k p l q ∧ grants ω t d = l.map oneHot := by
  induction d generalizing t p with
  | zero => exact ⟨[], p, .nil p, rfl⟩
  | succ d ih =>
    have hk : Requests (ω t).request k := hreq t le_rfl (by omega)
    have hlater : ∀ u, t + 1 ≤ u → u < t + 1 + d → Requests (ω u).request k :=
      fun u hu hd => hreq u (by omega) (by omega)
    rw [grants] at hpassed ⊢
    rcases clock_cases hn (ω t) p with ⟨i, hinc, hi, hnext⟩ | ⟨hquiet, hstay⟩
    · have hgrant : grantAt ω t = oneHot i := by rw [grantAt, hp, grant_eq hn hi]
      rw [if_pos hinc, hgrant, List.mem_cons, not_or] at hpassed
      rcases ih (by rw [run, hp, hnext]) hlater hpassed.2 with ⟨l, q, hl, hgrants⟩
      refine ⟨i :: l, q, .cons hi hk (fun heq => hpassed.1 (congrArg oneHot heq.symm)) hl, ?_⟩
      rw [if_pos hinc, hgrant, hgrants, List.map_cons]
    · -- There is a request, so that nothing is updated.
      have hinc : ¬(ω t).incrementTopPriority = true := by
        rcases hquiet with hinc | hzero
        · rw [hinc]
          exact Bool.false_ne_true
        · exact absurd (hzero ▸ hk) (not_requests_zero k)
      rw [if_neg hinc] at hpassed ⊢
      exact ih (by rw [run, hp, hstay]) hlater hpassed

/-- A requester that keeps requesting is passed over fewer than `NUM_REQUESTERS` times in a row,
    and never twice by the same one. -/
theorem passed_over (hn : 1 < n) (ω : ℕ → Inp n) (t d : ℕ) (k : Fin n)
    (hreq : ∀ u, t ≤ u → u < t + d → Requests (ω u).request k)
    (hpassed : oneHot k ∉ grants ω t d) :
    (grants ω t d).length < n ∧ (grants ω t d).Nodup := by
  rcases run_oneHot hn ω t with ⟨p, hp⟩
  rcases passedOver_grants hn hp hreq hpassed with ⟨l, q, hl, hgrants⟩
  rw [hgrants, List.length_map]
  exact ⟨hl.length_lt, hl.nodup.map oneHot_injective⟩

theorem passed_over_four :
    (grants (fun _ => (⟨15, true, false⟩ : Inp 4)) 0 3).length < 4 ∧
      (grants (fun _ => (⟨15, true, false⟩ : Inp 4)) 0 3).Nodup :=
  passed_over (by decide) (fun _ => ⟨15, true, false⟩) 0 3 3 (fun _ _ _ => rfl) (by decide)

end EmbeddedSystems.HostSystem.Arbitrator
