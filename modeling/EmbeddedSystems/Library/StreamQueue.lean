import Mathlib

/-!
# Queues on streams

A queue of bounded length between two streams with `valid` and `ready`: at every edge of
the clock, a value enters if the input is valid and the queue is ready, and the oldest
value leaves if there is one and the output is ready (`Config.next`). A queue with lookahead
also offers what is only about to enter; a queue of one place is ready while its value leaves.

What has entered is what has left, followed by what is in the queue (`run_append`), which
never holds more than its length (`length_next_le`).
-/

namespace EmbeddedSystems.StreamQueue

/-- The inputs of a queue, at an edge of the clock. -/
structure Inp (α : Type*) where
  inValid : Bool
  inData : α
  outReady : Bool

/-- The number of places is `last + 1`. -/
structure Config where
  last : ℕ
  lookahead : Bool

variable {α : Type*} {C : Config} {q : List α} {x : Inp α}

namespace Config

variable (C : Config) (q : List α) (x : Inp α)

def outValid : Bool := !q.isEmpty || (C.lookahead && x.inValid)

def outData : α := q.headD x.inData

def read : Bool := x.outReady && C.outValid q x

def inReady : Bool := decide (q.length < C.last + 1) || (C.last = 0 && C.read q x)

def write : Bool := C.inReady q x && x.inValid

/-- What enters at the edge. -/
def entered : List α := if C.write q x = true then [x.inData] else []

/-- What leaves at the edge. -/
def departed : List α := if C.read q x = true then [outData q x] else []

/-- The queue after the edge. -/
def next : List α :=
  if C.read q x = true then (q ++ C.entered q x).tail else q ++ C.entered q x

end Config

theorem write_of_lookahead (hread : C.read [] x = true) : C.write [] x = true := by
  rw [Config.read, Config.outValid, Bool.and_eq_true, List.isEmpty_nil, Bool.not_true,
    Bool.false_or, Bool.and_eq_true] at hread
  rw [Config.write, Config.inReady, hread.2.2, Bool.and_true, List.length_nil,
    decide_eq_true C.last.succ_pos, Bool.true_or]

/-- At an edge, nothing is lost and nothing is duplicated. -/
theorem append_entered (C : Config) (q : List α) (x : Inp α) :
    q ++ C.entered q x = C.departed q x ++ C.next q x := by
  rw [Config.departed, Config.next]
  split_ifs with hread
  · cases q with
    | nil =>
      rw [Config.entered, if_pos (write_of_lookahead hread)]
      rfl
    | cons a q => rfl
  · rfl

theorem length_next_le (hq : q.length ≤ C.last + 1) : (C.next q x).length ≤ C.last + 1 := by
  rw [Config.next, Config.entered]
  rcases Bool.eq_false_or_eq_true (C.read q x) with hread | hread
  · rw [if_pos hread, List.length_tail, List.length_append]
    split_ifs
    · exact hq
    · exact (Nat.sub_le _ _).trans hq
  · rw [hread, if_neg Bool.false_ne_true, List.length_append]
    split_ifs with hwrite
    · rw [Config.write, Config.inReady, hread, Bool.and_false, Bool.or_false, Bool.and_eq_true,
        decide_eq_true_iff] at hwrite
      exact hwrite.1
    · exact hq

/-! ## Runs -/

variable (C) (ω : ℕ → Inp α)

/-- The queue before the edge `t`, from empty on. -/
def run : ℕ → List α
  | 0 => []
  | t + 1 => C.next (run t) (ω t)

def enteredUpTo (t : ℕ) : List α := (List.range t).flatMap fun u => C.entered (run C ω u) (ω u)

def departedUpTo (t : ℕ) : List α := (List.range t).flatMap fun u => C.departed (run C ω u) (ω u)

variable {C ω} {t : ℕ}

theorem enteredUpTo_succ (C : Config) (ω : ℕ → Inp α) (t : ℕ) :
    enteredUpTo C ω (t + 1) = enteredUpTo C ω t ++ C.entered (run C ω t) (ω t) := by
  rw [enteredUpTo, List.range_succ, List.flatMap_append, List.flatMap_singleton]
  rfl

theorem departedUpTo_succ (C : Config) (ω : ℕ → Inp α) (t : ℕ) :
    departedUpTo C ω (t + 1) = departedUpTo C ω t ++ C.departed (run C ω t) (ω t) := by
  rw [departedUpTo, List.range_succ, List.flatMap_append, List.flatMap_singleton]
  rfl

theorem run_append (C : Config) (ω : ℕ → Inp α) (t : ℕ) :
    enteredUpTo C ω t = departedUpTo C ω t ++ run C ω t := by
  induction t with
  | zero => rfl
  | succ t ih =>
    rw [enteredUpTo_succ, departedUpTo_succ, ih, List.append_assoc, List.append_assoc,
      append_entered]
    rfl

end EmbeddedSystems.StreamQueue
