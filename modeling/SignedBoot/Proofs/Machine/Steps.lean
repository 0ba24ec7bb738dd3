import Mathlib
import SignedBoot.Fault
import SignedBoot.Proofs.Bytes.Slices

/-!
# Steps of a machine

The functions of this library compute with numbers and lists of any size. A machine has numbers of
a width and memory areas of a length, so a step on it can be one that it cannot carry out. A run
then ends in a trap, which is neither a value nor a fault. The modules behind this one carry the
verifier out on such a machine and show that no run of it ends in a trap.
-/

namespace SignedBoot.Machine

variable {α β : Type}

/-- What the machine cannot do. -/
inductive Trap
  /-- An element or a range outside an area. -/
  | outOfRange
  /-- A copy between areas of different lengths. -/
  | lengthMismatch
  /-- A result that is no number of its type, because it is too large or below zero. -/
  | overflow
  /-- A shift by as many digits as the number has, or more. -/
  | shiftTooWide
deriving DecidableEq, Repr

/-- How a run ends. -/
inductive Run (α : Type)
  | value (a : α)
  | fault (f : Fault)
  | trap (t : Trap)

namespace Run

def andThen : Run α → (α → Run β) → Run β
  | value a, k => k a
  | fault f, _ => .fault f
  | trap t, _ => .trap t

instance : Monad Run where
  pure := value
  bind := andThen

/-- The run without a trap that has a given outcome. -/
def ofExcept : Except Fault α → Run α
  | .ok a => .value a
  | .error f => .fault f

/-- The outcome of a run as a value, for a step that goes on after a fault. -/
def attempt : Run α → Run (Except Fault α)
  | value a => .value (.ok a)
  | fault f => .value (.error f)
  | trap t => .trap t

/-- A run that answers every fault with the same one. -/
def orFault (f : Fault) : Run α → Run α
  | value a => .value a
  | fault _ => .fault f
  | trap t => .trap t

@[simp]
theorem value_bind (a : α) (k : α → Run β) : (.value a >>= k) = k a := rfl

@[simp]
theorem ofExcept_ok (a : α) : ofExcept (.ok a) = .value a := rfl

@[simp]
theorem ofExcept_error (f : Fault) : (ofExcept (.error f) : Run α) = .fault f := rfl

@[simp]
theorem attempt_ofExcept (x : Except Fault α) : (ofExcept x).attempt = .value x := by
  cases x <;> rfl

theorem ofExcept_ite (c : Prop) [Decidable c] (x y : Except Fault α) :
    ofExcept (if c then x else y) = if c then ofExcept x else ofExcept y :=
  apply_ite ofExcept c x y

/-- A check that both make with the same fault leaves what follows it. -/
theorem check_eq {c : Prop} [Decidable c] {f : Fault} {r : Run α} {x : Except Fault α}
    (h : ¬ c → r = ofExcept x) :
    (if c then .fault f else r) = ofExcept (if c then .error f else x) := by
  rw [ofExcept_ite]
  exact ite_congr rfl (fun _ => rfl) h

theorem ofExcept_bind (x : Except Fault α) (k : α → Except Fault β) :
    ofExcept (x >>= k) = ofExcept x >>= fun a => ofExcept (k a) := by
  cases x <;> rfl

theorem ofExcept_map (x : Except Fault α) (g : α → β) :
    ofExcept (x.map g) = ofExcept x >>= fun a => .value (g a) := by
  cases x <;> rfl

/-- A chain of steps gives what a chain of functions gives when its first step does and so does
what follows. -/
theorem bind_map_eq_map {γ δ : Type} {r : Run δ} {x : Except Fault γ} {e : γ → δ}
    {k : δ → Run β} {l : γ → Except Fault α} {g : α → β} (hr : r = ofExcept (x.map e))
    (h : ∀ a, x = .ok a → k (e a) = ofExcept ((l a).map g)) :
    (r >>= k) = ofExcept ((x >>= l).map g) := by
  subst hr
  cases x with
  | error f => rfl
  | ok a => exact h a rfl

theorem bind_eq_map {γ : Type} {r : Run γ} {x : Except Fault γ} {k : γ → Run β}
    {l : γ → Except Fault α} {g : α → β} (hr : r = ofExcept x)
    (h : ∀ a, x = .ok a → k a = ofExcept ((l a).map g)) :
    (r >>= k) = ofExcept ((x >>= l).map g) :=
  bind_map_eq_map (e := id) (by rw [hr, Except.map_id, id]) h

theorem guard_eq_map {c : Prop} [Decidable c] {f : Fault} {r : Run β}
    {k : Unit → Except Fault α} {g : α → β} (h : ¬ c → r = ofExcept ((k ()).map g)) :
    (if c then .fault f else r) = ofExcept ((if c then throw f >>= k else k ()).map g) := by
  rw [apply_ite (Except.map g)]
  exact check_eq h

/-- The machine carries a function out when a run gives what the function gives, and then it does
not end in a trap. -/
structure CarriesOut (r : Run α) (x : Except Fault α) : Prop where
  eq_ofExcept : r = ofExcept x
  ne_trap : ∀ t, r ≠ .trap t

theorem CarriesOut.of_eq {r : Run α} {x : Except Fault α} (h : r = ofExcept x) :
    r.CarriesOut x := by
  subst h
  refine ⟨rfl, fun t => ?_⟩
  cases x <;> simp

end Run

/-! ### Memory areas -/

/-- The element at a position of an area. -/
def elementAt (l : List α) (i : Nat) : Run α :=
  match l[i]? with
  | some a => .value a
  | none => .trap .outOfRange

/-- The part of an area from one position up to another. -/
def range (l : List α) (start stop : Nat) : Run (List α) :=
  if start ≤ stop ∧ stop ≤ l.length then .value ((l.drop start).take (stop - start))
  else .trap .outOfRange

def rangeTo (l : List α) (stop : Nat) : Run (List α) := range l 0 stop

def rangeFrom (l : List α) (start : Nat) : Run (List α) := range l start l.length

def splitAt (l : List α) (n : Nat) : Run (List α × List α) :=
  if n ≤ l.length then .value (l.take n, l.drop n) else .trap .outOfRange

/-- What an area holds after another one was copied onto it. -/
def copy (target source : List α) : Run (List α) :=
  if target.length = source.length then .value source else .trap .lengthMismatch

/-- A copy onto a part of an area. -/
def write (target : List α) (start stop : Nat) (source : List α) : Run (List α) := do
  let part ← range target start stop
  let part ← copy part source
  .value (target.take start ++ (part ++ target.drop stop))

/-- A copy onto a block. -/
def copyBlock (n : Nat) (source : Bytes) : Run (Block n) :=
  if h : source.length = n then .value ⟨source, h⟩ else .trap .lengthMismatch

theorem elementAt_eq {l : List α} {i : Nat} {a : α} (h : l[i]? = some a) :
    elementAt l i = .value a := by
  rw [elementAt, h]

theorem range_eq {l : List α} {start stop : Nat} (hle : start ≤ stop) (h : stop ≤ l.length) :
    range l start stop = .value ((l.drop start).take (stop - start)) :=
  if_pos ⟨hle, h⟩

theorem rangeTo_eq {l : List α} {stop : Nat} (h : stop ≤ l.length) :
    rangeTo l stop = .value (l.take stop) :=
  range_eq (Nat.zero_le stop) h

theorem rangeTo_append (l rest : List α) : rangeTo (l ++ rest) l.length = .value l := by
  rw [rangeTo_eq (List.length_append.ge.trans' (Nat.le_add_right _ _)), List.take_left]

theorem rangeFrom_eq {l : List α} {start : Nat} (h : start ≤ l.length) :
    rangeFrom l start = .value (l.drop start) := by
  rw [rangeFrom, range_eq h le_rfl, ← List.length_drop, List.take_length]

theorem splitAt_eq {l : List α} {n : Nat} (h : n ≤ l.length) :
    splitAt l n = .value (l.take n, l.drop n) :=
  if_pos h

theorem copy_eq {target source : List α} (h : target.length = source.length) :
    copy target source = .value source :=
  if_pos h

theorem write_eq {target source : List α} {start stop : Nat} (hle : start ≤ stop)
    (h : stop ≤ target.length) (hsource : source.length = stop - start) :
    write target start stop source =
      .value (target.take start ++ (source ++ target.drop stop)) := by
  have hpart : ((target.drop start).take (stop - start)).length = source.length := by
    rw [hsource, List.length_take, List.length_drop]
    omega
  rw [write, range_eq hle h, Run.value_bind, copy_eq hpart, Run.value_bind]

theorem write_front {target source : List α} {n : Nat} (hsource : source.length = n)
    (h : n ≤ target.length) : write target 0 n source = .value (source ++ target.drop n) := by
  rw [write_eq (Nat.zero_le n) h hsource, List.take_zero, List.nil_append]

theorem copyBlock_eq {n : Nat} (b : Block n) : copyBlock n b.bytes = .value b :=
  dif_pos b.length_bytes

/-! ### Numbers -/

/-- A sum among the numbers below a limit. -/
def add (limit a b : Nat) : Run Nat :=
  if a + b < limit then .value (a + b) else .trap .overflow

def mul (limit a b : Nat) : Run Nat :=
  if a * b < limit then .value (a * b) else .trap .overflow

def sub (a b : Nat) : Run Nat :=
  if b ≤ a then .value (a - b) else .trap .overflow

def shiftRight (x : UInt8) (n : Nat) : Run UInt8 :=
  if n < 8 then .value (x >>> UInt8.ofNat n) else .trap .shiftTooWide

theorem add_eq {limit a b : Nat} (h : a + b < limit) : add limit a b = .value (a + b) := if_pos h

theorem mul_eq {limit a b : Nat} (h : a * b < limit) : mul limit a b = .value (a * b) := if_pos h

theorem sub_eq {a b : Nat} (h : b ≤ a) : sub a b = .value (a - b) := if_pos h

theorem sub_eq_of_add_eq {a b c : Nat} (h : c + b = a) : sub a b = .value c := by
  rw [sub_eq (by omega)]
  congr 1
  omega

theorem shiftRight_eq {x : UInt8} {n : Nat} (h : n < 8) :
    shiftRight x n = .value (x >>> UInt8.ofNat n) := if_pos h

/-- The numbers that count octets in memory. Every word is one of them. -/
structure AddressSpace where
  size : Nat
  two_pow_le : 2 ^ 32 ≤ size

end SignedBoot.Machine
