import SignedBoot.Bytes.Basic

/-!
# Positional numerals over octets

Words of the container stand in little-endian order, RSA integers in big-endian order. Main
statements: writing a number in `k` octets and reading it back keeps it modulo the number of byte
strings of `k` octets (`leValue_le`, `beValue_be`), and every byte string is the numeral of its
own value (`le_leValue`, `be_beValue`).
-/

namespace SignedBoot

def le : (k : Nat) → (v : Nat) → Bytes
  | 0, _ => []
  | k + 1, v => UInt8.ofNat v :: le k (v / 256)

def leValue : Bytes → Nat
  | [] => 0
  | x :: rest => x.toNat + 256 * leValue rest

def be (k v : Nat) : Bytes := (le k v).reverse

def beValue (b : Bytes) : Nat := b.foldl (fun v x => 256 * v + x.toNat) 0

def octetRange : (k : Nat) → Nat
  | 0 => 1
  | k + 1 => 256 * octetRange k

@[simp]
theorem length_le (k v : Nat) : (le k v).length = k := by
  induction k generalizing v with
  | zero => rfl
  | succ k ih => simp [le, ih]

theorem leValue_le (k v : Nat) : leValue (le k v) = v % octetRange k := by
  induction k generalizing v with
  | zero => simp [le, leValue, octetRange, Nat.mod_one]
  | succ k ih =>
    have h : (UInt8.ofNat v).toNat = v % 256 := by simp
    simp only [le, leValue, ih, h, octetRange, Nat.mod_mul]

theorem le_leValue (b : Bytes) : le b.length (leValue b) = b := by
  induction b with
  | nil => rfl
  | cons x rest ih =>
    have hx : x.toNat < 256 := x.toNat_lt
    have hq : (x.toNat + 256 * leValue rest) / 256 = leValue rest := by omega
    have hr : UInt8.ofNat (x.toNat + 256 * leValue rest) = x := by
      apply UInt8.toNat_inj.mp
      simp
    simp [le, leValue, hq, hr, ih]

theorem leValue_lt (b : Bytes) : leValue b < octetRange b.length := by
  induction b with
  | nil => simp [leValue, octetRange]
  | cons x rest ih =>
    have hx : x.toNat < 256 := x.toNat_lt
    simp only [leValue, List.length_cons, octetRange]
    omega

theorem leValue_append (a b : Bytes) :
    leValue (a ++ b) = leValue a + octetRange a.length * leValue b := by
  induction a with
  | nil => simp [leValue, octetRange]
  | cons x rest ih =>
    simp only [List.cons_append, leValue, ih, List.length_cons, octetRange]
    rw [Nat.mul_add, Nat.mul_assoc]
    omega

@[simp]
theorem length_be (k v : Nat) : (be k v).length = k := by simp [be]

def beBlock (k v : Nat) : Block k := ⟨be k v, length_be k v⟩

theorem beValue_eq (b : Bytes) : beValue b = leValue b.reverse := by
  suffices h : ∀ v, b.foldl (fun v x => 256 * v + x.toNat) v
      = leValue b.reverse + octetRange b.length * v by
    simpa [beValue] using h 0
  induction b with
  | nil => simp [leValue, octetRange]
  | cons x rest ih =>
    intro v
    simp only [List.foldl_cons, ih, List.reverse_cons, leValue_append, leValue, List.length_reverse,
      List.length_cons, octetRange, Nat.mul_add, Nat.mul_zero, Nat.add_zero]
    have h : octetRange rest.length * (256 * v) = 256 * octetRange rest.length * v := by
      rw [Nat.mul_comm 256 (octetRange rest.length), Nat.mul_assoc]
    omega

theorem beValue_be (k v : Nat) : beValue (be k v) = v % octetRange k := by
  simp [beValue_eq, be, leValue_le]

theorem be_beValue (b : Bytes) : be b.length (beValue b) = b := by
  have h := le_leValue b.reverse
  rw [List.length_reverse] at h
  simp [be, beValue_eq, h]

theorem beValue_lt (b : Bytes) : beValue b < octetRange b.length := by
  simpa [beValue_eq] using leValue_lt b.reverse

/-- The number of binary digits of `n`; zero has none. -/
def bitLength (n : Nat) : Nat := if n = 0 then 0 else n.log2 + 1

/-- The number of octets in the shortest big-endian numeral of `n`. -/
def octetLength (n : Nat) : Nat := (bitLength n + 7) / 8

end SignedBoot
