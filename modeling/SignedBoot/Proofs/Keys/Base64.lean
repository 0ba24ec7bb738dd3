import Mathlib
import SignedBoot.Proofs.Powers
import SignedBoot.Text.Base64

/-!
# Writing base64 text

Three octets are written as four digits, and one or two octets at the end are padded. What is
written is read back (`Base64.decode?_encode`).
-/

namespace SignedBoot.Base64

/-- The digit of a number below 64. -/
def digit (n : Nat) : UInt8 :=
  if n < 26 then 0x41 + UInt8.ofNat n
  else if n < 52 then 0x61 + UInt8.ofNat (n - 26)
  else if n < 62 then 0x30 + UInt8.ofNat (n - 52)
  else if n = 62 then 0x2b
  else 0x2f

/-- The last digits of a number, the highest of them first. -/
def digits : (count v : Nat) → Bytes
  | 0, _ => []
  | count + 1, v => digits count (v / 64) ++ [digit (v % 64)]

def encode : Bytes → Bytes
  | [] => []
  | [a] => digits 2 (16 * beValue [a]) ++ [pad, pad]
  | [a, b] => digits 3 (4 * beValue [a, b]) ++ [pad]
  | a :: b :: c :: rest => digits 4 (beValue [a, b, c]) ++ encode rest

/-! ### Digits -/

theorem digit_spec : ∀ n < 64, digitValue? (digit n) = some n ∧ digit n ≠ pad ∧
    0x2b ≤ digit n ∧ digit n ≤ 0x7a := by
  decide +kernel

theorem value?_digits {count v : Nat} (h : v < 64 ^ count) : value? (digits count v) = some v := by
  induction count generalizing v with
  | zero =>
    rw [pow_zero, Nat.lt_one_iff] at h
    rw [h]
    rfl
  | succ count ih =>
    have hq : v / 64 < 64 ^ count := Nat.div_lt_of_lt_mul (by rwa [← pow_succ'])
    have hlast := (digit_spec (v % 64) (Nat.mod_lt v (by decide))).1
    have hfront := ih hq
    rw [value?] at hfront
    rw [digits, value?, List.foldlM_append, hfront]
    simp only [List.foldlM_cons, List.foldlM_nil, hlast, Option.map_some, Option.bind_eq_bind,
      Option.bind_some, Option.pure_def, Nat.div_add_mod]

/-- Each digit is one of those between a plus sign and the last letter, and no padding. -/
theorem mem_digits {count v : Nat} {x : UInt8} (h : x ∈ digits count v) :
    x ≠ pad ∧ 0x2b ≤ x ∧ x ≤ 0x7a := by
  induction count generalizing v with
  | zero => cases h
  | succ count ih =>
    rcases List.mem_append.mp h with h | h
    · exact ih h
    · rw [List.mem_singleton.mp h]
      exact (digit_spec (v % 64) (Nat.mod_lt v (by decide))).2

/-- The digits of octets and of the zero bits that are left over give the octets back. -/
theorem octets?_digits (b : Bytes) (leftover : Nat)
    (h : leftover * 256 ^ b.length = 64 ^ (b.length + 1)) :
    (value? (digits (b.length + 1) (leftover * beValue b)) >>= octets? b.length leftover) =
      some b := by
  have hpos : 0 < leftover := by
    refine Nat.pos_of_ne_zero fun hzero => ?_
    rw [hzero, Nat.zero_mul] at h
    exact (Nat.pow_pos (by decide)).ne h
  have hlt : leftover * beValue b < 64 ^ (b.length + 1) := by
    rw [← h, ← octetRange_eq]
    exact Nat.mul_lt_mul_of_pos_left (beValue_lt b) hpos
  rw [value?_digits hlt, Option.bind_eq_bind, Option.bind_some, octets?,
    if_pos (Nat.mul_mod_right _ _), Nat.mul_div_cancel_left _ hpos, be_beValue]

/-! ### Texts -/

theorem mem_encode {b : Bytes} {x : UInt8} (h : x ∈ encode b) : 0x2b ≤ x ∧ x ≤ 0x7a := by
  have hpad : 0x2b ≤ pad ∧ pad ≤ 0x7a := by decide
  fun_induction encode b with
  | case1 => cases h
  | case2 a =>
    rcases List.mem_append.mp h with h | h
    · exact (mem_digits h).2
    · simp only [List.mem_cons, List.not_mem_nil, or_false, or_self] at h
      rw [h]
      exact hpad
  | case3 a b =>
    rcases List.mem_append.mp h with h | h
    · exact (mem_digits h).2
    · rw [List.mem_singleton.mp h]
      exact hpad
  | case4 a b c rest ih =>
    rcases List.mem_append.mp h with h | h
    · exact (mem_digits h).2
    · exact ih h

theorem decode?_encode (b : Bytes) : decode? (encode b) = some b := by
  fun_induction encode b with
  | case1 => rfl
  | case2 a =>
    obtain ⟨w, x, hdigits⟩ : ∃ w x, digits 2 (16 * beValue [a]) = [w, x] := ⟨_, _, rfl⟩
    have hoctets := octets?_digits [a] 16 (by simp)
    simp only [List.length_singleton, hdigits] at hoctets
    rw [hdigits]
    simpa only [List.cons_append, List.nil_append, decode?, last?, ne_eq, not_true_eq_false,
      if_false] using hoctets
  | case3 a b =>
    obtain ⟨w, x, y, hdigits⟩ : ∃ w x y, digits 3 (4 * beValue [a, b]) = [w, x, y] :=
      ⟨_, _, _, rfl⟩
    have hy : y ≠ pad := by
      refine (@mem_digits 3 (4 * beValue [a, b]) y ?_).1
      rw [hdigits]
      simp
    have hoctets := octets?_digits [a, b] 4 (by simp)
    simp only [List.length_cons, List.length_nil, hdigits] at hoctets
    rw [hdigits]
    simpa only [List.cons_append, List.nil_append, decode?, last?, ne_eq, not_true_eq_false,
      if_false, hy, not_false_eq_true, if_true] using hoctets
  | case4 a b c rest ih =>
    obtain ⟨w, x, y, z, hdigits⟩ : ∃ w x y z, digits 4 (beValue [a, b, c]) = [w, x, y, z] :=
      ⟨_, _, _, _, rfl⟩
    have hz : z ≠ pad := by
      refine (@mem_digits 4 (beValue [a, b, c]) z ?_).1
      rw [hdigits]
      simp
    have hoctets := octets?_digits [a, b, c] 1 (by simp)
    simp only [List.length_cons, List.length_nil, Nat.one_mul, hdigits] at hoctets
    rw [hdigits]
    -- four digits with nothing behind them are read by the rule for the last quantum
    cases hencode : encode rest with
    | nil =>
      rw [hencode] at ih
      obtain rfl := Option.some.inj ih
      simpa only [List.cons_append, List.nil_append, decode?, last?, ne_eq, hz, not_false_eq_true,
        if_true] using hoctets
    | cons d more =>
      rw [hencode] at ih
      obtain ⟨v, hvalue, hoctets⟩ := Option.bind_eq_some_iff.mp hoctets
      have happend : [w, x, y, z] ++ d :: more = w :: x :: y :: z :: d :: more := rfl
      rw [happend, decode?, hvalue, ih]
      · simp only [Option.bind_eq_bind, Option.bind_some, hoctets]
        rfl
      · exact List.cons_ne_nil d more

end SignedBoot.Base64
