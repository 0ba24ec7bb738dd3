import Mathlib
import SignedBoot.Rsa.PrivateKey

/-!
# Powers behind the arithmetic

What the definitions compute digit by digit, said with powers: the number of byte strings of a
length (`octetRange_eq`), square and multiply (`powMod_eq`), and the root that a private key finds
(`pow_mod_of_root?`). Powers that are computed show a number one above a product of powers of two
and three to be prime (`prime_of_generator`).
-/

namespace SignedBoot

theorem octetRange_eq (k : Nat) : octetRange k = 256 ^ k := by
  induction k with
  | zero => rfl
  | succ k ih => rw [octetRange, ih, pow_succ']

theorem powModDigits_eq {b n digits e : Nat} (h : e < 2 ^ digits) :
    powModDigits b n digits e = b ^ e % n := by
  induction digits generalizing e with
  | zero =>
    have : e = 0 := by omega
    simp [powModDigits, this]
  | succ digits ih =>
    have he : e / 2 < 2 ^ digits := by rw [Nat.pow_succ] at h; omega
    have hs : b ^ (e / 2) * b ^ (e / 2) = b ^ (2 * (e / 2)) := by
      rw [← Nat.pow_add]
      congr 1
      omega
    simp only [powModDigits, ih he, Nat.mod_mul_mod, Nat.mul_mod_mod, hs]
    split
    · next h1 =>
      have : e = 2 * (e / 2) + 1 := by omega
      conv => rhs; rw [this, Nat.pow_succ]
    · next h1 =>
      have : e = 2 * (e / 2) := by omega
      conv => rhs; rw [this]

theorem powMod_eq (b e n : Nat) : powMod b e n = b ^ e % n := by
  rw [powMod, powModDigits_eq Nat.lt_log2_self, ← Nat.pow_mod]

theorem cast_pow_eq_one_iff {p : Nat} (hp : 1 < p) (g e : Nat) :
    (g : ZMod p) ^ e = 1 ↔ powMod g e p = 1 := by
  rw [← Nat.cast_pow, ← Nat.cast_one, ZMod.natCast_eq_natCast_iff', Nat.mod_eq_of_lt hp, powMod_eq]

/-- A base of full order among the residues shows that the modulus is prime. -/
theorem prime_of_generator (i j g : Nat) (hp : 1 < 2 ^ i * 3 ^ j + 1)
    (hone : powMod g (2 ^ i * 3 ^ j) (2 ^ i * 3 ^ j + 1) = 1)
    (htwo : powMod g (2 ^ i * 3 ^ j / 2) (2 ^ i * 3 ^ j + 1) ≠ 1)
    (hthree : powMod g (2 ^ i * 3 ^ j / 3) (2 ^ i * 3 ^ j + 1) ≠ 1) :
    (2 ^ i * 3 ^ j + 1).Prime := by
  refine lucas_primality _ (g : ZMod (2 ^ i * 3 ^ j + 1)) ?_ ?_
  · rw [Nat.add_sub_cancel, cast_pow_eq_one_iff hp]
    exact hone
  · intro r hr hdvd
    rw [Nat.add_sub_cancel] at hdvd
    rw [Nat.add_sub_cancel, ne_eq, cast_pow_eq_one_iff hp]
    rcases hr.dvd_mul.mp hdvd with h | h
    · rw [(Nat.prime_dvd_prime_iff_eq hr Nat.prime_two).mp (hr.dvd_of_dvd_pow h)]
      exact htwo
    · rw [(Nat.prime_dvd_prime_iff_eq hr Nat.prime_three).mp (hr.dvd_of_dvd_pow h)]
      exact hthree

namespace PrivateKey

theorem pow_mod_of_root? {k : PrivateKey} {m s : Nat} (h : k.root? m = some s) :
    s ^ k.exponent % k.modulus = m := by
  simp only [root?] at h
  split at h
  · next hm =>
    cases h
    simpa only [powMod_eq] using hm
  · cases h

end PrivateKey

end SignedBoot
