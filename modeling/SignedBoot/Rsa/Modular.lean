/-!
# Modular arithmetic

Powers by square and multiply over the binary digits of the exponent, and inverses by the
extended Euclidean algorithm.
-/

namespace SignedBoot

/-- The remainder modulo `n` of a power of `b`, from the lowest `digits` binary digits of its
exponent. -/
def powModDigits (b n : Nat) : (digits e : Nat) → Nat
  | 0, _ => 1 % n
  | digits + 1, e =>
    let half := powModDigits b n digits (e / 2)
    let square := half * half % n
    if e % 2 = 1 then square * b % n else square

/-- The remainder modulo `n` of the power of `b` with exponent `e`. -/
def powMod (b e n : Nat) : Nat := powModDigits (b % n) n (e.log2 + 1) e

/-- The greatest common divisor of two numbers, and the multiples of the first and of the second
that add up to it. -/
def bezout (a b : Nat) : Nat × Int × Int :=
  if h : b = 0 then (a, 1, 0)
  else
    have : a % b < b := Nat.mod_lt a (Nat.pos_of_ne_zero h)
    let (g, x, y) := bezout b (a % b)
    (g, y, x - (a / b : Nat) * y)
termination_by b

/-- The inverse of a number modulo `n`, if it has one. -/
def inverseMod? (a n : Nat) : Option Nat :=
  let (g, x, _) := bezout a n
  if g = 1 then some (x % n).toNat else none

theorem bezout_eq (a b : Nat) :
    (bezout a b).2.1 * a + (bezout a b).2.2 * b = (bezout a b).1 := by
  fun_induction bezout a b with
  | case1 a => simp
  | case2 a b hb _ g x y heq ih =>
    rw [heq] at ih
    have ha : (a : Int) = b * (a / b : Nat) + (a % b : Nat) := by
      exact_mod_cast (Nat.div_add_mod a b).symm
    simp only at ih ⊢
    grind

theorem mul_inverseMod? {a n u : Nat} (hn : 0 < n) (h : inverseMod? a n = some u) :
    a * u % n = 1 % n := by
  have hb := bezout_eq a n
  unfold inverseMod? at h
  simp only at h
  split at h
  · next hg =>
    cases h
    rw [hg] at hb
    generalize (bezout a n).2.1 = x at hb ⊢
    generalize (bezout a n).2.2 = y at hb
    have hx : ((x % n).toNat : Int) = x % n :=
      Int.toNat_of_nonneg (Int.emod_nonneg x (by omega))
    have hone : (a : Int) * x = 1 + n * (-y) := by grind
    apply Int.ofNat_inj.mp
    rw [Int.natCast_emod, Int.natCast_mul, hx, Int.mul_emod, Int.emod_emod, ← Int.mul_emod, hone,
      Int.add_mul_emod_self_left, Int.natCast_emod, Int.natCast_one]
  · cases h

end SignedBoot
