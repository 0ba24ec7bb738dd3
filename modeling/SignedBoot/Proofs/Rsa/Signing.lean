import Mathlib
import SignedBoot.Proofs.Encoding.Pkcs1
import SignedBoot.Proofs.Encoding.Pss
import SignedBoot.Proofs.Powers
import SignedBoot.Proofs.Rsa.KeySize

/-!
# Signing succeeds

The private operation of a key with two distinct primes inverts the public operation on every
number below the modulus (`PrivateKey.exists_root?`), and both paddings make encodings below the
modulus, so such a key of 256 octets signs every digest (`SigningKey.exists_sign?`).
-/

namespace SignedBoot

/-! ### Inverses -/

theorem bezout_fst_eq_gcd (a b : Nat) : (bezout a b).1 = Nat.gcd a b := by
  fun_induction bezout a b with
  | case1 a => rw [Nat.gcd_zero_right]
  | case2 a b hb _ g x y heq ih =>
    rw [heq] at ih
    rw [ih, Nat.gcd_comm a b, Nat.gcd_rec b a, Nat.gcd_comm]

theorem exists_inverseMod? {a n : Nat} (h : Nat.Coprime a n) : ∃ u, inverseMod? a n = some u := by
  have hg := bezout_fst_eq_gcd a n
  rw [h] at hg
  exact ⟨_, if_pos hg⟩

/-! ### Powers modulo a prime -/

/-- Raising to an exponent that is one modulo `p - 1` changes nothing modulo `p`. -/
theorem pow_modEq_self {p k : Nat} (hp : p.Prime) (hk : k % (p - 1) = 1) (m : Nat) :
    m ^ k ≡ m [MOD p] := by
  have hexp : k = (p - 1) * (k / (p - 1)) + 1 := by
    conv_lhs => rw [← Nat.div_add_mod k (p - 1), hk]
  -- Fermat speaks of the units; a multiple of the prime is zero on both sides
  by_cases hdvd : p ∣ m
  · have hm : m ≡ 0 [MOD p] := (Nat.modEq_zero_iff_dvd).mpr hdvd
    calc m ^ k ≡ 0 ^ k [MOD p] := hm.pow k
      _ = 0 := by rw [hexp, Nat.pow_succ, Nat.mul_zero]
      _ ≡ m [MOD p] := hm.symm
  · have hcoprime : Nat.Coprime m p := ((Nat.Prime.coprime_iff_not_dvd hp).mpr hdvd).symm
    have hfermat : m ^ (p - 1) ≡ 1 [MOD p] := by
      rw [← Nat.totient_prime hp]
      exact Nat.ModEq.pow_totient hcoprime
    calc m ^ k = (m ^ (p - 1)) ^ (k / (p - 1)) * m := by
          conv_lhs => rw [hexp, Nat.pow_succ, Nat.pow_mul]
      _ ≡ 1 ^ (k / (p - 1)) * m [MOD p] := (hfermat.pow _).mul_right m
      _ = m := by rw [Nat.one_pow, Nat.one_mul]

/-- The power with a reduced private exponent, undone by the public exponent. -/
theorem powMod_mod_pow_modEq {p d e : Nat} (hp : p.Prime) (h : d * e % (p - 1) = 1) (m : Nat) :
    powMod m (d % (p - 1)) p ^ e ≡ m [MOD p] := by
  have hexp : d % (p - 1) * e % (p - 1) = 1 := by rw [Nat.mod_mul_mod, h]
  calc powMod m (d % (p - 1)) p ^ e ≡ (m ^ (d % (p - 1))) ^ e [MOD p] := by
        rw [powMod_eq]
        exact (Nat.mod_modEq _ p).pow e
    _ = m ^ (d % (p - 1) * e) := (Nat.pow_mul m _ e).symm
    _ ≡ m [MOD p] := pow_modEq_self hp hexp m

/-! ### Joining two remainders -/

theorem join_modEq_right (p q x y u : Nat) :
    y + (x + (p - y % p)) * u % p * q ≡ y [MOD q] := by
  rw [Nat.ModEq, Nat.add_mul_mod_self_right]

theorem join_modEq_left {p q u : Nat} (hp : 0 < p) (hu : q * u ≡ 1 [MOD p]) (x y : Nat) :
    y + (x + (p - y % p)) * u % p * q ≡ x [MOD p] := by
  have hy : y % p < p := Nat.mod_lt y hp
  have hsum : y % p + (x + (p - y % p)) = x + p := by omega
  calc y + (x + (p - y % p)) * u % p * q
      ≡ y + (x + (p - y % p)) * u * q [MOD p] := ((Nat.mod_modEq _ p).mul_right q).add_left y
    _ = y + (x + (p - y % p)) * (q * u) := by rw [Nat.mul_assoc, Nat.mul_comm u q]
    _ ≡ y + (x + (p - y % p)) * 1 [MOD p] := (hu.mul_left _).add_left y
    _ ≡ y % p + (x + (p - y % p)) * 1 [MOD p] := (Nat.mod_modEq y p).symm.add_right _
    _ = x + p := by rw [Nat.mul_one, hsum]
    _ ≡ x [MOD p] := by rw [Nat.ModEq, Nat.add_mod_right]

namespace PrivateKey

variable {k : PrivateKey}

/-- The primes of a private key are two different primes. -/
structure TwoPrimes (k : PrivateKey) : Prop where
  prime_p : k.p.Prime
  prime_q : k.q.Prime
  ne : k.p ≠ k.q

theorem apply_pow_modEq (h : k.TwoPrimes) (m : Nat) :
    k.apply m ^ k.exponent ≡ m [MOD k.modulus] := by
  have hcoprime : Nat.Coprime k.p k.q := (Nat.coprime_primes h.prime_p h.prime_q).mpr h.ne
  obtain ⟨u, hu⟩ := exists_inverseMod? hcoprime.symm
  have hinverse : k.q * u ≡ 1 [MOD k.p] := mul_inverseMod? h.prime_p.pos hu
  have happly := apply.eq_1 k m
  simp only [hu] at happly
  generalize hx : powMod m (k.privateExponent % (k.p - 1)) k.p = x at happly
  generalize hy : powMod m (k.privateExponent % (k.q - 1)) k.q = y at happly
  have hp : k.p ∣ k.modulus := k.modulus_eq ▸ Nat.dvd_mul_right k.p k.q
  have hq : k.q ∣ k.modulus := k.modulus_eq ▸ Nat.dvd_mul_left k.q k.p
  -- both primes divide the modulus, so that reducing by it keeps each remainder
  have hleft : k.apply m ≡ x [MOD k.p] := by
    rw [happly]
    exact ((Nat.mod_modEq _ _).of_dvd hp).trans (join_modEq_left h.prime_p.pos hinverse x y)
  have hright : k.apply m ≡ y [MOD k.q] := by
    rw [happly]
    exact ((Nat.mod_modEq _ _).of_dvd hq).trans (join_modEq_right k.p k.q x y u)
  rw [← k.modulus_eq, ← Nat.modEq_and_modEq_iff_modEq_mul hcoprime]
  constructor
  · refine (hleft.pow _).trans ?_
    rw [← hx]
    exact powMod_mod_pow_modEq h.prime_p k.inverse_p m
  · refine (hright.pow _).trans ?_
    rw [← hy]
    exact powMod_mod_pow_modEq h.prime_q k.inverse_q m

/-- With two primes the private operation finds a root of every number below the modulus. -/
theorem exists_root? (h : k.TwoPrimes) {m : Nat} (hm : m < k.modulus) :
    ∃ s, k.root? m = some s := by
  have hpow := apply_pow_modEq h m
  rw [Nat.ModEq, Nat.mod_eq_of_lt hm] at hpow
  refine ⟨k.apply m, if_pos ?_⟩
  rw [powMod_eq, hpow]

theorem apply_lt (k : PrivateKey) (m : Nat) : k.apply m < k.modulus := by
  have hpos : 0 < k.modulus := (Nat.zero_le _).trans_lt k.sound.2.1
  unfold apply
  split
  · rw [powMod_eq]
    exact Nat.mod_lt _ hpos
  · exact Nat.mod_lt _ hpos

theorem lt_of_root? {m s : Nat} (h : k.root? m = some s) : s < k.modulus := by
  simp only [root?] at h
  split at h
  · cases h
    exact k.apply_lt m
  · cases h

end PrivateKey

/-- A signature is a root of the encoding below the modulus. -/
theorem SigningKey.root_of_sign? {k : SigningKey} (hl : octetLength k.key.modulus ≤ 256)
    {padding : Padding} {digest : Digest} {s : Block 256} (h : k.sign? padding digest = some s) :
    beValue s.bytes < k.key.modulus ∧ beValue s.bytes ^ k.key.exponent % k.key.modulus =
      beValue (padding.encode digest k.key.modulus) := by
  obtain ⟨root, hroot, rfl⟩ := Option.map_eq_some_iff.mp h
  have hbits : bitLength k.key.modulus ≤ 8 * 256 := by
    rw [octetLength] at hl
    omega
  have hlt := PrivateKey.lt_of_root? hroot
  rw [beValue_beBlock (hlt.trans (bitLength_le_iff.mp hbits))]
  exact ⟨hlt, PrivateKey.pow_mod_of_root? hroot⟩

/-! ### Encodings below the modulus -/

/-- An encoded message has no more bits than it is made for. -/
theorem Pss.beValue_encode_lt {salt : Bytes} {bits : Nat}
    (h : salt.length + 34 ≤ encodedLength bits) (digest : Digest) :
    beValue (encode digest salt bits) < 2 ^ bits := by
  have hlength : (encode digest salt bits).length = encodedLength bits := length_encode h
  have hdb : (dataBlock (encodedLength bits - 33) salt).length = encodedLength bits - 33 :=
    length_dataBlock (by omega)
  rw [encode_eq] at hlength ⊢
  cases hmasked : xor (dataBlock (encodedLength bits - 33) salt)
      (mask (saltedHash digest salt).bytes (dataBlock (encodedLength bits - 33) salt).length) with
  | nil =>
    have hnil := congrArg List.length hmasked
    rw [length_xor (length_mask _ _).symm, length_mask, hdb, List.length_nil] at hnil
    omega
  | cons x masked =>
    rw [hmasked, clearTop, List.cons_append, List.length_cons] at hlength
    rw [clearTop, List.cons_append, beValue_cons]
    generalize masked ++ ((saltedHash digest salt).bytes ++ [trailer]) = rest at hlength ⊢
    have hrest := beValue_lt_pow rest
    have hx : (x &&& topMask bits).toNat + 1 ≤ 2 ^ (8 - (8 * encodedLength bits - bits)) := by
      rw [toNat_and_topMask]
      exact Nat.mod_lt _ (Nat.two_pow_pos _)
    have hbits : 8 - (8 * encodedLength bits - bits) + 8 * rest.length = bits := by
      rw [encodedLength] at hlength ⊢
      omega
    calc (x &&& topMask bits).toNat * 2 ^ (8 * rest.length) + beValue rest
        < ((x &&& topMask bits).toNat + 1) * 2 ^ (8 * rest.length) :=
          (Nat.add_lt_add_left hrest _).trans_eq (Nat.succ_mul _ _).symm
      _ ≤ 2 ^ (8 - (8 * encodedLength bits - bits)) * 2 ^ (8 * rest.length) :=
          Nat.mul_le_mul_right _ hx
      _ = 2 ^ bits := by rw [← pow_add, hbits]

/-- The first octet of an encoded message is zero. -/
theorem Pkcs1.beValue_encode_lt {info : Bytes} {length : Nat} (h : info.length + 35 ≤ length)
    (digest : Digest) : beValue (encode info digest length) < 2 ^ (8 * (length - 1)) := by
  obtain ⟨rest, hrest⟩ : ∃ rest, encode info digest length = 0 :: rest := ⟨_, rfl⟩
  have hl := length_encode h digest
  rw [hrest, List.length_cons] at hl
  have hrange : 8 * rest.length = 8 * (length - 1) := by omega
  rw [hrest, beValue_cons, UInt8.toNat_zero, Nat.zero_mul, Nat.zero_add, ← hrange]
  exact beValue_lt_pow rest

theorem Padding.beValue_encode_lt {n : Nat} (h : octetLength n = 256) (padding : Padding)
    (digest : Digest) : beValue (padding.encode digest n) < n := by
  have hbits : 8 * (256 - 1) < bitLength n := (bitLength_of_octetLength h).1
  cases padding with
  | pss salt =>
    have hroom : salt.bytes.length + 34 ≤ Pss.encodedLength (bitLength n - 1) := by
      rw [salt.length_bytes, Pss.encodedLength]
      omega
    exact (Pss.beValue_encode_lt hroom digest).trans_le (lt_bitLength_iff.mp (by omega))
  | pkcs1 =>
    rw [encode, h]
    exact (Pkcs1.beValue_encode_lt (by decide) digest).trans_le (lt_bitLength_iff.mp hbits)

theorem SigningKey.exists_sign? {k : SigningKey} (h : k.key.TwoPrimes)
    (hl : octetLength k.key.modulus = 256) (padding : Padding) (digest : Digest) :
    ∃ s, k.sign? padding digest = some s := by
  obtain ⟨s, hs⟩ := PrivateKey.exists_root? h (padding.beValue_encode_lt hl digest)
  exact ⟨beBlock 256 s, by rw [sign?, hs, Option.map_some]⟩

end SignedBoot
