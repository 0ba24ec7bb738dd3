import Mathlib
import SignedBoot.Container.Tag
import SignedBoot.Proofs.Bytes.Slices
import SignedBoot.Proofs.Powers
import SignedBoot.Rsa.PublicKey

/-!
# The size of a key

The digits that are counted octet by octet are those of the value (`numeralBits_eq`). The modulus
of a key tag has exactly 2048 of them, so the key of a tag is a public key as soon as its modulus
is odd.
-/

namespace SignedBoot

theorem beValue_cons (x : UInt8) (rest : Bytes) :
    beValue (x :: rest) = x.toNat * 2 ^ (8 * rest.length) + beValue rest := by
  have hx : leValue [x] = x.toNat := by simp [leValue]
  have hp : 256 ^ rest.length = 2 ^ (8 * rest.length) := (pow_mul 2 8 rest.length).symm
  rw [beValue_eq, List.reverse_cons, leValue_append, List.length_reverse, octetRange_eq, hx, hp,
    ← beValue_eq, Nat.mul_comm, Nat.add_comm]

theorem beValue_lt_pow (b : Bytes) : beValue b < 2 ^ (8 * b.length) := by
  have h := beValue_lt b
  rw [octetRange_eq] at h
  rw [pow_mul]
  exact h

theorem beValue_beBlock {k v : Nat} (h : v < 2 ^ (8 * k)) : beValue (beBlock k v).bytes = v := by
  rw [pow_mul] at h
  rw [beBlock, beValue_be, octetRange_eq]
  exact Nat.mod_eq_of_lt h

/-- The top bit of the first octet is the top bit of the value. -/
theorem two_pow_le_beValue_cons_iff (x : UInt8) (rest : Bytes) :
    2 ^ (8 * rest.length + 7) ≤ beValue (x :: rest) ↔ 0x80 ≤ x.toNat := by
  have hr := beValue_lt_pow rest
  have htop : 2 ^ (8 * rest.length + 7) = 0x80 * 2 ^ (8 * rest.length) := by
    rw [pow_add, Nat.mul_comm]
    rfl
  rw [beValue_cons, htop]
  constructor
  · intro h
    have hlt : 0x80 * 2 ^ (8 * rest.length) < (x.toNat + 1) * 2 ^ (8 * rest.length) := by
      calc 0x80 * 2 ^ (8 * rest.length) ≤ x.toNat * 2 ^ (8 * rest.length) + beValue rest := h
        _ < x.toNat * 2 ^ (8 * rest.length) + 2 ^ (8 * rest.length) := Nat.add_lt_add_left hr _
        _ = (x.toNat + 1) * 2 ^ (8 * rest.length) := (Nat.succ_mul _ _).symm
    exact Nat.lt_succ_iff.mp (Nat.lt_of_mul_lt_mul_right hlt)
  · intro h
    exact (Nat.mul_le_mul_right _ h).trans (Nat.le_add_right _ _)

theorem two_pow_le_beValue_iff (b : Block 256) :
    0x80 ≤ leValue (slice b.bytes 0 1) ↔ 2 ^ 2047 ≤ beValue b.bytes := by
  obtain ⟨x, rest, hb, hl⟩ := b.exists_cons
  have hbits : 8 * rest.length + 7 = 2047 := by omega
  have htop := two_pow_le_beValue_cons_iff x rest
  rw [hbits] at htop
  rw [hb, htop]
  exact Iff.rfl

theorem lt_bitLength_iff {n k : Nat} : k < bitLength n ↔ 2 ^ k ≤ n := by
  have hpos : 0 < 2 ^ k := Nat.pow_pos (by decide)
  rw [bitLength]
  split
  · omega
  · rename_i hne
    rw [Nat.lt_succ_iff, Nat.le_log2 hne]

theorem bitLength_le_iff {n k : Nat} : bitLength n ≤ k ↔ n < 2 ^ k := by
  rw [← not_lt, lt_bitLength_iff, not_le]

/-- A number of 256 octets has its top bit in the first of them. -/
theorem bitLength_of_octetLength {n : Nat} (h : octetLength n = 256) :
    2040 < bitLength n ∧ bitLength n ≤ 2048 := by
  rw [octetLength] at h
  omega

theorem beValue_replicate_append (n : Nat) (b : Bytes) :
    beValue (List.replicate n 0 ++ b) = beValue b := by
  induction n with
  | zero => rfl
  | succ n ih =>
    rw [List.replicate_succ, List.cons_append, beValue_cons, ih, UInt8.toNat_zero, Nat.zero_mul,
      Nat.zero_add]

/-- A number that needs fewer octets has zeros in front. -/
theorem be_add_of_lt {padding length m : Nat} (h : m < 2 ^ (8 * length)) :
    be (padding + length) m = List.replicate padding 0 ++ be length m := by
  have hvalue : beValue (List.replicate padding 0 ++ be length m) = m := by
    rw [beValue_replicate_append]
    exact beValue_beBlock h
  have hnumeral := be_beValue (List.replicate padding 0 ++ be length m)
  rwa [hvalue, List.length_append, List.length_replicate, length_be] at hnumeral

theorem octetLength_le {m n : Nat} (h : m ≤ n) : octetLength m ≤ octetLength n := by
  have hbits : bitLength m ≤ bitLength n :=
    bitLength_le_iff.mpr (h.trans_lt (bitLength_le_iff.mp le_rfl))
  rw [octetLength, octetLength]
  omega

theorem lt_pow_octetLength (n : Nat) : n < 2 ^ (8 * max 1 (octetLength n)) := by
  rw [← bitLength_le_iff, octetLength]
  omega

/-- Digits below the leading part of a number do not change how many there are. -/
theorem log2_mul_pow_add {x k r : Nat} (hx : x ≠ 0) (hr : r < 2 ^ k) :
    (x * 2 ^ k + r).log2 = x.log2 + k := by
  have hlo : 2 ^ x.log2 * 2 ^ k ≤ x * 2 ^ k := Nat.mul_le_mul_right _ (Nat.log2_self_le hx)
  have hhi : (x + 1) * 2 ^ k ≤ 2 ^ (x.log2 + 1) * 2 ^ k :=
    Nat.mul_le_mul_right _ Nat.lt_log2_self
  have hpos : 0 < 2 ^ k := Nat.pow_pos (by decide)
  have hne : x * 2 ^ k + r ≠ 0 := by
    have := Nat.mul_pos (Nat.pos_of_ne_zero hx) hpos
    omega
  apply (Nat.log2_eq_iff hne).mpr
  constructor
  · rw [pow_add]
    exact hlo.trans (Nat.le_add_right _ _)
  · calc x * 2 ^ k + r < x * 2 ^ k + 2 ^ k := Nat.add_lt_add_left hr _
      _ = (x + 1) * 2 ^ k := (Nat.succ_mul _ _).symm
      _ ≤ 2 ^ (x.log2 + 1) * 2 ^ k := hhi
      _ = 2 ^ (x.log2 + k + 1) := by rw [← pow_add, Nat.add_right_comm]

theorem numeralBits_eq (b : Bytes) : numeralBits b = bitLength (beValue b) := by
  induction b with
  | nil => rfl
  | cons x rest ih =>
    rw [numeralBits, beValue_cons]
    by_cases hx : x = 0
    · rw [if_pos hx, hx, ih]
      simp
    · have hne : x.toNat ≠ 0 := by
        intro h
        exact hx (UInt8.toNat_inj.mp h)
      have hlog := log2_mul_pow_add hne (beValue_lt_pow rest)
      have hpos : x.toNat * 2 ^ (8 * rest.length) + beValue rest ≠ 0 := by
        intro h
        rw [h] at hlog
        have hp := Nat.mul_pos (Nat.pos_of_ne_zero hne) (Nat.pow_pos (n := 8 * rest.length)
          (by decide : 0 < 2))
        omega
      rw [if_neg hx, bitLength, bitLength, if_neg hne, if_neg hpos, hlog]
      omega

theorem log2_eq_seven {x : UInt8} (h : 0x80 ≤ x) : x.toNat.log2 = 7 := by
  have hlo : 0x80 ≤ x.toNat := UInt8.le_iff_toNat_le.mp h
  have hhi := x.toNat_lt
  exact (Nat.log2_eq_iff (by omega)).mpr ⟨hlo, hhi⟩

/-! ### Keys of descriptors -/

/-- The rule for public keys, on the key that a descriptor holds. -/
def KeyDescriptor.Accepted (k : KeyDescriptor) : Prop :=
  Rsa.Sound (beValue k.modulus) k.exponent.toNat ∧ bitLength (beValue k.modulus) ≤ 4096

instance (k : KeyDescriptor) : Decidable k.Accepted := inferInstanceAs (Decidable (_ ∧ _))

theorem KeyDescriptor.Accepted.exists_publicKey {k : KeyDescriptor} (h : k.Accepted) :
    ∃ key, PublicKey.ofDescriptor? k = some key ∧ key.modulus = beValue k.modulus ∧
      key.exponent = k.exponent.toNat :=
  ⟨_, dif_pos h, rfl, rfl⟩

theorem KeyDescriptor.accepted_of_ofDescriptor? {k : KeyDescriptor} {key : PublicKey}
    (h : PublicKey.ofDescriptor? k = some key) : k.Accepted := by
  by_contra hk
  have hnone : PublicKey.ofDescriptor? k = none := dif_neg hk
  simp [h] at hnone

/-! ### Keys of tags -/

namespace KeyTag

variable {t : KeyTag}

/-- The modulus as a number. -/
def modulusValue (t : KeyTag) : Nat := beValue t.modulus.bytes

theorem WellFormed.exists_modulus_eq (ht : t.WellFormed) :
    ∃ x rest, t.modulus.bytes = x :: rest ∧ 0x80 ≤ x ∧ x ≠ 0 ∧ rest.length = 255 := by
  obtain ⟨x, rest, hrest, hl⟩ := t.modulus.exists_cons
  obtain ⟨-, -, y, hy, hle⟩ := ht
  rw [hrest, List.head?_cons] at hy
  obtain rfl := Option.some.inj hy
  have hne : x ≠ 0 := by
    rintro rfl
    exact absurd hle (by decide)
  exact ⟨x, rest, hrest, hle, hne, hl⟩

theorem WellFormed.headD_ne_zero (ht : t.WellFormed) : t.key.modulus.headD 0 ≠ 0 := by
  obtain ⟨x, rest, hrest, -, hne, -⟩ := ht.exists_modulus_eq
  rw [key, hrest, List.headD_cons]
  exact hne

theorem WellFormed.modulusBits_key (ht : t.WellFormed) : t.key.modulusBits = 2048 := by
  obtain ⟨x, rest, hrest, hle, hne, hl⟩ := ht.exists_modulus_eq
  have hnat : x.toNat ≠ 0 := fun h => hne (UInt8.toNat_inj.mp h)
  rw [KeyDescriptor.modulusBits, key, hrest, numeralBits, if_neg hne, bitLength, if_neg hnat,
    log2_eq_seven hle, hl]

theorem WellFormed.bitLength_modulus (ht : t.WellFormed) : bitLength t.modulusValue = 2048 := by
  rw [modulusValue, ← numeralBits_eq]
  exact ht.modulusBits_key

theorem WellFormed.octetLength_modulus (ht : t.WellFormed) :
    octetLength t.modulusValue = 256 := by
  rw [octetLength, ht.bitLength_modulus]

theorem WellFormed.pow_le_modulus (ht : t.WellFormed) {k : Nat} (hk : k < 2048) :
    2 ^ k ≤ t.modulusValue := by
  rw [← lt_bitLength_iff, ht.bitLength_modulus]
  exact hk

theorem WellFormed.exponent_lt_modulus (ht : t.WellFormed) :
    t.exponent.toNat < t.modulusValue :=
  t.exponent.toNat_lt.trans_le (ht.pow_le_modulus (by decide))

/-- Of the conditions on a public key, the parity of the modulus is the one that a key tag leaves
open. -/
theorem WellFormed.sound_iff (ht : t.WellFormed) :
    Rsa.Sound t.modulusValue t.exponent.toNat ↔ t.modulusValue % 2 = 1 := by
  have hlt := t.exponent.toNat_lt
  have hge : 3 ≤ t.exponent.toNat := UInt32.le_iff_toNat_le.mp ht.1
  have hodd : t.exponent.toNat % 2 = 1 := by
    have h := congrArg UInt32.toNat ht.2.1
    rwa [UInt32.toNat_mod] at h
  have hsize : UInt64.size = 2 ^ 64 := rfl
  constructor
  · intro h
    exact h.2.2.1
  · intro h
    exact ⟨by omega, ht.exponent_lt_modulus, h, hodd, by omega, by omega⟩

theorem WellFormed.accepted_key_iff (ht : t.WellFormed) :
    t.key.Accepted ↔ t.modulusValue % 2 = 1 := by
  have hbits : bitLength t.modulusValue ≤ 4096 := by
    rw [ht.bitLength_modulus]
    decide
  rw [← ht.sound_iff]
  exact and_iff_left hbits

theorem WellFormed.ofDescriptor?_key_of_odd (ht : t.WellFormed) (h : t.modulusValue % 2 = 1) :
    ∃ k, PublicKey.ofDescriptor? t.key = some k ∧ k.modulus = t.modulusValue ∧
      k.exponent = t.exponent.toNat :=
  (ht.accepted_key_iff.mpr h).exists_publicKey

theorem WellFormed.odd_of_ofDescriptor?_key (ht : t.WellFormed) {k : PublicKey}
    (h : PublicKey.ofDescriptor? t.key = some k) : t.modulusValue % 2 = 1 :=
  ht.accepted_key_iff.mp (KeyDescriptor.accepted_of_ofDescriptor? h)

end KeyTag

end SignedBoot
