import Mathlib
import SignedBoot.Proofs.Rsa.KeySize
import SignedBoot.Verification.BootVerifier

/-!
# Keys as images carry them

An image carries a key by the shortest numerals of its two numbers: that of the modulus behind zeros
in 256 octets, that of the exponent shifted into a word. Read back, both are the numbers that were
written (`ImageKey.carried_iff_and_reads_back`), so equal forms are those of equal keys.
-/

namespace SignedBoot

/-! ### Numerals -/

/-- The shortest numeral of a number. Zero has one octet there. -/
def beShortest (n : Nat) : Bytes := be (max 1 (octetLength n)) n

theorem length_beShortest (n : Nat) : (beShortest n).length = max 1 (octetLength n) := length_be _ _

theorem beValue_beShortest (n : Nat) : beValue (beShortest n) = n :=
  beValue_beBlock (lt_pow_octetLength n)

theorem octetLength_le_iff {n k : Nat} : octetLength n ≤ k ↔ n < 2 ^ (8 * k) := by
  rw [← bitLength_le_iff, octetLength]
  omega

/-- Zeros in front of the shortest numeral make the numeral of any greater length. -/
theorem replicate_append_beShortest {n k : Nat} (h : (beShortest n).length ≤ k) :
    List.replicate (k - (beShortest n).length) 0 ++ beShortest n = be k n := by
  have hlt : n < 2 ^ (8 * (beShortest n).length) := by
    rw [length_beShortest]
    exact lt_pow_octetLength n
  have hbe : be (beShortest n).length n = beShortest n := by rw [length_beShortest, beShortest]
  nth_rewrite 2 [← hbe]
  rw [← be_add_of_lt hlt, Nat.sub_add_cancel h]

theorem beBlock_beValue {k : Nat} (x : Block k) : beBlock k (beValue x.bytes) = x := by
  obtain ⟨b, rfl⟩ := x
  exact Block.ext (be_beValue b)

def shiftOctet (w : UInt32) (x : UInt8) : UInt32 := w <<< 8 ||| x.toUInt32

/-- The word that the octets of a numeral are shifted into, the first of them first. -/
def shiftedWord (b : Bytes) : UInt32 := b.foldl shiftOctet 0

theorem shiftOctet_ofNat (v : Nat) (x : UInt8) :
    shiftOctet (UInt32.ofNat v) x = UInt32.ofNat (256 * v + x.toNat) := by
  have hx : x.toNat < 2 ^ 8 := x.toNat_lt
  -- what the shift pushes out does not count, and what it makes room for is the octet
  have hshift : (UInt32.ofNat v <<< 8).toNat = (v % 2 ^ 24) <<< 8 := by
    have height : (8 : UInt32).toNat % 32 = 8 := rfl
    rw [UInt32.toNat_shiftLeft, height, UInt32.toNat_ofNat', Nat.shiftLeft_eq, Nat.shiftLeft_eq]
    omega
  apply UInt32.toNat_inj.mp
  rw [shiftOctet, UInt32.toNat_or, hshift, UInt8.toNat_toUInt32, ← Nat.shiftLeft_add_eq_or_of_lt hx,
    Nat.shiftLeft_eq, UInt32.toNat_ofNat']
  omega

theorem shiftedWord_eq (b : Bytes) : shiftedWord b = UInt32.ofNat (beValue b) := by
  suffices h : ∀ v : Nat, b.foldl shiftOctet (UInt32.ofNat v) =
      UInt32.ofNat (b.foldl (fun v x => 256 * v + x.toNat) v) from h 0
  induction b with
  | nil => exact fun _ => rfl
  | cons x rest ih =>
    intro v
    rw [List.foldl_cons, List.foldl_cons, shiftOctet_ofNat, ih]

/-! ### Keys -/

theorem PublicKey.ofParts?_self (k : PublicKey) : ofParts? k.modulus k.exponent = some k :=
  dif_pos ⟨k.sound, k.bitLength_le⟩

namespace ImageKey

/-- The form in which an image carries a key, octet by octet from the numerals of its numbers. -/
def ofNumerals (n e : Bytes) : Except KeyFault ImageKey :=
  if h : n.length ≤ 256 then
    if e.length > 4 then .error .exponentTooLong
    else
      .ok ⟨⟨List.replicate (256 - n.length) 0 ++ n, by
        rw [List.length_append, List.length_replicate, Nat.sub_add_cancel h]⟩, shiftedWord e⟩
  else .error .modulusTooLong

theorem ofNumerals_beShortest (n e : Nat) :
    ofNumerals (beShortest n) (beShortest e) = ofParts n e := by
  have hn : (beShortest n).length ≤ 256 ↔ ¬ octetLength n > 256 := by
    rw [length_beShortest]
    omega
  have he : (beShortest e).length > 4 ↔ octetLength e > 4 := by
    rw [length_beShortest]
    omega
  unfold ofNumerals ofParts
  by_cases hmodulus : (beShortest n).length ≤ 256
  · rw [dif_pos hmodulus, if_neg (hn.mp hmodulus)]
    refine ite_congr (propext he) (fun _ => rfl) fun _ => ?_
    rw [shiftedWord_eq, beValue_beShortest]
    congr
    exact replicate_append_beShortest hmodulus
  · rw [dif_neg hmodulus, if_pos (not_not.mp (mt hn.mpr hmodulus))]

/-- What is carried of two numbers stands for them. -/
theorem ofParts_eq_ok_iff {n e : Nat} {x : ImageKey} :
    ofParts n e = .ok x ↔ (octetLength n ≤ 256 ∧ octetLength e ≤ 4) ∧
      beValue x.modulus.bytes = n ∧ x.exponent.toNat = e := by
  unfold ofParts
  constructor
  · intro h
    split at h
    · cases h
    rename_i hmodulus
    split at h
    · cases h
    rename_i hexponent
    rw [not_lt] at hmodulus hexponent
    cases h
    exact ⟨⟨hmodulus, hexponent⟩, beValue_beBlock (octetLength_le_iff.mp hmodulus),
      UInt32.toNat_ofNat_of_lt' (octetLength_le_iff.mp hexponent)⟩
  · rintro ⟨⟨hmodulus, hexponent⟩, rfl, rfl⟩
    rw [if_neg (not_lt.mpr hmodulus), if_neg (not_lt.mpr hexponent), beBlock_beValue,
      UInt32.ofNat_toNat]

theorem exists_ofParts_iff {n e : Nat} :
    (∃ x, ofParts n e = .ok x) ↔ n < 2 ^ 2048 ∧ e < 2 ^ 32 := by
  have hn : octetLength n ≤ 256 ↔ n < 2 ^ 2048 := by
    rw [← bitLength_le_iff, octetLength]
    omega
  have he : octetLength e ≤ 4 ↔ e < 2 ^ 32 := by
    rw [← bitLength_le_iff, octetLength]
    omega
  rw [← hn, ← he]
  constructor
  · rintro ⟨x, hx⟩
    exact (ofParts_eq_ok_iff.mp hx).1
  · rintro ⟨hmodulus, hexponent⟩
    exact ⟨⟨beBlock 256 n, UInt32.ofNat e⟩, ofParts_eq_ok_iff.mpr ⟨⟨hmodulus, hexponent⟩,
      beValue_beBlock (octetLength_le_iff.mp hmodulus),
      UInt32.toNat_ofNat_of_lt' (octetLength_le_iff.mp hexponent)⟩⟩

/-- The carried form of a key is read back as the key. -/
theorem ofDescriptor?_of_ofParts {k : PublicKey} {x : ImageKey}
    (h : ofParts k.modulus k.exponent = .ok x) : PublicKey.ofDescriptor? x.descriptor = some k := by
  obtain ⟨-, hn, he⟩ := ofParts_eq_ok_iff.mp h
  rw [PublicKey.ofDescriptor?, descriptor, hn, he]
  exact k.ofParts?_self

theorem descriptor_inj {x y : ImageKey} : x.descriptor = y.descriptor ↔ x = y := by
  constructor
  · intro h
    obtain ⟨hn, he⟩ := KeyDescriptor.mk.inj h
    exact ImageKey.ext (Block.ext hn) he
  · rintro rfl
    rfl

/-- Keys have the same carried form only if they are the same. -/
theorem eq_iff_of_ofParts {k l : PublicKey} {x y : ImageKey}
    (hk : ofParts k.modulus k.exponent = .ok x) (hl : ofParts l.modulus l.exponent = .ok y) :
    x = y ↔ k = l := by
  constructor
  · rintro rfl
    have hread := ofDescriptor?_of_ofParts hk
    rw [ofDescriptor?_of_ofParts hl] at hread
    exact (Option.some.inj hread).symm
  · rintro rfl
    exact Except.ok.inj (hk.symm.trans hl)

theorem checkPinned_eq_ok_iff {p : Policy} {pinned key : KeyDescriptor} (h : p.key = some pinned) :
    BootVerifier.checkPinned p key = .ok () ↔ pinned = key := by
  rw [BootVerifier.checkPinned, h]
  dsimp only
  split <;> simp [*]

/-- A key is carried exactly when its modulus has at most 2048 bits and its exponent is a word, and
what is carried, whatever zeros it starts with, is read back as the key. A policy that pins what is
carried of one key therefore takes the key tag with what is carried of another only if both are the
same key. -/
theorem carried_iff_and_reads_back (k : PublicKey) :
    ofNumerals (beShortest k.modulus) (beShortest k.exponent) = ofParts k.modulus k.exponent ∧
      ((∃ x, ofParts k.modulus k.exponent = .ok x) ↔
        k.modulus < 2 ^ 2048 ∧ k.exponent < 2 ^ 32) ∧
      ∀ x, ofParts k.modulus k.exponent = .ok x →
        beValue x.modulus.bytes = k.modulus ∧ x.exponent.toNat = k.exponent ∧
        PublicKey.ofDescriptor? x.descriptor = some k ∧
        ∀ (l : PublicKey) (y : ImageKey), ofParts l.modulus l.exponent = .ok y →
          (x = y ↔ k = l) ∧
          ∀ (p : Policy) (t : KeyTag), p.key = some x.descriptor → t.key = y.descriptor →
            (BootVerifier.checkPinned p t.key = .ok () ↔ k = l) := by
  refine ⟨ofNumerals_beShortest _ _, exists_ofParts_iff, fun x hx => ?_⟩
  obtain ⟨-, hn, he⟩ := ofParts_eq_ok_iff.mp hx
  refine ⟨hn, he, ofDescriptor?_of_ofParts hx, fun l y hy => ?_⟩
  have heq := eq_iff_of_ofParts hx hy
  refine ⟨heq, fun p t hp ht => ?_⟩
  rw [checkPinned_eq_ok_iff hp, ht, descriptor_inj, heq]

/-- A modulus of three octets and an exponent of two, which leave zeros in front of both. -/
def shortKey : PublicKey := ⟨0x10001, 0x101, by decide, by decide⟩

def otherShortKey : PublicKey := ⟨0x10003, 0x101, by decide, by decide⟩

/-- Two short keys are carried and read back, and a policy that pins the first does not take the
second. -/
theorem carried_iff_and_reads_back_shortKeys : ∃ x y,
    ofParts 0x10001 0x101 = .ok x ∧ ofParts 0x10003 0x101 = .ok y ∧
      PublicKey.ofDescriptor? x.descriptor = some shortKey ∧
      PublicKey.ofDescriptor? y.descriptor = some otherShortKey ∧ x ≠ y ∧
      ∀ (p : Policy) (t : KeyTag), p.key = some x.descriptor → t.key = y.descriptor →
        BootVerifier.checkPinned p t.key ≠ .ok () := by
  have hfirst := carried_iff_and_reads_back shortKey
  have hsecond := carried_iff_and_reads_back otherShortKey
  have hlt {n : Nat} (h : n < 2 ^ 17) : n < 2 ^ 2048 := by
    have hpow : 2 ^ 17 ≤ 2 ^ 2048 := pow_le_pow_right₀ one_le_two (by decide)
    exact h.trans_le hpow
  obtain ⟨x, hx⟩ := hfirst.2.1.mpr ⟨hlt (by decide), by decide⟩
  obtain ⟨y, hy⟩ := hsecond.2.1.mpr ⟨hlt (by decide), by decide⟩
  obtain ⟨-, -, hread, hother⟩ := hfirst.2.2 x hx
  obtain ⟨heq, hpinned⟩ := hother otherShortKey y hy
  have hne : shortKey ≠ otherShortKey :=
    fun h => absurd (congrArg PublicKey.modulus h) (by decide)
  exact ⟨x, y, hx, hy, hread, (hsecond.2.2 y hy).2.2.1, mt heq.mp hne,
    fun p t hp ht => mt (hpinned p t hp ht).mp hne⟩

end ImageKey

end SignedBoot
