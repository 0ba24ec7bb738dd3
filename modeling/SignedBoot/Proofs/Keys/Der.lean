import Mathlib
import SignedBoot.Keys.Der
import SignedBoot.Proofs.Rsa.KeySize

/-!
# Writing values in distinguished form

A value is written with its tag, the shortest form of its length, and its contents, and is read
off the front of what follows it (`Der.value?_written`). Unsigned integers take one zero bit in
front of their binary digits (`Der.unsigned?_writtenUnsigned`).
-/

namespace SignedBoot.Der

/-! ### Lengths -/

def writtenLength (n : Nat) : Bytes :=
  if n < 0x80 then [UInt8.ofNat n] else UInt8.ofNat (0x80 + octetLength n) :: be (octetLength n) n

/-- A length of at most 28 bits takes at most four octets behind the one that counts them. -/
theorem length_writtenLength_le {n : Nat} (h : n < 0x10000000) : (writtenLength n).length ≤ 5 := by
  have hbits : bitLength n ≤ 28 := bitLength_le_iff.mpr h
  unfold writtenLength
  split
  · exact Nat.succ_le_succ (Nat.zero_le 4)
  · rw [List.length_cons, length_be, octetLength]
    omega

theorem length?_writtenLength {n : Nat} (h : n < 0x10000000) (rest : Bytes) :
    length? (writtenLength n ++ rest) = some (n, rest) := by
  unfold writtenLength
  split
  · rename_i hshort
    have hvalue : (UInt8.ofNat n).toNat = n :=
      UInt8.toNat_ofNat_of_lt' (hshort.trans (by decide))
    have hfirst : UInt8.ofNat n < 0x80 := by
      rw [UInt8.lt_iff_toNat_lt, hvalue]
      exact hshort
    rw [List.singleton_append, length?, if_pos hfirst, hvalue]
  · rename_i hlong
    have hbits : bitLength n ≤ 28 := bitLength_le_iff.mpr h
    have hcount : octetLength n ≤ 4 := by
      rw [octetLength]
      omega
    have hcounts : 0x80 + octetLength n < UInt8.size :=
      (Nat.add_le_add_left hcount 0x80).trans_lt (by decide)
    have hvalue : (UInt8.ofNat (0x80 + octetLength n)).toNat = 0x80 + octetLength n :=
      UInt8.toNat_ofNat_of_lt' hcounts
    have hfirst : ¬ UInt8.ofNat (0x80 + octetLength n) < 0x80 := by
      rw [UInt8.lt_iff_toNat_lt, hvalue]
      exact (Nat.le_add_right 0x80 _).not_gt
    have hnumeral : n < 2 ^ (8 * octetLength n) := by
      refine bitLength_le_iff.mp ?_
      rw [octetLength]
      omega
    have hread : beValue (be (octetLength n) n) = n := beValue_beBlock hnumeral
    have hlength := length_be (octetLength n) n
    rw [List.cons_append, length?, if_neg hfirst, hvalue, Nat.add_sub_cancel_left]
    dsimp only
    rw [List.take_left' hlength, List.drop_left' hlength, hread]
    refine if_pos ⟨?_, rfl, not_lt.mp hlong, h⟩
    rw [List.length_append, hlength]
    exact Nat.le_add_right _ _

/-! ### Values -/

def written (tag : UInt8) (x : Bytes) : Bytes := tag :: (writtenLength x.length ++ x)

theorem isTag_sequenceTag : isTag sequenceTag = true := rfl

theorem isTag_octetStringTag : isTag octetStringTag = true := rfl

theorem isTag_bitStringTag : isTag bitStringTag = true := rfl

theorem isTag_integerTag : isTag integerTag = true := rfl

variable {tag : UInt8} {x : Bytes}

theorem written_ne_nil (tag : UInt8) (x : Bytes) : written tag x ≠ [] := List.cons_ne_nil _ _

theorem length_written_le (h : x.length < 0x10000000) : (written tag x).length ≤ x.length + 6 := by
  have hl := length_writtenLength_le h
  rw [written, List.length_cons, List.length_append]
  omega

theorem value?_written (htag : isTag tag = true) (h : x.length < 0x10000000) (rest : Bytes) :
    value? (written tag x ++ rest) = some ((tag, x), rest) := by
  rw [written, List.cons_append, List.append_assoc, value?, length?_writtenLength h]
  simp [htag]

theorem contents?_written (htag : isTag tag = true) (h : x.length < 0x10000000) (rest : Bytes) :
    contents? tag (written tag x ++ rest) = some (x, rest) := by
  simp [contents?, value?_written htag h]

theorem whole?_written (htag : isTag tag = true) (h : x.length < 0x10000000) :
    whole? tag (written tag x) = some x := by
  have hcontents := contents?_written htag h []
  rw [List.append_nil] at hcontents
  simp [whole?, hcontents]

/-! ### Unsigned integers -/

def writtenUnsigned (n : Nat) : Bytes := written integerTag (be (bitLength n / 8 + 1) n)

/-- The zero bit in front of the digits keeps the first octet below 0x80, and no octet is spent on
zeros alone. -/
theorem unsignedValue?_be (n : Nat) : unsignedValue? (be (bitLength n / 8 + 1) n) = some n := by
  have hnumeral : n < 2 ^ (8 * (bitLength n / 8 + 1)) := bitLength_le_iff.mp (by omega)
  have hvalue : beValue (be (bitLength n / 8 + 1) n) = n := beValue_beBlock hnumeral
  have hlength := length_be (bitLength n / 8 + 1) n
  generalize be (bitLength n / 8 + 1) n = b at hvalue hlength ⊢
  have htop {x : UInt8} {rest : Bytes} (hb : beValue (x :: rest) = n) :
      0x80 ≤ x ↔ 8 * rest.length + 7 < bitLength n := by
    rw [lt_bitLength_iff, ← hb, two_pow_le_beValue_cons_iff]
    exact UInt8.le_iff_toNat_le
  cases b with
  | nil => cases hlength
  | cons x rest =>
    rw [List.length_cons, Nat.add_right_cancel_iff] at hlength
    have hx : ¬ 0x80 ≤ x := by
      rw [htop hvalue]
      omega
    cases rest with
    | nil =>
      rw [unsignedValue?, if_pos (UInt8.not_le.mp hx), ← hvalue]
      exact congrArg some (Nat.zero_add _).symm
    | cons y rest =>
      rw [List.length_cons] at hlength
      have hy : ¬ (x = 0 ∧ y < 0x80) := by
        rintro ⟨rfl, hy⟩
        rw [beValue_cons, UInt8.toNat_zero, Nat.zero_mul, Nat.zero_add] at hvalue
        refine UInt8.not_le.mpr hy ((htop hvalue).mpr ?_)
        omega
      rw [unsignedValue?, if_neg (not_or.mpr ⟨hx, hy⟩), hvalue]

theorem length_writtenUnsigned_le {n : Nat} (h : bitLength n ≤ 0x100000) :
    (writtenUnsigned n).length ≤ bitLength n / 8 + 7 := by
  have hl : (be (bitLength n / 8 + 1) n).length = bitLength n / 8 + 1 := length_be _ n
  have hw : (writtenUnsigned n).length ≤ (be (bitLength n / 8 + 1) n).length + 6 :=
    length_written_le (by omega)
  omega

theorem unsigned?_writtenUnsigned {n : Nat} (h : bitLength n ≤ 0x100000) (rest : Bytes) :
    unsigned? (writtenUnsigned n ++ rest) = some (n, rest) := by
  have hl : (be (bitLength n / 8 + 1) n).length = bitLength n / 8 + 1 := length_be _ n
  have hcontents := contents?_written isTag_integerTag
    (by omega : (be (bitLength n / 8 + 1) n).length < 0x10000000) rest
  rw [← writtenUnsigned] at hcontents
  simp [unsigned?, hcontents, unsignedValue?_be]

theorem unsignedMany?_flatMap {l : List Nat} (h : ∀ n ∈ l, bitLength n ≤ 0x100000) :
    unsignedMany? l.length (l.flatMap writtenUnsigned) = some l := by
  induction l with
  | nil => rfl
  | cons n l ih =>
    have hn := h n List.mem_cons_self
    have hl := ih fun m hm => h m (List.mem_cons_of_mem n hm)
    simp [unsignedMany?, unsigned?_writtenUnsigned hn, hl]

theorem length_flatMap_writtenUnsigned_le {l : List Nat} (h : ∀ n ∈ l, bitLength n ≤ 0x100000) :
    (l.flatMap writtenUnsigned).length ≤ 0x20010 * l.length := by
  induction l with
  | nil => exact le_rfl
  | cons n l ih =>
    have hbits := h n List.mem_cons_self
    have hn := length_writtenUnsigned_le hbits
    have hl := ih fun m hm => h m (List.mem_cons_of_mem n hm)
    rw [List.flatMap_cons, List.length_append, List.length_cons]
    omega

end SignedBoot.Der
