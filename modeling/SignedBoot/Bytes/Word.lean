import SignedBoot.Bytes.Numeral

/-!
# Machine words on the wire

Half words and words stand in little-endian order. Each reader is the inverse of its writer, in
both directions (`readWord16?_eq_some_iff`, `readWord32?_eq_some_iff`).
-/

namespace SignedBoot

def word16 (w : UInt16) : Bytes := le 2 w.toNat

def word32 (w : UInt32) : Bytes := le 4 w.toNat

@[simp]
theorem length_word16 (w : UInt16) : (word16 w).length = 2 := length_le 2 _

@[simp]
theorem length_word32 (w : UInt32) : (word32 w).length = 4 := length_le 4 _

def readWord16? (b : Bytes) : Option (UInt16 × Bytes) := do
  let (x, rest) ← Block.read? 2 b
  return (UInt16.ofNat (leValue x.bytes), rest)

def readWord32? (b : Bytes) : Option (UInt32 × Bytes) := do
  let (x, rest) ← Block.read? 4 b
  return (UInt32.ofNat (leValue x.bytes), rest)

theorem ofNat_leValue_eq_iff16 (x : Block 2) (w : UInt16) :
    UInt16.ofNat (leValue x.bytes) = w ↔ x.bytes = word16 w := by
  constructor
  · rintro rfl
    have h := leValue_lt x.bytes
    rw [x.length_bytes] at h
    rw [word16, UInt16.toNat_ofNat_of_lt' h]
    simpa using (le_leValue x.bytes).symm
  · intro h
    have hw : w.toNat < octetRange 2 := w.toNat_lt
    rw [h, word16, leValue_le, Nat.mod_eq_of_lt hw]
    simp

theorem ofNat_leValue_eq_iff32 (x : Block 4) (w : UInt32) :
    UInt32.ofNat (leValue x.bytes) = w ↔ x.bytes = word32 w := by
  constructor
  · rintro rfl
    have h := leValue_lt x.bytes
    rw [x.length_bytes] at h
    rw [word32, UInt32.toNat_ofNat_of_lt' h]
    simpa using (le_leValue x.bytes).symm
  · intro h
    have hw : w.toNat < octetRange 4 := w.toNat_lt
    rw [h, word32, leValue_le, Nat.mod_eq_of_lt hw]
    simp

theorem readWord16?_eq_some_iff {b rest : Bytes} {w : UInt16} :
    readWord16? b = some (w, rest) ↔ b = word16 w ++ rest := by
  constructor
  · intro h
    obtain ⟨⟨x, r⟩, hx, hw⟩ := Option.bind_eq_some_iff.mp h
    simp only [Option.pure_def, Option.some.injEq, Prod.mk.injEq] at hw
    obtain ⟨hw, rfl⟩ := hw
    rw [Block.read?_eq_some_iff.mp hx, (ofNat_leValue_eq_iff16 x w).mp hw]
  · rintro rfl
    have h := Block.read?_append (⟨word16 w, length_word16 w⟩ : Block 2) rest
    simp only at h
    simp [readWord16?, h, (ofNat_leValue_eq_iff16 ⟨word16 w, length_word16 w⟩ w).mpr rfl]

theorem readWord32?_eq_some_iff {b rest : Bytes} {w : UInt32} :
    readWord32? b = some (w, rest) ↔ b = word32 w ++ rest := by
  constructor
  · intro h
    obtain ⟨⟨x, r⟩, hx, hw⟩ := Option.bind_eq_some_iff.mp h
    simp only [Option.pure_def, Option.some.injEq, Prod.mk.injEq] at hw
    obtain ⟨hw, rfl⟩ := hw
    rw [Block.read?_eq_some_iff.mp hx, (ofNat_leValue_eq_iff32 x w).mp hw]
  · rintro rfl
    have h := Block.read?_append (⟨word32 w, length_word32 w⟩ : Block 4) rest
    simp only at h
    simp [readWord32?, h, (ofNat_leValue_eq_iff32 ⟨word32 w, length_word32 w⟩ w).mpr rfl]

end SignedBoot
