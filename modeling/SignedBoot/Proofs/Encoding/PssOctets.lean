import Mathlib
import SignedBoot.Proofs.Encoding.Pss

/-!
# EMSA-PSS octet by octet

What stands at each place of an encoded message, without the functions that build one and take one
apart (`EmsaPss.IsEncoding`). `Pss.encode` makes the one message of that form
(`Pss.isEncoding_iff`), and `Pss.recover` finds equal hashes in these messages alone
(`Pss.recover_agrees_iff_encoding`).
-/

namespace SignedBoot

namespace EmsaPss

/-! ### Octets -/

/-- The hash of eight zero octets, a digest and a salt. -/
def hash (digest : Digest) (salt : Bytes) : Digest :=
  sha256 ([0x00, 0x00, 0x00, 0x00, 0x00, 0x00, 0x00, 0x00] ++ digest.bytes ++ salt)

/-- A counter of MGF1 in four octets. -/
def counter (i : Nat) : Bytes :=
  [UInt8.ofNat (i / 2 ^ 24), UInt8.ofNat (i / 2 ^ 16), UInt8.ofNat (i / 2 ^ 8), UInt8.ofNat i]

/-- An octet of the mask that MGF1 makes of a seed. The counter goes up with every hash. -/
def maskOctet (seed : Digest) (i : Nat) : UInt8 :=
  (sha256 (seed.bytes ++ counter (i / 32))).bytes.getD (i % 32) 0

/-- An octet of a data block of `n`: zeros, a one, and the salt at the end. -/
def dataOctet (n : Nat) (salt : Bytes) (i : Nat) : UInt8 :=
  if i + salt.length + 1 < n then 0x00
  else if i + salt.length + 1 = n then 0x01
  else salt.getD (i + salt.length - n) 0

/-- An encoded message of a digest under a salt, for a number of bits. Its last octet is fixed and
the hash stands before it. The octets in front are those of the data block under the mask, but for
the leftmost bits that the number of bits leaves over: they are zero. -/
structure IsEncoding (digest : Digest) (salt : Bytes) (bits : Nat) (em : Bytes) : Prop where
  length_eq : em.length = bits ⌈/⌉ 8
  room : 32 + salt.length + 2 ≤ em.length
  first : ∃ x, em[0]? = some x ∧ x.toNat =
    (dataOctet (em.length - 33) salt 0 ^^^ maskOctet (hash digest salt) 0).toNat %
      2 ^ (8 - (8 * em.length - bits))
  masked : ∀ i, 0 < i → i < em.length - 33 →
    em[i]? = some (dataOctet (em.length - 33) salt i ^^^ maskOctet (hash digest salt) i)
  hash_eq : ∀ i < 32, em[em.length - 33 + i]? = (hash digest salt).bytes[i]?
  last : em[em.length - 1]? = some 0xbc

variable {digest : Digest} {salt em : Bytes} {bits : Nat}

/-- Every place of an encoding is fixed. -/
theorem IsEncoding.unique {em' : Bytes} (h : IsEncoding digest salt bits em)
    (h' : IsEncoding digest salt bits em') : em = em' := by
  have hlength : em'.length = em.length := h'.length_eq.trans h.length_eq.symm
  have hroom := h.room
  apply List.ext_getElem?
  intro i
  obtain ⟨x, hx, hvalue⟩ := h.first
  obtain ⟨x', hx', hvalue'⟩ := h'.first
  have hmasked' := h'.masked i
  have hhash := h.hash_eq (i - (em.length - 33))
  have hhash' := h'.hash_eq (i - (em.length - 33))
  have hlast := h.last
  have hlast' := h'.last
  rw [hlength] at hvalue' hmasked' hhash' hlast'
  by_cases hzero : i = 0
  · rw [hzero, hx, hx', UInt8.toNat_inj.mp (hvalue.trans hvalue'.symm)]
  by_cases hmask : i < em.length - 33
  · rw [h.masked i (Nat.pos_of_ne_zero hzero) hmask, hmasked' (Nat.pos_of_ne_zero hzero) hmask]
  by_cases hmiddle : i < em.length - 1
  · rw [show em.length - 33 + (i - (em.length - 33)) = i by omega] at hhash hhash'
    rw [hhash (by omega), hhash' (by omega)]
  by_cases hend : i = em.length - 1
  · rw [hend, hlast, hlast']
  · rw [List.getElem?_eq_none (by omega), List.getElem?_eq_none (by omega)]

end EmsaPss

/-! ### The octets of an encoded message -/

namespace Pss

variable {digest : Digest} {salt : Bytes} {bits : Nat}

theorem be_four (i : Nat) : be 4 i = EmsaPss.counter i := by
  simp [be, le, EmsaPss.counter, Nat.div_div_eq_div_mul]

theorem getElem?_flatMap_range (f : Nat → Digest) {k i : Nat} (h : i < 32 * k) :
    ((List.range k).flatMap fun j => (f j).bytes)[i]? = (f (i / 32)).bytes[i % 32]? := by
  induction k with
  | zero => exact absurd h (Nat.not_lt_zero i)
  | succ k ih =>
    have hlength : ((List.range k).flatMap fun j => (f j).bytes).length = 32 * k := by
      simp [List.length_flatMap, Nat.mul_comm]
    rw [List.range_succ, List.flatMap_append, List.flatMap_singleton]
    by_cases hi : i < 32 * k
    · rw [List.getElem?_append_left (hlength.symm ▸ hi), ih hi]
    · rw [List.getElem?_append_right (hlength.symm ▸ not_lt.mp hi), hlength,
        show i / 32 = k by omega, show i % 32 = i - 32 * k by omega]

theorem getElem?_mask (seed : Digest) {n i : Nat} (h : i < n) :
    (mask seed.bytes n)[i]? = some (EmsaPss.maskOctet seed i) := by
  have hblocks := getElem?_flatMap_range (fun j => sha256 (seed.bytes ++ be 4 j))
    (show i < 32 * ((n + 31) / 32) by omega)
  have hrem : i % 32 < (sha256 (seed.bytes ++ EmsaPss.counter (i / 32))).bytes.length := by
    rw [Block.length_bytes]
    exact Nat.mod_lt i (by decide)
  rw [mask, List.getElem?_take_of_lt h, hblocks, be_four, List.getElem?_eq_getElem hrem,
    EmsaPss.maskOctet, List.getD_eq_getElem _ _ hrem]

theorem getElem?_dataBlock {n i : Nat} (hn : salt.length < n) (hi : i < n) :
    (dataBlock n salt)[i]? = some (EmsaPss.dataOctet n salt i) := by
  unfold EmsaPss.dataOctet dataBlock
  split
  · rw [List.getElem?_append_left (by rw [List.length_replicate]; omega), List.getElem?_replicate,
      if_pos (by omega)]
  rename_i hfront
  rw [List.getElem?_append_right (by rw [List.length_replicate]; omega), List.length_replicate]
  split
  · rw [show i - (n - salt.length - 1) = 0 by omega]
    rfl
  · have hsalt : i + salt.length - n < salt.length := by omega
    rw [show i - (n - salt.length - 1) = i + salt.length - n + 1 by omega, List.getElem?_cons_succ,
      List.getElem?_eq_getElem hsalt, List.getD_eq_getElem _ _ hsalt]

theorem getElem?_clearTop_zero {b : Bytes} {x : UInt8} (h : b[0]? = some x) :
    (clearTop bits b)[0]? = some (x &&& topMask bits) := by
  cases b with
  | nil => cases h
  | cons y rest =>
    cases h
    rfl

theorem getElem?_clearTop_of_pos {b : Bytes} {i : Nat} (h : 0 < i) :
    (clearTop bits b)[i]? = b[i]? := by
  obtain ⟨i, rfl⟩ := Nat.exists_eq_add_one.mpr h
  cases b <;> rfl

theorem saltedHash_eq : saltedHash digest salt = EmsaPss.hash digest salt := by
  simp [saltedHash, EmsaPss.hash, List.replicate]

/-- An encoded message in its parts, with the octets of the block in front before their leftmost
bits are cleared. -/
theorem exists_encode_eq (digest : Digest) (h : salt.length + 34 ≤ encodedLength bits) :
    ∃ block, block.length = encodedLength bits - 33 ∧
      (∀ i < encodedLength bits - 33, block[i]? = some
        (EmsaPss.dataOctet (encodedLength bits - 33) salt i ^^^
          EmsaPss.maskOctet (EmsaPss.hash digest salt) i)) ∧
      encode digest salt bits =
        clearTop bits block ++ ((EmsaPss.hash digest salt).bytes ++ [trailer]) := by
  have hsalt : salt.length < encodedLength bits - 33 := by omega
  have hdb : (dataBlock (encodedLength bits - 33) salt).length = encodedLength bits - 33 :=
    length_dataBlock hsalt
  refine ⟨xor (dataBlock (encodedLength bits - 33) salt)
    (mask (EmsaPss.hash digest salt).bytes (encodedLength bits - 33)), ?_, ?_, ?_⟩
  · rw [length_xor (hdb.trans (length_mask _ _).symm), length_mask]
  · intro i hi
    rw [xor, List.getElem?_zipWith, getElem?_dataBlock hsalt hi, getElem?_mask _ hi]
  · rw [encode_eq, hdb, saltedHash_eq]

/-- What is made has the form. -/
theorem isEncoding_encode (h : salt.length + 34 ≤ encodedLength bits) :
    EmsaPss.IsEncoding digest salt bits (encode digest salt bits) := by
  have hlength : (encode digest salt bits).length = encodedLength bits := length_encode h
  obtain ⟨block, hblock, hmasked, heq⟩ := exists_encode_eq digest h
  rw [← length_clearTop bits] at hblock
  have hfront {i : Nat} (hi : i < encodedLength bits - 33) :
      (encode digest salt bits)[i]? = (clearTop bits block)[i]? := by
    rw [heq, List.getElem?_append_left (hi.trans_eq hblock.symm)]
  have hback (i : Nat) : (encode digest salt bits)[encodedLength bits - 33 + i]? =
      ((EmsaPss.hash digest salt).bytes ++ [trailer])[i]? := by
    rw [heq, List.getElem?_append_right (by omega), hblock, Nat.add_sub_cancel_left]
  constructor
  · rw [hlength, encodedLength_eq_ceilDiv]
  · omega
  · rw [hlength]
    refine ⟨_, (hfront (by omega)).trans (getElem?_clearTop_zero (hmasked 0 (by omega))), ?_⟩
    exact toNat_and_topMask bits _
  · intro i hpos hi
    rw [hlength] at hi ⊢
    rw [hfront hi, getElem?_clearTop_of_pos hpos, hmasked i hi]
  · intro i hi
    rw [hlength, hback, List.getElem?_append_left (hi.trans_eq (Block.length_bytes _).symm)]
  · rw [hlength, show encodedLength bits - 1 = encodedLength bits - 33 + 32 by omega, hback,
      List.getElem?_append_right (Block.length_bytes _).le, Block.length_bytes]
    rfl

/-- What has the form is what is made. -/
theorem isEncoding_iff {em : Bytes} :
    EmsaPss.IsEncoding digest salt bits em ↔
      salt.length + 34 ≤ encodedLength bits ∧ em = encode digest salt bits := by
  constructor
  · intro h
    have hroom : salt.length + 34 ≤ encodedLength bits := by
      have hle := h.room
      rw [h.length_eq, ← encodedLength_eq_ceilDiv] at hle
      omega
    exact ⟨hroom, h.unique (isEncoding_encode hroom)⟩
  · rintro ⟨hroom, rfl⟩
    exact isEncoding_encode hroom

/-! ### Taking encoded messages apart -/

/-- A message is taken apart into equal hashes exactly when it is an encoding of the digest under a
salt of the template's length, behind any number of zeros. A salt that fits the number of bits has
one encoding, and every encoding is taken apart into its hash. -/
theorem recover_agrees_iff_encoding {template : Template} (hh : template.hashLength = 32)
    {modulusBits : Nat} (hbits : 1 ≤ modulusBits) (hmax : (modulusBits - 1) ⌈/⌉ 8 ≤ 512)
    (digest : Digest) :
    (∀ em, (∃ hash, recover em digest template modulusBits = .ok ⟨hash, hash⟩) ↔
        ∃ zeros salt message, em = List.replicate zeros 0 ++ message ∧
          salt.length = template.saltLength.toNat ∧
          EmsaPss.IsEncoding digest salt (modulusBits - 1) message) ∧
      (∀ salt : Bytes, 32 + salt.length + 2 ≤ (modulusBits - 1) ⌈/⌉ 8 →
        ∃! message, EmsaPss.IsEncoding digest salt (modulusBits - 1) message) ∧
      ∀ salt message, salt.length = template.saltLength.toNat →
        EmsaPss.IsEncoding digest salt (modulusBits - 1) message → ∀ zeros,
          recover (List.replicate zeros 0 ++ message) digest template modulusBits =
            .ok ⟨EmsaPss.hash digest salt, EmsaPss.hash digest salt⟩ := by
  have hpos : modulusBits ≠ 0 := by omega
  rw [← encodedLength_eq_ceilDiv] at hmax
  simp only [isEncoding_iff, ← encodedLength_eq_ceilDiv]
  refine ⟨fun em => (recover_agrees_iff hh hpos hmax).trans ?_, fun salt h => ?_, ?_⟩
  · constructor
    · rintro ⟨h, zeros, salt, hsalt, rfl⟩
      exact ⟨zeros, salt, _, rfl, hsalt, hsalt ▸ h, rfl⟩
    · rintro ⟨zeros, salt, _, rfl, hsalt, h, rfl⟩
      exact ⟨hsalt ▸ h, zeros, salt, hsalt, rfl⟩
  · exact ⟨_, ⟨by omega, rfl⟩, fun message hmessage => hmessage.2⟩
  · rintro salt _ hsalt ⟨h, rfl⟩ zeros
    rw [recover_encode hh hpos hmax h hsalt zeros, saltedHash_eq]

/-- A modulus of 529 bits has one octet more than its encodings, which have just room for a salt of
32 octets and no zeros before the separator. -/
theorem tight_encoding_behind_zero_recovered :
    Template.standard.hashLength = 32 ∧ 1 ≤ 529 ∧ (529 - 1) ⌈/⌉ 8 ≤ 512 ∧
      (529 - 1) ⌈/⌉ 8 = Template.standard.saltLength.toNat + 34 ∧
      ∃ message, EmsaPss.IsEncoding (.zero 32) (List.replicate 32 0xa5) 528 message ∧
        recover (0 :: message) (.zero 32) .standard 529 =
          .ok ⟨EmsaPss.hash (.zero 32) (List.replicate 32 0xa5),
            EmsaPss.hash (.zero 32) (List.replicate 32 0xa5)⟩ := by
  have hlength : (529 - 1) ⌈/⌉ 8 = 66 := by
    rw [← encodedLength_eq_ceilDiv]
    rfl
  have hmax : (529 - 1) ⌈/⌉ 8 ≤ 512 := by
    rw [hlength]
    decide
  obtain ⟨-, hunique, hrecover⟩ := recover_agrees_iff_encoding
    (show Template.standard.hashLength = 32 from rfl) (by decide) hmax (.zero 32)
  obtain ⟨message, hmessage, -⟩ := hunique (List.replicate 32 0xa5) (by rw [hlength]; decide)
  exact ⟨rfl, by decide, hmax, hlength, message, hmessage, hrecover _ message rfl hmessage 1⟩

end Pss

end SignedBoot
