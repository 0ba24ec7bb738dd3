import Mathlib
import SignedBoot.Encoding.Pss

/-!
# Taking EMSA-PSS encodings apart

Masking a data block is undone by masking it again, so what `Pss.encode` makes under a salt is what
`Pss.recoverExact` takes apart into equal hashes (`Pss.recoverExact_agrees_iff`). The position of
the separator shows how long the salt is: an encoding has one salt (`Pss.encode_inj`). Whole
messages may have zeros in front (`Pss.recover_agrees_iff`).
-/

namespace SignedBoot.Pss

/-! ### Masks -/

theorem length_mask (seed : Bytes) (n : Nat) : (mask seed n).length = n := by
  have hblocks : ((List.range ((n + 31) / 32)).flatMap fun i =>
      (sha256 (seed ++ be 4 i)).bytes).length = (n + 31) / 32 * 32 := by
    simp [List.length_flatMap]
  rw [mask, List.length_take, hblocks]
  omega

theorem length_xor {a b : Bytes} (h : a.length = b.length) : (xor a b).length = b.length := by
  rw [xor, List.length_zipWith, h, min_self]

@[simp]
theorem length_clearTop (bits : Nat) (b : Bytes) : (clearTop bits b).length = b.length := by
  cases b <;> rfl

theorem and_masked (x m k : UInt8) : ((x ^^^ m) &&& k ^^^ m) &&& k = x &&& k := by
  apply UInt8.toBitVec_inj.mp
  ext i hi
  simp only [UInt8.toBitVec_and, UInt8.toBitVec_xor, BitVec.getElem_and, BitVec.getElem_xor]
  cases x.toBitVec[i] <;> cases m.toBitVec[i] <;> cases k.toBitVec[i] <;> rfl

theorem xor_xor_self {a m : Bytes} (h : a.length = m.length) : xor (xor a m) m = a := by
  induction a generalizing m with
  | nil => rfl
  | cons x a ih =>
    cases m with
    | nil => cases h
    | cons y m =>
      have hrest := ih (Nat.succ.inj h)
      have hhead : x ^^^ y ^^^ y = x := by
        rw [UInt8.xor_assoc, UInt8.xor_self, UInt8.xor_zero]
      simp only [xor, List.zipWith_cons_cons] at hrest ⊢
      rw [hhead, hrest]

/-- Masking twice leaves a data block as it is, up to the bits that an encoding may not use. -/
theorem clearTop_xor_clearTop_xor {a m : Bytes} (h : a.length = m.length) (bits : Nat) :
    clearTop bits (xor (clearTop bits (xor a m)) m) = clearTop bits a := by
  cases a with
  | nil => rfl
  | cons x a =>
    cases m with
    | nil => cases h
    | cons y m =>
      have hrest := xor_xor_self (Nat.succ.inj h)
      simp only [xor] at hrest
      simp only [xor, List.zipWith_cons_cons, clearTop, and_masked, hrest]

theorem clearTop_clearTop (bits : Nat) (b : Bytes) :
    clearTop bits (clearTop bits b) = clearTop bits b := by
  cases b with
  | nil => rfl
  | cons x b => simp only [clearTop, UInt8.and_assoc, UInt8.and_self]

theorem encodedLength_eq_ceilDiv (bits : Nat) : encodedLength bits = bits ⌈/⌉ 8 :=
  (Nat.ceilDiv_eq_add_pred_div bits 8).symm

theorem unusedBits_lt (bits : Nat) : 8 * encodedLength bits - bits < 8 := by
  rw [encodedLength]
  omega

theorem separator_and_topMask (bits : Nat) : separator &&& topMask bits = separator := by
  have hlt := unusedBits_lt bits
  unfold topMask
  interval_cases 8 * encodedLength bits - bits <;> rfl

/-- The mask of the first octet takes its value modulo a power of two. -/
theorem toNat_and_topMask (bits : Nat) (x : UInt8) :
    (x &&& topMask bits).toNat = x.toNat % 2 ^ (8 - (8 * encodedLength bits - bits)) := by
  have hlt := unusedBits_lt bits
  have hmask : (topMask bits).toNat = 2 ^ (8 - (8 * encodedLength bits - bits)) - 1 := by
    unfold topMask
    interval_cases 8 * encodedLength bits - bits <;> rfl
  rw [UInt8.toNat_and, hmask, Nat.and_two_pow_sub_one_eq_mod]

/-! ### Data blocks -/

/-- A data block of `n` octets: zeros, the separator and a salt. -/
def dataBlock (n : Nat) (salt : Bytes) : Bytes :=
  List.replicate (n - salt.length - 1) 0 ++ separator :: salt

theorem length_dataBlock {n : Nat} {salt : Bytes} (h : salt.length < n) :
    (dataBlock n salt).length = n := by
  rw [dataBlock, List.length_append, List.length_replicate, List.length_cons]
  omega

/-- The first octet of a data block is zero or the separator. -/
theorem clearTop_dataBlock (bits n : Nat) (salt : Bytes) :
    clearTop bits (dataBlock n salt) = dataBlock n salt := by
  rw [dataBlock]
  cases n - salt.length - 1 with
  | zero => simp only [List.replicate_zero, List.nil_append, clearTop, separator_and_topMask]
  | succ k => simp only [List.replicate_succ, List.cons_append, clearTop, UInt8.zero_and]

theorem salt?_eq_some_iff {saltLength : Nat} {db salt : Bytes} (h : saltLength < db.length) :
    salt? saltLength db = some salt ↔ salt.length = saltLength ∧ db = dataBlock db.length salt := by
  simp only [salt?]
  generalize hz : db.length - saltLength - 1 = zeros
  constructor
  · intro hs
    split at hs
    · rename_i x tail hdrop
      split at hs
      · rename_i hfront
        cases hs
        obtain ⟨hall, rfl⟩ := hfront
        have hlength := congrArg List.length hdrop
        rw [List.length_drop, List.length_cons] at hlength
        have htake : db.take zeros = List.replicate zeros 0 := by
          refine List.eq_replicate_iff.mpr ⟨?_, ?_⟩
          · rw [List.length_take]
            omega
          · simpa using hall
        refine ⟨by omega, ?_⟩
        rw [dataBlock, show db.length - salt.length - 1 = zeros by omega, ← hdrop, ← htake,
          List.take_append_drop]
      · cases hs
    · cases hs
  · rintro ⟨rfl, hdb⟩
    rw [dataBlock, hz] at hdb
    have hdrop : db.drop zeros = separator :: salt := by
      rw [hdb]
      exact List.drop_left' List.length_replicate
    have htake : db.take zeros = List.replicate zeros 0 := by
      rw [hdb]
      exact List.take_left' List.length_replicate
    rw [hdrop, htake]
    exact if_pos ⟨by simp, rfl⟩

theorem dataBlock_inj {n : Nat} {salt salt' : Bytes} (h : salt.length < n)
    (h' : salt'.length < n) (heq : dataBlock n salt = dataBlock n salt') : salt = salt' := by
  have hlength := length_dataBlock h
  have hlength' := length_dataBlock h'
  -- the separator is the first octet that is not zero
  have hfirst (s : Bytes) : (dataBlock n s).dropWhile (· == 0) = separator :: s := by
    rw [dataBlock, List.dropWhile_append_of_pos (by simp)]
    rfl
  have hs := hfirst salt
  rw [heq, hfirst salt'] at hs
  exact (List.cons.inj hs).2.symm

/-! ### Encodings -/

theorem encode_eq {digest : Digest} {salt : Bytes} {bits : Nat} :
    encode digest salt bits =
      clearTop bits (xor (dataBlock (encodedLength bits - 33) salt)
        (mask (saltedHash digest salt).bytes
          (dataBlock (encodedLength bits - 33) salt).length)) ++
        ((saltedHash digest salt).bytes ++ [trailer]) := by
  have hzeros : encodedLength bits - 33 - salt.length - 1 =
      encodedLength bits - salt.length - 34 := by
    omega
  rw [dataBlock, hzeros]
  rfl

theorem length_encode {digest : Digest} {salt : Bytes} {bits : Nat}
    (h : salt.length + 34 ≤ encodedLength bits) :
    (encode digest salt bits).length = encodedLength bits := by
  have hdb : (dataBlock (encodedLength bits - 33) salt).length = encodedLength bits - 33 :=
    length_dataBlock (by omega)
  rw [encode_eq, List.length_append, length_clearTop, length_xor (length_mask _ _).symm,
    length_mask, hdb]
  simp
  omega

/-- An encoded message is taken apart into a masked data block, a hash and the trailer. -/
theorem recoverExact_eq_ok_iff {em : Bytes} {digest : Digest} {saltLength bits : Nat}
    {tokens : Tokens} :
    recoverExact em digest saltLength bits = .ok tokens ↔
      saltLength + 34 ≤ encodedLength bits ∧ ∃ masked salt,
      em = masked ++ (tokens.recovered.bytes ++ [trailer]) ∧
      masked.length = encodedLength bits - 33 ∧ clearTop bits masked = masked ∧
      salt? saltLength (clearTop bits (xor masked (mask tokens.recovered.bytes masked.length))) =
        some salt ∧
      tokens.reference = saltedHash digest salt := by
  unfold recoverExact
  dsimp only
  constructor
  · intro hr
    split at hr
    · rename_i hash x hread
      split at hr
      · cases hr
      rename_i hguard
      simp only [not_or, not_not] at hguard
      obtain ⟨hroom, rfl, htop⟩ := hguard
      split at hr
      · rename_i salt hsalt
        cases hr
        have hdrop := Block.read?_eq_some_iff.mp hread
        have hlength := congrArg List.length hdrop
        rw [List.length_drop, List.length_append, Block.length_bytes] at hlength
        have hmasked : (em.take (encodedLength bits - 33)).length = encodedLength bits - 33 := by
          rw [List.length_take]
          simp only [List.length_singleton] at hlength
          omega
        refine ⟨by omega, em.take (encodedLength bits - 33), salt, ?_, hmasked, htop, ?_, rfl⟩
        · rw [← hdrop, List.take_append_drop]
        · rw [hmasked]
          exact hsalt
      · cases hr
    · cases hr
  · rintro ⟨h, masked, salt, rfl, hmasked, htop, hsalt, href⟩
    have hguard : ¬ (encodedLength bits < 32 + saltLength + 2 ∨ trailer ≠ trailer ∨
        clearTop bits masked ≠ masked) := by
      rw [not_or, not_or, not_not, not_not]
      exact ⟨by omega, rfl, htop⟩
    rw [hmasked] at hsalt
    rw [← hmasked, List.drop_left, List.take_left, Block.read?_append]
    dsimp only
    rw [if_neg hguard, hmasked, hsalt]
    dsimp only
    rw [← href]

/-- An encoding of the digest is taken apart into its hash, which is also the one to be met. -/
theorem recoverExact_encode {digest : Digest} {salt : Bytes} {bits : Nat}
    (h : salt.length + 34 ≤ encodedLength bits) :
    recoverExact (encode digest salt bits) digest salt.length bits =
      .ok ⟨saltedHash digest salt, saltedHash digest salt⟩ := by
  have hdb : (dataBlock (encodedLength bits - 33) salt).length = encodedLength bits - 33 :=
    length_dataBlock (by omega)
  have hseed := length_mask (saltedHash digest salt).bytes
    (dataBlock (encodedLength bits - 33) salt).length
  have hmasked : (clearTop bits (xor (dataBlock (encodedLength bits - 33) salt)
      (mask (saltedHash digest salt).bytes
        (dataBlock (encodedLength bits - 33) salt).length))).length =
      (dataBlock (encodedLength bits - 33) salt).length := by
    rw [length_clearTop, length_xor hseed.symm, hseed]
  refine recoverExact_eq_ok_iff.mpr ⟨h, _, salt, encode_eq, hmasked.trans hdb,
    clearTop_clearTop bits _, ?_, rfl⟩
  rw [hmasked, clearTop_xor_clearTop_xor hseed.symm, clearTop_dataBlock,
    salt?_eq_some_iff (by omega), hdb]
  exact ⟨rfl, rfl⟩

/-- Equal hashes are recovered from the encodings of the digest under salts of the one length, and
from nothing else. -/
theorem recoverExact_agrees_iff {em : Bytes} {digest : Digest} {saltLength bits : Nat} :
    (∃ hash, recoverExact em digest saltLength bits = .ok ⟨hash, hash⟩) ↔
      saltLength + 34 ≤ encodedLength bits ∧
        ∃ salt, salt.length = saltLength ∧ em = encode digest salt bits := by
  constructor
  · simp only [recoverExact_eq_ok_iff]
    rintro ⟨hash, h, masked, salt, rfl, hmasked, htop, hsalt, rfl⟩
    have hseed := length_mask (saltedHash digest salt).bytes masked.length
    have hdb : (clearTop bits (xor masked
        (mask (saltedHash digest salt).bytes masked.length))).length = masked.length := by
      rw [length_clearTop, length_xor hseed.symm, hseed]
    obtain ⟨hlength, hblock⟩ := (salt?_eq_some_iff (by omega)).mp hsalt
    refine ⟨h, salt, hlength, ?_⟩
    rw [hdb] at hblock
    have hmask := clearTop_xor_clearTop_xor hseed.symm bits
    rw [hblock, htop] at hmask
    rw [encode_eq, ← hmasked, length_dataBlock (by omega), hmask]
  · rintro ⟨h, salt, rfl, rfl⟩
    exact ⟨_, recoverExact_encode h⟩

/-- An encoding shows its salt: it hashes to one hash, and the block under its mask has one salt. -/
theorem encode_inj {digest digest' : Digest} {salt salt' : Bytes} {bits : Nat}
    (h : salt.length + 34 ≤ encodedLength bits) (h' : salt'.length + 34 ≤ encodedLength bits)
    (heq : encode digest salt bits = encode digest' salt' bits) : salt = salt' := by
  have hdb : (dataBlock (encodedLength bits - 33) salt).length = encodedLength bits - 33 :=
    length_dataBlock (by omega)
  have hdb' : (dataBlock (encodedLength bits - 33) salt').length = encodedLength bits - 33 :=
    length_dataBlock (by omega)
  rw [encode_eq, encode_eq, hdb, hdb'] at heq
  have hlength (seed : Bytes) (db : Bytes) (hl : db.length = encodedLength bits - 33) :
      (clearTop bits (xor db (mask seed (encodedLength bits - 33)))).length =
        encodedLength bits - 33 := by
    rw [length_clearTop, length_xor (hl.trans (length_mask _ _).symm), length_mask]
  obtain ⟨hmasked, htail⟩ := List.append_inj heq
    ((hlength _ _ hdb).trans (hlength _ _ hdb').symm)
  have hhash := (List.append_inj htail (by simp)).1
  have hblock := congrArg (fun b => clearTop bits (xor b
    (mask (saltedHash digest salt).bytes (encodedLength bits - 33)))) hmasked
  rw [hhash] at hblock
  simp only [clearTop_xor_clearTop_xor (hdb.trans (length_mask _ _).symm),
    clearTop_xor_clearTop_xor (hdb'.trans (length_mask _ _).symm), clearTop_dataBlock] at hblock
  exact dataBlock_inj (by omega) (by omega) hblock

/-! ### Leading zeros -/

/-- Zeros in front of an encoded message are passed over. -/
theorem recover_replicate_append {em : Bytes} {template : Template} {modulusBits : Nat}
    (hh : template.hashLength = 32) (hbits : modulusBits ≠ 0)
    (hlength : em.length = encodedLength (modulusBits - 1)) (hmax : em.length ≤ maxLength)
    (zeros : Nat) (digest : Digest) :
    recover (List.replicate zeros 0 ++ em) digest template modulusBits =
      recoverExact em digest template.saltLength.toNat (modulusBits - 1) := by
  have htotal : (List.replicate zeros (0 : UInt8) ++ em).length = zeros + em.length := by
    rw [List.length_append, List.length_replicate]
  have hfront : zeros + em.length - em.length = zeros := Nat.add_sub_cancel zeros em.length
  have htake : (List.replicate zeros (0 : UInt8) ++ em).take zeros = List.replicate zeros 0 :=
    List.take_left' List.length_replicate
  have hdrop : (List.replicate zeros (0 : UInt8) ++ em).drop zeros = em :=
    List.drop_left' List.length_replicate
  have hfits : ¬ (em.length > zeros + em.length ∨ em.length > maxLength) := by
    omega
  have hzeros : (List.replicate zeros (0 : UInt8)).any (· ≠ 0) = false := by
    simp
  simp only [recover, hh, if_neg hbits, ← hlength, htotal, if_neg hfits, hfront, htake, hdrop,
    hzeros]
  rfl

/-- An encoding of the digest is taken apart into its hash behind any number of zeros. -/
theorem recover_encode {template : Template} (hh : template.hashLength = 32) {modulusBits : Nat}
    (hbits : modulusBits ≠ 0) (hmax : encodedLength (modulusBits - 1) ≤ maxLength)
    {digest : Digest} {salt : Bytes} (h : salt.length + 34 ≤ encodedLength (modulusBits - 1))
    (hsalt : salt.length = template.saltLength.toNat) (zeros : Nat) :
    recover (List.replicate zeros 0 ++ encode digest salt (modulusBits - 1)) digest template
      modulusBits = .ok ⟨saltedHash digest salt, saltedHash digest salt⟩ := by
  have hlength : (encode digest salt (modulusBits - 1)).length = _ := length_encode h
  rw [recover_replicate_append hh hbits hlength (hlength.trans_le hmax), ← hsalt]
  exact recoverExact_encode h

/-- An encoded message without leading zeros is taken apart as it is. -/
theorem recover_eq_recoverExact {em : Bytes} {template : Template} {modulusBits : Nat}
    (hh : template.hashLength = 32) (hbits : modulusBits ≠ 0)
    (hlength : em.length = encodedLength (modulusBits - 1)) (hmax : em.length ≤ maxLength)
    (digest : Digest) :
    recover em digest template modulusBits =
      recoverExact em digest template.saltLength.toNat (modulusBits - 1) :=
  recover_replicate_append hh hbits hlength hmax 0 digest

/-- What is taken apart is zeros in front of a message of exactly the length that its bits need. -/
theorem exists_of_recover {em : Bytes} {digest : Digest} {template : Template}
    {modulusBits : Nat} {tokens : Tokens}
    (h : recover em digest template modulusBits = .ok tokens) :
    ∃ zeros message, em = List.replicate zeros 0 ++ message ∧
      recoverExact message digest template.saltLength.toNat (modulusBits - 1) = .ok tokens := by
  unfold recover at h
  split at h
  · cases h
  split at h
  · cases h
  dsimp only at h
  split at h
  · cases h
  split at h
  · cases h
  rename_i hzeros
  refine ⟨em.length - encodedLength (modulusBits - 1), _, ?_, h⟩
  have htake : em.take (em.length - encodedLength (modulusBits - 1)) =
      List.replicate (em.length - encodedLength (modulusBits - 1)) 0 := by
    refine List.eq_replicate_iff.mpr ⟨?_, ?_⟩
    · rw [List.length_take]
      omega
    · simpa using hzeros
  rw [← htake, List.take_append_drop]

/-- Equal hashes are recovered from the encodings of the digest behind any number of zeros, and from
nothing else. -/
theorem recover_agrees_iff {template : Template} (hh : template.hashLength = 32)
    {modulusBits : Nat} (hbits : modulusBits ≠ 0)
    (hmax : encodedLength (modulusBits - 1) ≤ maxLength) {digest : Digest} {em : Bytes} :
    (∃ hash, recover em digest template modulusBits = .ok ⟨hash, hash⟩) ↔
      template.saltLength.toNat + 34 ≤ encodedLength (modulusBits - 1) ∧
        ∃ zeros salt, salt.length = template.saltLength.toNat ∧
          em = List.replicate zeros 0 ++ encode digest salt (modulusBits - 1) := by
  constructor
  · rintro ⟨hash, hrecover⟩
    obtain ⟨zeros, message, rfl, hexact⟩ := exists_of_recover hrecover
    obtain ⟨h, salt, hsalt, rfl⟩ := recoverExact_agrees_iff.mp ⟨hash, hexact⟩
    exact ⟨h, zeros, salt, hsalt, rfl⟩
  · rintro ⟨h, zeros, salt, hsalt, rfl⟩
    rw [← hsalt] at h
    exact ⟨_, recover_encode hh hbits hmax h hsalt zeros⟩

end SignedBoot.Pss
