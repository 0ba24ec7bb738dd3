import Mathlib
import SignedBoot.Proofs.Encoding.Pkcs1
import SignedBoot.Proofs.Encoding.Pss
import SignedBoot.Proofs.Machine.Steps

/-!
# Encodings on a machine

Both encodings are taken apart by positions that are counted from the end of a message of any
length, under a template that nobody has checked. The machine that does so gives what
`Pss.recover` and `Pkcs1.recover` give.
-/

namespace SignedBoot.Machine

variable (space : AddressSpace)

/-! ### EMSA-PSS -/

/-- What is behind the padding check of an unmasked block: the separator and the salt. -/
def recoverSalt (saltLength : Nat) (db : Bytes) : Run Bytes := do
  let zeros ← sub db.length saltLength
  let zeros ← sub zeros 1
  let padding ← rangeTo db zeros
  if padding.any (· ≠ 0) then .fault .signatureEncoding
  else do
    let x ← elementAt db zeros
    if x ≠ Pss.separator then .fault .signatureEncoding
    else do
      let start ← sub db.length saltLength
      rangeFrom db start

/-- The block behind its mask, in a work area. -/
def unmask (masked hash : Bytes) (top : UInt8) : Run Bytes := do
  let area ← rangeTo (List.replicate Pss.maxLength 0) masked.length
  let area ← copy area masked
  let db := Pss.xor area (Pss.mask hash area.length)
  let x ← elementAt db 0
  .value (db.set 0 (x &&& top))

def recoverPssExact (em : Bytes) (digest : Digest) (saltLength bits : Nat) : Run Tokens := do
  let least ← add space.size 32 saltLength
  let least ← add space.size least 2
  if em.length < least then .fault .signatureEncoding
  else do
    let last ← sub em.length 1
    let x ← elementAt em last
    if x ≠ Pss.trailer then .fault .signatureEncoding
    else do
      let dbLength ← sub em.length 32
      let dbLength ← sub dbLength 1
      let (masked, rest) ← splitAt em dbLength
      let hash ← rangeTo rest 32
      let digits ← mul space.size 8 em.length
      let unused ← sub digits bits
      let top ← shiftRight 0xff unused
      let x ← elementAt masked 0
      if x &&& ~~~top ≠ 0 then .fault .signatureEncoding
      else do
        let db ← unmask masked hash top
        let salt ← recoverSalt saltLength db
        let recovered ← copyBlock 32 hash
        let reference ← copyBlock 32 (Pss.saltedHash digest salt).bytes
        .value ⟨recovered, reference⟩

def recoverPss (em : Bytes) (digest : Digest) (template : Template) (modulusBits : Nat) :
    Run Tokens :=
  if template.hashLength ≠ 32 then .fault .templateInvalid
  else if modulusBits = 0 then .fault .signatureEncoding
  else
    let length := Pss.encodedLength (modulusBits - 1)
    if length > em.length ∨ length > Pss.maxLength then .fault .signatureEncoding
    else do
      let start ← sub em.length length
      let (lead, em) ← splitAt em start
      if lead.any (· ≠ 0) then .fault .signatureEncoding
      else recoverPssExact space em digest template.saltLength.toNat (modulusBits - 1)

theorem recoverSalt_eq {saltLength : Nat} {db : Bytes} (h : saltLength < db.length) :
    recoverSalt saltLength db =
      match Pss.salt? saltLength db with
      | some salt => .value salt
      | none => .fault .signatureEncoding := by
  obtain ⟨zeros, hz⟩ : ∃ zeros, db.length - saltLength - 1 = zeros := ⟨_, rfl⟩
  obtain ⟨x, salt, hx⟩ : ∃ x salt, db.drop zeros = x :: salt := by
    apply List.exists_cons_of_length_pos
    rw [List.length_drop]
    omega
  have hat : db[zeros]? = some x := by
    rw [← List.head?_drop, hx, List.head?_cons]
  have hsalt : db.drop (db.length - saltLength) = salt := by
    rw [show db.length - saltLength = zeros + 1 by omega, ← List.drop_drop, hx]
    rfl
  have hsub : sub (db.length - saltLength) 1 = .value zeros := sub_eq_of_add_eq (by omega)
  simp only [recoverSalt, sub_eq h.le, Run.value_bind, hsub,
    rangeTo_eq (show zeros ≤ db.length by omega), elementAt_eq hat,
    rangeFrom_eq (Nat.sub_le db.length saltLength), hsalt, Pss.salt?, hz, hx]
  have hany : (db.take zeros).any (· ≠ 0) = !(db.take zeros).all (· = 0) := by
    simp [List.not_all_eq_any_not]
  simp only [hany]
  cases (db.take zeros).all (· = 0) with
  | false => simp
  | true => by_cases hsep : x = Pss.separator <;> simp [hsep]

theorem unmask_eq {masked : Bytes} (hpos : 0 < masked.length)
    (hle : masked.length ≤ Pss.maxLength) (hash : Bytes) (bits : Nat) :
    unmask masked hash (Pss.topMask bits) =
      .value (Pss.clearTop bits (Pss.xor masked (Pss.mask hash masked.length))) := by
  have harea : ((List.replicate Pss.maxLength (0 : UInt8)).take masked.length).length =
      masked.length := by
    rw [List.length_take, List.length_replicate, Nat.min_eq_left hle]
  have hlength : (Pss.xor masked (Pss.mask hash masked.length)).length = masked.length := by
    rw [Pss.length_xor (Pss.length_mask _ _).symm, Pss.length_mask]
  obtain ⟨x, db, hdb⟩ := List.exists_cons_of_length_pos (hlength ▸ hpos)
  rw [unmask, rangeTo_eq (by rw [List.length_replicate]; exact hle), Run.value_bind,
    copy_eq harea, Run.value_bind]
  simp only [hdb, elementAt_eq (show (x :: db)[0]? = some x from rfl), Run.value_bind]
  rfl

theorem and_complement_eq_zero_iff (x k : UInt8) : x &&& ~~~k = 0 ↔ x &&& k = x := by
  rw [← UInt8.toBitVec_inj, ← UInt8.toBitVec_inj]
  simp only [BitVec.eq_of_getElem_eq_iff, UInt8.toBitVec_and, UInt8.toBitVec_not,
    BitVec.getElem_and, BitVec.getElem_not, UInt8.toBitVec_ofNat, BitVec.getElem_zero]
  refine forall_congr' fun i => forall_congr' fun hi => ?_
  cases x.toBitVec[i] <;> cases k.toBitVec[i] <;> decide

theorem recoverExact_of_short {em : Bytes} {bits saltLength : Nat}
    (h : Pss.encodedLength bits < 32 + saltLength + 2) (digest : Digest) :
    Pss.recoverExact em digest saltLength bits = .error .signatureEncoding := by
  unfold Pss.recoverExact
  dsimp only
  split
  · rw [if_pos (Or.inl h)]
  · rfl

/-- A message of the right length is a masked block, a hash and one more octet. -/
theorem recoverExact_append {masked : Bytes} {bits saltLength : Nat}
    (hlength : masked.length + 33 = Pss.encodedLength bits) (hsalt : saltLength < masked.length)
    (hash : Block 32) (last : UInt8) (digest : Digest) :
    Pss.recoverExact (masked ++ (hash.bytes ++ [last])) digest saltLength bits =
      if last ≠ Pss.trailer ∨ Pss.clearTop bits masked ≠ masked then .error .signatureEncoding
      else
        match Pss.salt? saltLength
          (Pss.clearTop bits (Pss.xor masked (Pss.mask hash.bytes masked.length))) with
        | some salt => .ok ⟨hash, Pss.saltedHash digest salt⟩
        | none => .error .signatureEncoding := by
  have hmasked : Pss.encodedLength bits - 33 = masked.length := by omega
  have hroom : ¬ Pss.encodedLength bits < 32 + saltLength + 2 := by omega
  unfold Pss.recoverExact
  dsimp only
  rw [hmasked, List.drop_left, List.take_left, Block.read?_append]
  by_cases h : last ≠ Pss.trailer ∨ Pss.clearTop bits masked ≠ masked
  · rw [if_pos h]
    exact if_pos (Or.inr h)
  · rw [if_neg h]
    exact if_neg (not_or_intro hroom h)

theorem recoverPssExact_append {masked : Bytes} {bits saltLength : Nat}
    (hlength : masked.length + 33 = Pss.encodedLength bits)
    (hmax : Pss.encodedLength bits ≤ Pss.maxLength) (hsalt : saltLength < masked.length)
    (hash : Block 32) (last : UInt8) (digest : Digest) :
    recoverPssExact space (masked ++ (hash.bytes ++ [last])) digest saltLength bits =
      .ofExcept
        (Pss.recoverExact (masked ++ (hash.bytes ++ [last])) digest saltLength bits) := by
  have hspace := space.two_pow_le
  have htotal : (masked ++ (hash.bytes ++ [last])).length = masked.length + 33 := by simp
  have hlast : (masked ++ (hash.bytes ++ [last]))[masked.length + 32]? = some last := by
    rw [List.getElem?_append_right (by omega), List.getElem?_append_right (by simp)]
    simp
  have hsplit : splitAt (masked ++ (hash.bytes ++ [last])) masked.length =
      .value (masked, hash.bytes ++ [last]) := by
    rw [splitAt_eq (by rw [htotal]; omega), List.take_left, List.drop_left]
  have hhash : rangeTo (hash.bytes ++ [last]) 32 = .value hash.bytes := by
    rw [rangeTo_eq (by simp), List.take_left' hash.length_bytes]
  have hsalt' : saltLength < 512 := by
    rw [Pss.maxLength] at hmax
    omega
  have hbits : bits ≤ 8 * (masked.length + 33) ∧ 8 * (masked.length + 33) - bits < 8 := by
    rw [hlength, Pss.encodedLength]
    omega
  have htop : shiftRight 0xff (8 * (masked.length + 33) - bits) = .value (Pss.topMask bits) := by
    rw [shiftRight_eq hbits.2, hlength]
    rfl
  have hpos : 0 < masked.length := by omega
  have hmax : masked.length ≤ Pss.maxLength := by omega
  have hmul : 8 * (masked.length + 33) < space.size := by
    rw [Pss.maxLength] at hmax
    omega
  obtain ⟨x, hx⟩ : ∃ x, masked[0]? = some x := ⟨_, List.getElem?_eq_getElem hpos⟩
  have hclear : x &&& ~~~Pss.topMask bits = 0 ↔ Pss.clearTop bits masked = masked := by
    cases masked with
    | nil => cases hx
    | cons y rest =>
      cases hx
      rw [and_complement_eq_zero_iff, Pss.clearTop, List.cons.injEq, and_iff_left rfl]
  have hunmask := unmask_eq hpos hmax hash.bytes bits
  have hdb : saltLength <
      (Pss.clearTop bits (Pss.xor masked (Pss.mask hash.bytes masked.length))).length := by
    rw [Pss.length_clearTop, Pss.length_xor (Pss.length_mask _ _).symm, Pss.length_mask]
    exact hsalt
  simp only [recoverPssExact, htotal, add_eq (show 32 + saltLength < space.size by omega),
    add_eq (show 32 + saltLength + 2 < space.size by omega),
    if_neg (show ¬ masked.length + 33 < 32 + saltLength + 2 by omega),
    show sub (masked.length + 33) 1 = .value (masked.length + 32) from sub_eq_of_add_eq (by omega),
    elementAt_eq hlast,
    show sub (masked.length + 33) 32 = .value (masked.length + 1) from sub_eq_of_add_eq (by omega),
    show sub (masked.length + 1) 1 = .value masked.length from sub_eq_of_add_eq (by omega),
    hsplit, hhash, mul_eq hmul, sub_eq hbits.1, htop, elementAt_eq hx, hunmask,
    recoverSalt_eq hdb, copyBlock_eq, Run.value_bind, recoverExact_append hlength hsalt]
  by_cases htrailer : last = Pss.trailer
  · by_cases hunused : Pss.clearTop bits masked = masked
    · simp only [htrailer, hunused, hclear, ne_eq, not_true_eq_false, or_self, if_false]
      cases Pss.salt? saltLength
        (Pss.clearTop bits (Pss.xor masked (Pss.mask hash.bytes masked.length))) <;> rfl
    · simp only [htrailer, hunused, hclear, ne_eq, not_true_eq_false, not_false_eq_true, or_true,
        if_true, if_false, Run.ofExcept_error]
  · simp only [htrailer, ne_eq, not_false_eq_true, true_or, if_true, Run.ofExcept_error]

theorem recoverPssExact_eq {em : Bytes} {bits : Nat} (hlength : em.length = Pss.encodedLength bits)
    (hmax : em.length ≤ Pss.maxLength) (digest : Digest) (saltLength : UInt8) :
    recoverPssExact space em digest saltLength.toNat bits =
      .ofExcept (Pss.recoverExact em digest saltLength.toNat bits) := by
  have hspace := space.two_pow_le
  have hsalt := saltLength.toNat_lt
  generalize saltLength.toNat = saltLength at hsalt ⊢
  by_cases hshort : em.length < 32 + saltLength + 2
  · rw [recoverExact_of_short (hlength ▸ hshort)]
    simp only [recoverPssExact, add_eq (show 32 + saltLength < space.size by omega),
      add_eq (show 32 + saltLength + 2 < space.size by omega), Run.value_bind, if_pos hshort,
      Run.ofExcept_error]
  · -- long enough, the message is its parts: the masked block, the hash and one octet
    obtain ⟨masked, rest, rfl, hmasked⟩ : ∃ masked rest, em = masked ++ rest ∧
        masked.length = em.length - 33 :=
      ⟨em.take (em.length - 33), em.drop (em.length - 33), (List.take_append_drop _ _).symm, by
        rw [List.length_take]
        omega⟩
    rw [List.length_append] at hlength hmax hshort hmasked
    obtain ⟨hash, tail, rfl⟩ := exists_block_append (show 32 ≤ rest.length by omega)
    rw [List.length_append, Block.length_bytes] at hlength hmax hshort hmasked
    obtain ⟨last, rfl⟩ := List.length_eq_one_iff.mp (show tail.length = 1 by omega)
    rw [List.length_singleton] at hlength hmax
    exact recoverPssExact_append space hlength (hlength ▸ hmax) (by omega) hash last digest

theorem recoverPss_eq (em : Bytes) (digest : Digest) (template : Template) (modulusBits : Nat) :
    recoverPss space em digest template modulusBits =
      .ofExcept (Pss.recover em digest template modulusBits) := by
  simp only [recoverPss, Pss.recover]
  generalize hlength : Pss.encodedLength (modulusBits - 1) = length
  refine Run.check_eq fun _ => ?_
  refine Run.check_eq fun _ => ?_
  refine Run.check_eq fun hlong => ?_
  rw [not_or, Nat.not_lt, Nat.not_lt] at hlong
  rw [sub_eq hlong.1, Run.value_bind, splitAt_eq (Nat.sub_le em.length length), Run.value_bind]
  refine Run.check_eq fun _ => ?_
  have hrest : (em.drop (em.length - length)).length = length := by
    rw [List.length_drop]
    omega
  exact recoverPssExact_eq space (hrest.trans hlength.symm) (hrest.le.trans hlong.2) digest
    template.saltLength

/-! ### EMSA-PKCS1-v1_5 -/

/-- The octets in front of a DigestInfo of some length that ends before the last 32 octets. -/
def hasFrame (info em : Bytes) : Run Bool := do
  let separatorAt ← sub em.length (info.length + 32)
  let separatorAt ← sub separatorAt 1
  let x ← elementAt em 0
  if x ≠ 0x00 then .value false
  else do
    let x ← elementAt em 1
    if x ≠ 0x01 then .value false
    else do
      let padding ← range em 2 separatorAt
      if padding.any (· ≠ 0xff) then .value false
      else do
        let x ← elementAt em separatorAt
        if x ≠ 0x00 then .value false
        else do
          let start ← add space.size separatorAt 1
          let stop ← sub em.length 32
          let found ← range em start stop
          .value (found = info)

def recoverPkcs1 (em : Bytes) (digest : Digest) (template : Template) : Run Tokens :=
  if template.hashLength ≠ 32 then .fault .templateInvalid
  else
    match template.digestInfo? with
    | none => .fault .templateInvalid
    | some info => do
      let length ← add space.size info.length 32
      let least ← add space.size length Pkcs1.minPadding
      let least ← add space.size least 3
      if em.length < least then .fault .signatureEncoding
      else do
        let framed ← hasFrame space info em
        if ¬ framed then .fault .signatureEncoding
        else do
          let start ← sub em.length 32
          let hash ← rangeFrom em start
          let recovered ← copyBlock 32 hash
          .value ⟨recovered, digest⟩

theorem hasFrame_append {info padding found tail : Bytes} (x y z : UInt8)
    (hfound : found.length = info.length) (htail : tail.length = 32)
    (hspace : (x :: y :: (padding ++ z :: (found ++ tail))).length < space.size) :
    hasFrame space info (x :: y :: (padding ++ z :: (found ++ tail))) =
      .value (x :: y :: (padding ++ z :: found) =
        0x00 :: 0x01 :: (List.replicate padding.length 0xff ++ 0x00 :: info) : Bool) := by
  have hlength : (x :: y :: (padding ++ z :: (found ++ tail))).length =
      padding.length + 3 + (info.length + 32) := by
    simp [hfound, htail]
    omega
  have hpadding : range (x :: y :: (padding ++ z :: (found ++ tail))) 2 (padding.length + 2) =
      .value padding := by
    rw [range_eq (by omega) (by omega)]
    simp
  have hz : (x :: y :: (padding ++ z :: (found ++ tail)))[padding.length + 2]? = some z := by
    simp
  have hinfo : range (x :: y :: (padding ++ z :: (found ++ tail))) (padding.length + 3)
      (padding.length + 3 + info.length) = .value found := by
    rw [range_eq (by omega) (by omega), Nat.add_sub_cancel_left, ← hfound]
    simp
  have hframe : (x :: y :: (padding ++ z :: found) =
      0x00 :: 0x01 :: (List.replicate padding.length 0xff ++ 0x00 :: info) : Bool) =
        (x = 0x00 && y = 0x01 && !padding.any (· ≠ 0xff) && z = 0x00 && found = info) := by
    have hall : padding = List.replicate padding.length 0xff ↔ ∀ o ∈ padding, o = 0xff := by
      simp [List.eq_replicate_iff]
    rw [Bool.eq_iff_iff, decide_eq_true_iff, List.cons.injEq, List.cons.injEq]
    constructor
    · rintro ⟨rfl, rfl, h⟩
      obtain ⟨hp, hi⟩ := List.append_inj h (by simp)
      cases hi
      simpa using hall.mp hp
    · intro h
      simp only [Bool.and_eq_true, decide_eq_true_eq, Bool.not_eq_true', List.any_eq_false] at h
      obtain ⟨⟨⟨⟨rfl, rfl⟩, hp⟩, rfl⟩, rfl⟩ := h
      rw [← hall.mpr (by simpa using hp)]
      simp
  rw [hlength] at hspace
  simp only [hasFrame, hlength,
    show sub (padding.length + 3 + (info.length + 32)) (info.length + 32) =
      .value (padding.length + 3) from sub_eq_of_add_eq rfl,
    show sub (padding.length + 3) 1 = .value (padding.length + 2) from sub_eq_of_add_eq rfl,
    show sub (padding.length + 3 + (info.length + 32)) 32 =
      .value (padding.length + 3 + info.length) from sub_eq_of_add_eq rfl,
    add_eq (show padding.length + 2 + 1 < space.size by omega),
    elementAt_eq (show (x :: y :: (padding ++ z :: (found ++ tail)))[0]? = some x from rfl),
    elementAt_eq (show (x :: y :: (padding ++ z :: (found ++ tail)))[1]? = some y from rfl),
    hpadding, elementAt_eq hz, hinfo, Run.value_bind]
  rw [hframe]
  cases padding.any (· ≠ 0xff) <;> by_cases hx : x = 0x00 <;> by_cases hy : y = 0x01 <;>
    by_cases hz : z = 0x00 <;> simp [hx, hy, hz]

theorem hasFrame_eq {info em : Bytes} (hroom : info.length + 43 ≤ em.length)
    (hspace : em.length < space.size) :
    hasFrame space info em =
      .value (em.take (em.length - 32) = Pkcs1.frame info em.length : Bool) := by
  obtain ⟨x, y, rest, rfl⟩ : ∃ x y rest, em = x :: y :: rest := by
    match em with
    | [] | [_] => simp at hroom
    | x :: y :: rest => exact ⟨x, y, rest, rfl⟩
  obtain ⟨n, hn⟩ := Nat.exists_eq_add_of_le hroom
  obtain ⟨padding, rest, rfl, hpadding⟩ := exists_append_of_le_length (b := rest)
    (show n + 8 ≤ rest.length by simp only [List.length_cons] at hn; omega)
  obtain ⟨z, rest, rfl⟩ := List.exists_cons_of_length_pos
    (show 0 < rest.length by simp only [List.length_cons, List.length_append] at hn; omega)
  obtain ⟨found, tail, rfl, hfound⟩ := exists_append_of_le_length
    (show info.length ≤ rest.length by
      simp only [List.length_cons, List.length_append] at hn; omega)
  have htail : tail.length = 32 := by
    simp only [List.length_cons, List.length_append] at hn
    omega
  have hem : x :: y :: (padding ++ z :: (found ++ tail)) =
      (x :: y :: (padding ++ z :: found)) ++ tail := by simp
  have htake : (x :: y :: (padding ++ z :: (found ++ tail))).take
      ((x :: y :: (padding ++ z :: (found ++ tail))).length - 32) =
        x :: y :: (padding ++ z :: found) := by
    rw [hem, List.length_append, htail, Nat.add_sub_cancel, List.take_left]
  have hfill : (x :: y :: (padding ++ z :: (found ++ tail))).length - info.length - 35 =
      padding.length := by
    omega
  rw [hasFrame_append space x y z hfound htail hspace, Pkcs1.frame, hfill, htake]

theorem recoverPkcs1_eq {em : Bytes} (hspace : em.length < space.size) (digest : Digest)
    (template : Template) (modulusBits : Nat) :
    recoverPkcs1 space em digest template =
      .ofExcept (Pkcs1.recover em digest template modulusBits) := by
  have hsize := space.two_pow_le
  simp only [recoverPkcs1, Pkcs1.recover]
  refine Run.check_eq fun _ => ?_
  cases hinfo : template.digestInfo? with
  | none => rfl
  | some info =>
    have hle := Pkcs1.length_le_of_digestInfo? hinfo
    have hleast : info.length + 32 + Pkcs1.minPadding + 3 = info.length + 43 := rfl
    simp only [add_eq (show info.length + 32 < space.size by omega),
      add_eq (show info.length + 32 + Pkcs1.minPadding < space.size by omega),
      add_eq (show info.length + 32 + Pkcs1.minPadding + 3 < space.size by omega),
      Run.value_bind, hleast]
    refine Run.check_eq fun hshort => ?_
    rw [hasFrame_eq space (Nat.not_lt.mp hshort) hspace, Run.value_bind]
    have hlast : (em.drop (em.length - 32)).length = 32 := by
      rw [List.length_drop]
      omega
    have hread : Block.read? 32 (em.drop (em.length - 32)) =
        some (⟨em.drop (em.length - 32), hlast⟩, []) :=
      Block.read?_eq_some_iff.mpr (List.append_nil _).symm
    rw [hread]
    dsimp only
    by_cases hframe : em.take (em.length - 32) = Pkcs1.frame info em.length
    · simp only [hframe, decide_true, not_true_eq_false, if_false, if_true,
        sub_eq (show 32 ≤ em.length by omega), rangeFrom_eq (Nat.sub_le em.length 32),
        copyBlock, hlast, dif_pos, Run.value_bind, Run.ofExcept_ok]
    · simp only [hframe, decide_false, Bool.false_eq_true, not_false_eq_true, if_false, if_true,
        Run.ofExcept_error]

end SignedBoot.Machine
