import Mathlib
import SignedBoot.Proofs.Machine.Steps
import SignedBoot.Proofs.Verification.Operations

/-!
# The stages on a machine

The standard operations of both stages on work areas of a fixed size: the record that the digest
operations keep in their scratch area, and the encoded message that the signature operations bring
to the length of the modulus. They give what `DigestOps.sha256` and `SignatureOps.rsa` give.
-/

namespace SignedBoot.Machine

variable (space : AddressSpace)

/-! ### The digest stage -/

/-- The length of a message: the lengths of its segments, added up. -/
def gatherLength (message : Gather) : Run Nat :=
  message.segments.toList.foldlM (fun n segment => add space.size n segment.length) 0

def prepareDigest (message : Gather) : Run Scratch := do
  let length ← gatherLength space message
  let area ← write (List.replicate Scratch.byteSize 0) 0 Scratch.recordByteSize
    (le Scratch.recordByteSize length)
  .value ⟨.ofPadded 64 area, Scratch.recordByteSize⟩

def makeDigest (message : Gather) (scratch : Scratch) : Run Digest := do
  let part ← rangeTo scratch.bytes.bytes Scratch.recordByteSize
  let record ← copy (List.replicate Scratch.recordByteSize 0) part
  if scratch.used ≠ Scratch.recordByteSize then .fault .digestFailed
  else do
    let length ← gatherLength space message
    if leValue record ≠ length then .fault .digestFailed
    else copyBlock 32 (DigestOps.hashSegments message).bytes

def digestStage (message : Gather) : Run Digest := do
  let scratch ← (prepareDigest space message).orFault .prepareFailed
  (makeDigest space message scratch).orFault .digestFailed

theorem foldlM_add_eq (segments : List Bytes) (n : Nat)
    (h : n + segments.foldr (fun s m => s.length + m) 0 < space.size) :
    segments.foldlM (fun n segment => add space.size n segment.length) n =
      .value (n + segments.foldr (fun s m => s.length + m) 0) := by
  induction segments generalizing n with
  | nil => rfl
  | cons s segments ih =>
    rw [List.foldr_cons] at h ⊢
    rw [List.foldlM_cons, add_eq (by omega), Run.value_bind, ih _ (by omega), Nat.add_assoc]

theorem gatherLength_eq {message : Gather} (h : message.length < space.size) :
    gatherLength space message = .value message.length := by
  have hsum : 0 + message.segments.toList.foldr (fun s m => s.length + m) 0 = message.length :=
    Nat.zero_add _
  rw [gatherLength, foldlM_add_eq space _ 0 (hsum.trans_lt h), hsum]

theorem prepareDigest_eq {message : Gather} (h : message.length < space.size) :
    prepareDigest space message = .value (.ofLength message.length) := by
  have hrecord : (le Scratch.recordByteSize message.length).length = Scratch.recordByteSize :=
    length_le _ _
  have hwrite : write (List.replicate Scratch.byteSize 0) 0 Scratch.recordByteSize
      (le Scratch.recordByteSize message.length) =
        .value (le Scratch.recordByteSize message.length ++ List.replicate 56 0) :=
    write_front hrecord (by decide)
  have hblock : Block.ofPadded 64
      (le Scratch.recordByteSize message.length ++ List.replicate 56 0) =
        .ofPadded 64 (le Scratch.recordByteSize message.length) := by
    apply Block.ext
    rw [Block.bytes_ofPadded, Block.bytes_ofPadded, List.length_append, hrecord] <;>
      simp [Scratch.recordByteSize]
  rw [prepareDigest, gatherLength_eq space h, Run.value_bind, hwrite, Run.value_bind, hblock]
  rfl

theorem makeDigest_eq {message : Gather} (h : message.length < space.size) (scratch : Scratch) :
    makeDigest space message scratch =
      if scratch.length? = some message.length then .value (DigestOps.hashSegments message)
      else .fault .digestFailed := by
  have hle : Scratch.recordByteSize ≤ scratch.bytes.bytes.length := by
    rw [scratch.bytes.length_bytes]
    decide
  have hcopy : (List.replicate Scratch.recordByteSize (0 : UInt8)).length =
      (scratch.bytes.bytes.take Scratch.recordByteSize).length := by
    rw [List.length_replicate, List.length_take_of_le hle]
  rw [makeDigest, rangeTo_eq hle, Run.value_bind, copy_eq hcopy, Run.value_bind,
    gatherLength_eq space h, copyBlock_eq, Scratch.length?]
  by_cases hused : scratch.used = Scratch.recordByteSize
  · by_cases hrecord : leValue (scratch.bytes.bytes.take Scratch.recordByteSize) = message.length
    · simp [hused, hrecord]
    · simp [hused, hrecord]
  · simp [hused]

theorem digestStage_eq {message : Gather} (h : message.length < space.size)
    (candidate : Candidate) :
    digestStage space message = .ofExcept (DigestOps.sha256.run candidate message).1 := by
  rw [digestStage, prepareDigest_eq space h]
  change (makeDigest space message (.ofLength message.length)).orFault .digestFailed = _
  rw [makeDigest_eq space h]
  by_cases hrecord : (Scratch.ofLength message.length).length? = some message.length
  · simp only [if_pos hrecord, DigestOps.run, DigestOps.sha256]
    rfl
  · simp only [if_neg hrecord, DigestOps.run, DigestOps.sha256]
    rfl

/-! ### The signature stage -/

/-- The number of binary digits of a modulus, by the place of its first octet that is not zero. -/
def modulusBits (k : KeyDescriptor) : Run Nat :=
  match k.modulus.findIdx? (· ≠ 0) with
  | none => .value 0
  | some i => do
    let octets ← sub k.modulus.length i
    let digits ← mul space.size octets 8
    let x ← elementAt k.modulus i
    sub digits (8 - bitLength x.toNat)

/-- An area of 512 octets of which the first are in use. -/
structure Buffer where
  octets : Bytes
  used : Nat

namespace Buffer

def empty : Buffer := ⟨List.replicate maxRsaByteSize 0, 0⟩

/-- The octets in use. -/
def content (b : Buffer) : Run Bytes := rangeTo b.octets b.used

/-- An area that holds a byte string and zeros behind it. -/
def holding (b : Bytes) : Buffer := ⟨b ++ List.replicate (maxRsaByteSize - b.length) 0, b.length⟩

theorem content_holding (b : Bytes) : (holding b).content = .value b := rangeTo_append b _

theorem content_empty : empty.content = .value [] := content_holding []

end Buffer

/-- The checks on the inputs before the public operation. -/
def checkInput (input : SignatureInput) : Run Unit :=
  if input.request ≠ verifyRequest then .fault .initFailed
  else if input.key.byteLength = 0 ∨ input.key.byteLength > maxRsaByteSize then .fault .keyInvalid
  else do
    let x ← elementAt input.key.modulus 0
    if x = 0 then .fault .keyInvalid
    else if input.expected.length ≠ input.key.byteLength then .fault .signatureLength
    else if (PublicKey.ofDescriptor? input.key).isNone then .fault .keyInvalid
    else .value ()

/-- Puts a numeral behind zeros that bring it to a length, over what an area holds. -/
def alignNumeralOver (area numeral : Bytes) (length : Nat) : Run Buffer :=
  if length < numeral.length ∨ maxRsaByteSize < length then .fault .signatureEncoding
  else do
    let padding ← sub length numeral.length
    let area ← write area 0 padding (List.replicate padding 0)
    let area ← write area padding length numeral
    .value ⟨area, length⟩

/-- Puts a numeral behind zeros that bring it to a length, in a new area. -/
def alignNumeral (numeral : Bytes) (length : Nat) : Run Buffer :=
  alignNumeralOver (List.replicate maxRsaByteSize 0) numeral length

/-- The public operation, whose result comes as its shortest numeral. Zero has one octet there. -/
def applyKey (input : SignatureInput) : Run Buffer :=
  match PublicKey.ofDescriptor? input.key with
  | none => .fault .keyInvalid
  | some key =>
    let s := beValue input.expected
    if s ≥ key.modulus then .fault .signatureOutOfRange
    else
      let m := key.apply s
      alignNumeral (be (max 1 (octetLength m)) m) key.byteLength

/-- Copies the encoded message from the work area to where the stage publishes it. -/
def publish (work : Buffer) : Run Buffer := do
  let em ← work.content
  if maxRsaByteSize < em.length then .fault .signatureLength
  else do
    let octets ← write (List.replicate maxRsaByteSize 0) 0 em.length em
    .value ⟨octets, em.length⟩

def signatureStage (input : SignatureInput) : Run Buffer := do
  (checkInput input).orFault .initFailed
  let work ← (applyKey input).orFault .updateFailed
  (publish work).orFault .finalizeFailed

theorem numeralBits_of_findIdx?_eq_none {b : Bytes} (h : b.findIdx? (· ≠ 0) = none) :
    numeralBits b = 0 := by
  induction b with
  | nil => rfl
  | cons x rest ih =>
    rw [List.findIdx?_eq_none_iff] at h ih
    have hx : x = 0 := by simpa using h x List.mem_cons_self
    rw [numeralBits, if_pos hx]
    exact ih fun y hy => h y (List.mem_cons_of_mem x hy)

theorem numeralBits_of_findIdx?_eq_some {b : Bytes} {i : Nat}
    (h : b.findIdx? (· ≠ 0) = some i) :
    ∃ x, b[i]? = some x ∧ x ≠ 0 ∧ i < b.length ∧
      numeralBits b = bitLength x.toNat + 8 * (b.length - i - 1) := by
  induction b generalizing i with
  | nil => cases h
  | cons x rest ih =>
    rw [List.findIdx?_cons] at h
    by_cases hx : x = 0
    · simp only [hx, ne_eq, not_true_eq_false, decide_false, Bool.false_eq_true, if_false,
        Option.map_eq_some_iff] at h
      obtain ⟨j, hj, rfl⟩ := h
      obtain ⟨y, hy, hne, hlt, hbits⟩ := ih hj
      refine ⟨y, hy, hne, Nat.succ_lt_succ hlt, ?_⟩
      rw [numeralBits, if_pos hx, hbits, List.length_cons, Nat.succ_sub_succ]
    · simp only [hx, ne_eq, not_false_eq_true, decide_true, if_true, Option.some.injEq] at h
      subst h
      exact ⟨x, rfl, hx, Nat.succ_pos _, by rw [numeralBits, if_neg hx]; rfl⟩

theorem modulusBits_eq {k : KeyDescriptor} (h : 8 * k.byteLength < space.size) :
    modulusBits space k = .value k.modulusBits := by
  unfold modulusBits KeyDescriptor.modulusBits
  unfold KeyDescriptor.byteLength at h
  cases hfirst : k.modulus.findIdx? (· ≠ 0) with
  | none => rw [numeralBits_of_findIdx?_eq_none hfirst]
  | some i =>
    -- the first octet that is not zero starts with fewer than eight zeros
    obtain ⟨x, hx, hne, hlt, hbits⟩ := numeralBits_of_findIdx?_eq_some hfirst
    have hlow : bitLength x.toNat ≤ 8 := bitLength_le_iff.mpr x.toNat_lt
    dsimp only
    rw [sub_eq hlt.le, Run.value_bind, mul_eq (by omega), Run.value_bind, elementAt_eq hx,
      Run.value_bind, hbits]
    exact sub_eq_of_add_eq (by omega)

theorem checkInput_eq (input : SignatureInput) :
    checkInput input = .ofExcept (SignatureOps.checkInput input) := by
  unfold checkInput SignatureOps.checkInput KeyDescriptor.byteLength
  refine Run.check_eq fun _ => ?_
  cases hmodulus : input.key.modulus with
  | nil => rfl
  | cons x rest =>
    have hfirst : elementAt (x :: rest) 0 = .value x := rfl
    simp only [hfirst, Run.value_bind, List.length_cons, Nat.succ_ne_zero, false_or,
      List.headD_cons]
    by_cases hlong : rest.length + 1 > maxRsaByteSize
    · simp only [hlong, true_or, if_true]
      rfl
    · simp only [hlong, false_or, if_false]
      exact Run.check_eq fun _ => Run.check_eq fun _ => Run.check_eq fun _ => rfl

/-- The result of the public operation has no more octets than the modulus, and the modulus has at
least one. -/
theorem PublicKey.octetLength_apply_le (key : PublicKey) (s : Nat) :
    max 1 (octetLength (key.apply s)) ≤ key.byteLength ∧ key.byteLength ≤ maxRsaByteSize := by
  have hpos : 0 < key.modulus := key.sound.2.1.pos
  have hlt : key.apply s < key.modulus := by
    rw [PublicKey.apply, powMod_eq]
    exact Nat.mod_lt _ hpos
  have hle := octetLength_le hlt.le
  have hbits : 0 < bitLength key.modulus := lt_bitLength_iff.mpr hpos
  have hmax := key.bitLength_le
  rw [Rsa.maxModulusBits] at hmax
  rw [PublicKey.byteLength, maxRsaByteSize]
  rw [octetLength] at hle ⊢
  rw [octetLength] at hle ⊢
  omega

theorem alignNumeralOver_eq {area numeral : Bytes} {padding length : Nat}
    (harea : area.length = maxRsaByteSize) (hlength : numeral.length = length)
    (h : padding + length ≤ maxRsaByteSize) :
    alignNumeralOver area numeral (padding + length) =
      .value ⟨List.replicate padding 0 ++ (numeral ++ area.drop (padding + length)),
        padding + length⟩ := by
  subst hlength
  have hzeros : (List.replicate padding (0 : UInt8)).length = padding := List.length_replicate
  have hfront : write area 0 padding (List.replicate padding 0) =
      .value (List.replicate padding 0 ++ area.drop padding) :=
    write_front hzeros (by omega)
  have hback : write (List.replicate padding 0 ++ area.drop padding) padding
      (padding + numeral.length) numeral =
        .value (List.replicate padding 0 ++
          (numeral ++ area.drop (padding + numeral.length))) := by
    have hroom : padding + numeral.length ≤
        (List.replicate padding (0 : UInt8) ++ area.drop padding).length := by
      rw [List.length_append, hzeros, List.length_drop]
      omega
    rw [write_eq (Nat.le_add_right _ _) hroom (Nat.add_sub_cancel_left _ _).symm,
      List.take_left' hzeros, ← List.drop_drop, List.drop_left' hzeros, List.drop_drop]
  have hfits : ¬ (padding + numeral.length < numeral.length ∨
      maxRsaByteSize < padding + numeral.length) := by omega
  rw [alignNumeralOver, if_neg hfits, sub_eq_of_add_eq rfl, Run.value_bind, hfront,
    Run.value_bind, hback, Run.value_bind]

theorem alignNumeral_eq {numeral : Bytes} {padding length : Nat} (hlength : numeral.length = length)
    (h : padding + length ≤ maxRsaByteSize) :
    alignNumeral numeral (padding + length) =
      .value (.holding (List.replicate padding 0 ++ numeral)) := by
  have hzeros : (List.replicate padding (0 : UInt8)).length = padding := List.length_replicate
  rw [alignNumeral, alignNumeralOver_eq List.length_replicate hlength h, Buffer.holding,
    List.length_append, hzeros, hlength, List.drop_replicate, List.append_assoc]

/-- The octets of the result are its numeral with zeros in front. -/
theorem PublicKey.exists_padding (key : PublicKey) (s : Nat) :
    ∃ padding length, length = max 1 (octetLength (key.apply s)) ∧
      key.byteLength = padding + length ∧ padding + length ≤ maxRsaByteSize ∧
      be key.byteLength (key.apply s) =
        List.replicate padding 0 ++ be length (key.apply s) := by
  obtain ⟨hle, hmax⟩ := PublicKey.octetLength_apply_le key s
  obtain ⟨padding, hpadding⟩ := Nat.exists_eq_add_of_le' hle
  refine ⟨padding, _, rfl, hpadding, hpadding ▸ hmax, ?_⟩
  rw [hpadding]
  exact be_add_of_lt (lt_pow_octetLength (key.apply s))

theorem applyKey_eq (input : SignatureInput) :
    applyKey input = .ofExcept ((SignatureOps.recoverMessage input).map .holding) := by
  unfold applyKey SignatureOps.recoverMessage
  cases PublicKey.ofDescriptor? input.key with
  | none => rfl
  | some key =>
    by_cases hrange : beValue input.expected ≥ key.modulus
    · simp only [if_pos hrange]
      rfl
    simp only [if_neg hrange]
    obtain ⟨padding, length, hlength, hpadding, hmax, hbe⟩ :=
      PublicKey.exists_padding key (beValue input.expected)
    rw [hbe, ← hlength, hpadding]
    exact alignNumeral_eq (length_be length _) hmax

theorem publish_holding (b : Bytes) :
    publish (.holding b) =
      if maxRsaByteSize < b.length then .fault .signatureLength else .value (.holding b) := by
  rw [publish, Buffer.content_holding, Run.value_bind]
  refine ite_congr rfl (fun _ => rfl) fun hle => ?_
  have hwrite : write (List.replicate maxRsaByteSize 0) 0 b.length b =
      .value (b ++ List.replicate (maxRsaByteSize - b.length) 0) := by
    rw [write_front rfl (by rwa [List.length_replicate, ← not_lt]), List.drop_replicate]
  rw [hwrite]
  rfl

/-- The stage gives the published message, and none after a fault. -/
theorem signatureStage_eq (candidate : Candidate) (input : SignatureInput) :
    signatureStage input =
      .ofExcept ((SignatureOps.rsa.run candidate input).result.map fun _ =>
        .holding (SignatureOps.rsa.run candidate input).message.bytes) ∧
      ((SignatureOps.rsa.run candidate input).result ≠ .ok () →
        (SignatureOps.rsa.run candidate input).message.bytes = []) := by
  rw [signatureStage, checkInput_eq, applyKey_eq]
  cases hcheck : SignatureOps.checkInput input with
  | error f =>
    simp only [SignatureOps.run, SignatureOps.rsa, hcheck]
    exact ⟨rfl, fun _ => rfl⟩
  | ok u =>
    cases hrecover : SignatureOps.recoverMessage input with
    | error f =>
      simp only [SignatureOps.run, SignatureOps.rsa, hcheck, hrecover]
      exact ⟨rfl, fun _ => rfl⟩
    | ok em =>
      change (publish (.holding em)).orFault .finalizeFailed = _ ∧ _
      rw [publish_holding]
      by_cases hl : em.length ≤ maxRsaByteSize
      · simp only [SignatureOps.run, SignatureOps.rsa, hcheck, hrecover, EncodedMessage.set, hl,
          dif_pos, if_neg (not_lt.mpr hl)]
        exact ⟨rfl, fun h => absurd rfl h⟩
      · simp only [SignatureOps.run, SignatureOps.rsa, hcheck, hrecover, EncodedMessage.set, hl,
          dif_neg, not_false_eq_true, if_pos (not_le.mp hl)]
        exact ⟨rfl, fun _ => rfl⟩

end SignedBoot.Machine
