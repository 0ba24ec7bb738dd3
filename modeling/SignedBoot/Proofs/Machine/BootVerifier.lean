import Mathlib
import SignedBoot.Proofs.Loading
import SignedBoot.Proofs.Machine.Message
import SignedBoot.Proofs.Machine.Verification
import SignedBoot.Proofs.Verification.Acceptance

/-!
# The boot verifier on a machine

Whole images from the parser to the verdict, with the loader in front. Whoever chose the image, the
storage, the key, the template and the rest of the policy, under the standard operations no run
ends in a trap (`verifier_never_traps`).
-/

namespace SignedBoot.Machine

variable (space : AddressSpace)

/-! ### Images -/

/-- An image that is ready for the stages. -/
structure Ready where
  layout : Layout
  index : IndexTable
  policy : Policy
  message : Gather

def Ready.ofPrepared (x : BootVerifier.Prepared) : Ready :=
  ⟨.ofImage x.image, .ofIndex x.index, x.policy, x.message⟩

def prepareImage (v : BootVerifier) (b : Bytes) (carrier : Carrier) : Run Ready := do
  let layout ← parseImage space b carrier
  let index ← layout.buildIndex space
  let key ← layout.keyTag space
  let signature ← layout.signatureTag space
  let policy ← .ofExcept (BootVerifier.imagePolicy v.policy key signature)
  let message ← layout.signedMessage index
  .value { layout, index, policy, message }

/-- What is known of an image that passed, with a table of load entries of which the first are in
use. -/
structure Verified where
  digest : Option Digest
  index : IndexTable
  totalLength : UInt32
  slots : List LoadEntry
  count : Nat

namespace Verified

def emptySlots : List LoadEntry := List.replicate DescriptorPlace.header.maxEntries ⟨0, 0⟩

def ofImage (x : VerifiedImage) : Verified where
  digest := x.digest
  index := .ofIndex x.index
  totalLength := x.totalLength
  slots := x.entries ++ emptySlots.drop x.entries.length
  count := x.entries.length

/-- The slots in use. -/
def entries (x : Verified) : Run (List LoadEntry) := rangeTo x.slots x.count

end Verified

def verifyImage (v : BootVerifier) (b : Bytes) (carrier : Carrier) (observers : Observers) :
    Run Verified := do
  let x ← prepareImage space v b carrier
  let (verdict, digest) ← verifyMessage space x.policy (.ofImage v.slot x.message observers)
  .ofExcept verdict
  let entries := x.layout.descriptor.entries
  let slots ← write Verified.emptySlots 0 entries.length entries
  .value
    { digest, index := x.index, totalLength := x.layout.header.totalLength, slots,
      count := entries.length }

theorem prepareImage_eq (v : BootVerifier) (b : Bytes) (carrier : Carrier) :
    prepareImage space v b carrier = .ofExcept ((v.prepare b carrier).map .ofPrepared) := by
  refine Run.bind_map_eq_map (parseImage_eq space b carrier) fun i hparse => ?_
  obtain ⟨hi, -, -⟩ := BootImage.wellFormed_of_parse hparse
  refine Run.bind_map_eq_map (Layout.buildIndex_eq space hi) fun index _ => ?_
  refine Run.bind_eq_map (Layout.keyTag_eq space hi) fun key _ => ?_
  refine Run.bind_eq_map (Layout.signatureTag_eq space hi) fun signature _ => ?_
  refine Run.bind_eq_map rfl fun policy _ => ?_
  refine Run.bind_eq_map (Layout.signedMessage_eq hi index) fun message _ => ?_
  rfl

theorem Verified.entries_ofImage (x : VerifiedImage) :
    (ofImage x).entries = .value x.entries :=
  rangeTo_append x.entries _

/-- The policy for an image has the operations of the given one. -/
theorem standard_of_imagePolicy {p q : Policy} (hp : p.Standard) {k : KeyTag} {s : SignatureTag}
    (h : BootVerifier.imagePolicy p k s = .ok q) : q.Standard := by
  unfold BootVerifier.imagePolicy at h
  split at h
  · obtain ⟨u, -, hq⟩ := bind_eq_ok_iff.mp h
    cases hq
    exact ⟨hp.digestOps, hp.signatureOps, hp.schemes⟩
  · cases h
    exact hp

theorem verifyImage_eq {v : BootVerifier} (hv : v.policy.Standard) (b : Bytes) (carrier : Carrier)
    (observers : Observers) :
    verifyImage space v b carrier observers =
      .ofExcept ((v.verify b carrier observers).1.map .ofImage) := by
  have hspace := space.two_pow_le
  rw [verifyImage, prepareImage_eq, BootVerifier.verify]
  cases hprepare : v.prepare b carrier with
  | error f => rfl
  | ok x =>
    obtain ⟨hparse, hindex, ⟨k, s, -, -, hpolicy⟩, hmessage⟩ :=
      BootVerifier.prepare_eq_ok_iff.mp hprepare
    obtain ⟨hi, -, -⟩ := BootImage.wellFormed_of_parse hparse
    -- the message is a part of the image, whose length is a word
    have hlength : x.message.length < space.size := by
      have hle := BootImage.length_message_le hi
      have htotal : x.image.totalLength < 2 ^ 32 := x.image.header.totalLength.toNat_lt
      rw [x.message.length_eq, BootImage.bytes_of_signedMessage hi hindex hmessage]
      omega
    have hinput : ∀ message ∈ (VerifyContext.ofImage v.slot x.message observers).digestInput?
        x.policy, message.length < space.size := by
      rintro _ ⟨⟩
      exact hlength
    have hentries : x.image.descriptor.entries.length ≤ Verified.emptySlots.length :=
      hi.descriptor.entries_le
    change (verifyMessage space x.policy (.ofImage v.slot x.message observers) >>= _) = _
    rw [verifyMessage_eq space (standard_of_imagePolicy hv hpolicy) hinput, Run.value_bind]
    dsimp only
    cases (x.policy.verify (.ofImage v.slot x.message observers)).outcome with
    | error f => rfl
    | ok u =>
      change (write Verified.emptySlots 0 x.image.descriptor.entries.length
        x.image.descriptor.entries >>= _) = _
      rw [write_front rfl hentries, Run.value_bind]
      rfl

/-! ### Loading -/

/-- Reads from memory onto an area. An end that is no number of the machine is none in memory. -/
def readMemory (data : Bytes) (offset : UInt32) (target : Bytes) : Run Bytes :=
  let stop := offset.toNat + target.length
  if space.size ≤ stop ∨ data.length < stop then .fault .storageRead
  else copy target (slice data offset.toNat target.length)

/-- Reads all of an image but its header. -/
def readBody (data : Bytes) (offset : UInt32) (image : Bytes) : Run Bytes := do
  let rest ← rangeFrom image Header.byteSize
  let body ← readMemory space data offset rest
  write image Header.byteSize image.length body

/-- Loads the image at the carrier's base into a buffer. -/
def loadImage (data : Bytes) (carrier : Carrier) (buffer : Bytes) : Run Bytes :=
  if buffer.length < Header.byteSize then .fault .bufferTooSmall
  else do
    let front ← rangeTo buffer Header.byteSize
    let head ← readMemory space data carrier.base front
    let buffer ← write buffer 0 Header.byteSize head
    let (header, _) ← .ofExcept (Header.read head)
    validateHeader header
    .ofExcept (carrier.checkFit header.totalLength)
    if buffer.length < header.totalLength.toNat then .fault .bufferTooSmall
    else do
      let image ← rangeTo buffer header.totalLength.toNat
      match carrier.bodyOffset? with
      | none => .fault .carrierOverflow
      | some offset => readBody space data offset image

def loadAndVerify (v : BootVerifier) (data : Bytes) (carrier : Carrier) (buffer : Bytes)
    (observers : Observers) : Run Verified := do
  let b ← loadImage space data carrier buffer
  verifyImage space v b carrier observers

theorem readMemory_eq {data : Bytes} (hdata : data.length < space.size) (offset : UInt32)
    {target : Bytes} {n : Nat} (hn : target.length = n) :
    readMemory space data offset target =
      .ofExcept ((Storage.readBytes data offset n).map Block.bytes) := by
  subst hn
  unfold readMemory Storage.readBytes
  by_cases hend : offset.toNat + target.length ≤ data.length
  · have hlength : target.length = (slice data offset.toNat target.length).length :=
      (length_slice hend).symm
    rw [dif_pos hend, if_neg (by omega), copy_eq hlength]
    rfl
  · rw [dif_neg hend, if_pos (by omega)]
    rfl

theorem readBody_eq {data : Bytes} (hdata : data.length < space.size) (offset : UInt32)
    {head tail : Bytes} {n : Nat} (hhead : head.length = Header.byteSize)
    (htail : tail.length = n) :
    readBody space data offset (head ++ tail) =
      .ofExcept ((Storage.readBytes data offset n).map fun body => head ++ body.bytes) := by
  have hle : Header.byteSize ≤ (head ++ tail).length := by
    rw [List.length_append]
    omega
  rw [readBody, rangeFrom_eq hle, Run.value_bind, List.drop_left' hhead,
    readMemory_eq space hdata offset htail]
  cases Storage.readBytes data offset n with
  | error f => rfl
  | ok body =>
    have hbody : body.bytes.length = (head ++ tail).length - Header.byteSize := by
      rw [body.length_bytes, List.length_append]
      omega
    change write (head ++ tail) Header.byteSize (head ++ tail).length body.bytes = _
    rw [write_eq hle le_rfl hbody, List.take_left' hhead, List.drop_length, List.append_nil]
    rfl

theorem loadImage_eq {data : Bytes} (hdata : data.length < space.size) (carrier : Carrier)
    (buffer : Bytes) :
    loadImage space data carrier buffer =
      .ofExcept (Storage.memory.load data carrier buffer.length) := by
  suffices h : loadImage space data carrier buffer =
      .ofExcept ((Storage.memory.load data carrier buffer.length).map id) by
    rwa [Except.map_id] at h
  unfold loadImage Storage.load Storage.memory
  refine Run.guard_eq_map fun hroom => ?_
  rw [not_lt] at hroom
  have hfront : (buffer.take Header.byteSize).length = Header.byteSize :=
    List.length_take_of_le hroom
  rw [rangeTo_eq hroom, Run.value_bind]
  refine Run.bind_map_eq_map (readMemory_eq space hdata carrier.base hfront) fun head _ => ?_
  have hhead : head.bytes.length = Header.byteSize := head.length_bytes
  rw [write_front hhead hroom, Run.value_bind]
  refine Run.bind_eq_map rfl fun x hread => ?_
  obtain ⟨header, rest⟩ := x
  refine Run.bind_eq_map (validateHeader_eq header) fun _ _ => ?_
  refine Run.bind_eq_map rfl fun _ hfit => ?_
  have hlength : (head.bytes ++ buffer.drop Header.byteSize).length = buffer.length := by
    rw [List.length_append, List.length_drop, hhead]
    omega
  rw [hlength]
  refine Run.guard_eq_map fun hwhole => ?_
  rw [not_lt] at hwhole
  -- it is the carrier's check that keeps the header inside the declared length
  have hheader : Header.byteSize ≤ header.totalLength.toNat :=
    ((carrier.checkFit_eq_ok_iff _).mp hfit).header_le
  have htail : ((buffer.drop Header.byteSize).take
      (header.totalLength.toNat - Header.byteSize)).length =
        header.totalLength.toNat - Header.byteSize := by
    rw [List.length_take, List.length_drop]
    omega
  rw [rangeTo_eq (hwhole.trans_eq hlength.symm), Run.value_bind, List.take_append, hhead,
    List.take_of_length_le (hhead.trans_le hheader)]
  cases carrier.bodyOffset? with
  | none => rfl
  | some offset =>
    dsimp only
    rw [readBody_eq space hdata offset hhead htail]
    change _ = Run.ofExcept (Except.map id ((Storage.readBytes data offset _).bind _))
    cases Storage.readBytes data offset (header.totalLength.toNat - Header.byteSize) <;> rfl

theorem loadAndVerify_eq {data : Bytes} (hdata : data.length < space.size) {v : BootVerifier}
    (hv : v.policy.Standard) (carrier : Carrier) (buffer : Bytes) (observers : Observers) :
    loadAndVerify space v data carrier buffer observers =
      .ofExcept ((v.loadAndVerify Storage.memory data carrier buffer.length observers).1.map
        .ofImage) := by
  rw [loadAndVerify, loadImage_eq space hdata, BootVerifier.loadAndVerify]
  cases Storage.memory.load data carrier buffer.length with
  | error f => rfl
  | ok b => exact verifyImage_eq space hv b carrier observers

/-! ### No traps -/

/-- The readers of an image give what it holds. -/
structure Layout.Readable (i : BootImage) : Prop where
  signedPrefix : (ofImage i).signedPrefix.CarriesOut (.ok i.body)
  region (offset size : Nat) : ((ofImage i).region offset size).CarriesOut (i.region offset size)
  keyTag : ((ofImage i).keyTag space).CarriesOut i.keyTag
  signatureTag : ((ofImage i).signatureTag space).CarriesOut i.signatureTag
  buildIndex : ((ofImage i).buildIndex space).CarriesOut (i.signedIndex.map .ofIndex)
  signedMessage (x : SignedIndex) :
    ((ofImage i).signedMessage (.ofIndex x)).CarriesOut (i.signedMessage x)

theorem Layout.readable_of_wellFormed {i : BootImage} (hi : i.WellFormed) :
    Layout.Readable space i where
  signedPrefix := .of_eq (signedPrefix_eq hi)
  region offset size := .of_eq (region_eq hi offset size)
  keyTag := .of_eq (keyTag_eq space hi)
  signatureTag := .of_eq (signatureTag_eq space hi)
  buildIndex := .of_eq (buildIndex_eq space hi)
  signedMessage x := .of_eq (signedMessage_eq hi x)

/-- The machine parses, reads, walks over, verifies and loads whatever lies in its memory, and
recovers tokens from it, and none of this ends in a trap: each run gives what the function that it
carries out gives. -/
theorem verifier_never_traps {data : Bytes} (hdata : data.length < space.size)
    {v : BootVerifier} (hv : v.policy.Standard) (carrier : Carrier) (observers : Observers) :
    (parseImage space data carrier).CarriesOut ((BootImage.parse data carrier).map .ofImage) ∧
      (∀ i, BootImage.parse data carrier = .ok i → Layout.Readable space i) ∧
      (∀ c : Cursor, c.image = data → ∃ step, c.next space = .value step ∧
        step.map (fun s => (s.1, s.2.view)) = c.view.next?) ∧
      (∀ c, (∀ message ∈ c.digestInput? v.policy, message.length < space.size) →
        (verifyMessage space v.policy c).CarriesOut
          (.ok ((v.policy.verify c).outcome, (v.policy.verify c).context.digestOut))) ∧
      (verifyImage space v data carrier observers).CarriesOut
        ((v.verify data carrier observers).1.map .ofImage) ∧
      (∀ x, (Verified.ofImage x).entries.CarriesOut (.ok x.entries)) ∧
      (∀ buffer, (loadAndVerify space v data carrier buffer observers).CarriesOut
        ((v.loadAndVerify Storage.memory data carrier buffer.length observers).1.map .ofImage)) ∧
      ∀ digest template modulusBits,
        (recoverPss space data digest template modulusBits).CarriesOut
            (Pss.recover data digest template modulusBits) ∧
          (recoverPkcs1 space data digest template).CarriesOut
            (Pkcs1.recover data digest template modulusBits) := by
  refine ⟨.of_eq (parseImage_eq space data carrier), fun i hparse => ?_, fun c hc => ?_,
    fun c hc => .of_eq (verifyMessage_eq space hv hc),
    .of_eq (verifyImage_eq space hv data carrier observers),
    fun x => .of_eq (Verified.entries_ofImage x),
    fun buffer => .of_eq (loadAndVerify_eq space hdata hv carrier buffer observers),
    fun digest template modulusBits =>
      ⟨.of_eq (recoverPss_eq space data digest template modulusBits),
        .of_eq (recoverPkcs1_eq space hdata digest template modulusBits)⟩⟩
  · obtain ⟨hi, -, -⟩ := BootImage.wellFormed_of_parse hparse
    exact Layout.readable_of_wellFormed space hi
  · subst hc
    obtain ⟨step, hnext, hview, -⟩ := Cursor.next_eq space hdata
    exact ⟨step, hnext, hview⟩

/-- The image with a key tag and a signature tag, in the smallest memory that has every word as an
address. -/
theorem keyThenSignature_never_traps :
    let space : AddressSpace := ⟨2 ^ 32, le_rfl⟩
    let image := BootImage.ofTags BootImage.keyThenSignature
    let v : BootVerifier := .ofPolicy (.pinning 0x4000001 BootImage.someKey.key)
    image.encode.length < space.size ∧ v.policy.Standard ∧
      parseImage space image.encode .unbounded = .value (.ofImage image) ∧
      ∀ buffer t, loadAndVerify space v image.encode .unbounded buffer .quiet ≠ .trap t := by
  intro space image v
  have hlength : image.encode.length < space.size := by
    have hi := (BootImage.wellFormed_of_parse BootImage.parse_keyThenSignature).1
    exact hi.length_encode.trans_lt image.header.totalLength.toNat_lt
  have hv : v.policy.Standard := ⟨rfl, rfl, rfl⟩
  obtain ⟨hparse, -, -, -, -, -, hload, -⟩ :=
    verifier_never_traps space hlength hv .unbounded .quiet
  refine ⟨hlength, hv, ?_, fun buffer => (hload buffer).ne_trap⟩
  rw [hparse.eq_ofExcept, BootImage.parse_keyThenSignature]
  rfl

end SignedBoot.Machine
