import Mathlib
import SignedBoot.Proofs.Container.ImageOctets
import SignedBoot.Proofs.Loading
import SignedBoot.Verification.BootVerifier

/-!
# Verifying from storage

The loader checks a header before it has the image, and the parser checks it again with the image
around it. Where the image is there and there is room for it, verifying from storage and verifying
the image come to the same (`BootVerifier.loads_iff_and_loadAndVerify_eq`).
-/

namespace SignedBoot

namespace Storage

/-- What the loader does with a header that stands at the carrier's base. No offset is missing. -/
theorem load_memory_eq {data : Bytes} {carrier : Carrier} {room : Nat} {header : Header}
    (hroom : 0x44 ≤ room) (hhead : slice data carrier.base.toNat 0x44 = header.encode) :
    memory.load data carrier room = do
      header.validate
      carrier.checkFit header.totalLength
      if room < header.totalLength.toNat then throw .bufferTooSmall
      let body ← readBytes data (carrier.base + 0x44) (header.totalLength.toNat - 0x44)
      return header.encode ++ body.bytes := by
  have hle : carrier.base.toNat + 0x44 ≤ data.length := by
    have hlength := congrArg List.length hhead
    rw [header.length_encode, slice, List.length_take, List.length_drop, Header.byteSize] at hlength
    omega
  have hhave : ¬ room < Header.byteSize := not_lt.mpr hroom
  have hread : readBytes data carrier.base Header.byteSize =
      .ok ⟨header.encode, header.length_encode⟩ :=
    readBytes_eq_ok_iff.mpr ⟨hle, hhead.symm⟩
  have hheader : Header.read header.encode = .ok (header, []) :=
    Header.read_eq_ok_iff.mpr (List.append_nil _).symm
  rw [load_eq, if_neg hhave]
  change (readBytes data carrier.base Header.byteSize >>= _) = _
  rw [hread]
  change ((Header.read header.encode >>= _) >>= _) = _
  rw [hheader]
  change ((header.validate >>= _) >>= _) = _
  cases header.validate with
  | error f => rfl
  | ok u =>
    change ((carrier.checkFit header.totalLength >>= _) >>= _) = _
    cases carrier.checkFit header.totalLength with
    | error f => rfl
    | ok u => rfl

/-- Where all that a header declares is there and has room, only the two checks on the header can
stop the loader. -/
theorem load_memory_eq_of_declared {data : Bytes} {carrier : Carrier} {room : Nat}
    {header : Header} (hhead : slice data carrier.base.toNat 0x44 = header.encode)
    (htotal : 0x44 ≤ header.totalLength.toNat) (hroom : header.totalLength.toNat ≤ room)
    (hend : carrier.base.toNat + header.totalLength.toNat ≤ data.length) :
    memory.load data carrier room =
      (header.validate >>= fun _ => carrier.checkFit header.totalLength).map fun _ =>
        slice data carrier.base.toNat header.totalLength.toNat := by
  cases hvalid : header.validate with
  | error f =>
    rw [load_memory_eq (htotal.trans hroom) hhead, hvalid]
    rfl
  | ok u =>
    cases hfit : carrier.checkFit header.totalLength with
    | error f =>
      rw [load_memory_eq (htotal.trans hroom) hhead, hvalid]
      change (carrier.checkFit header.totalLength >>= _) = _
      rw [hfit]
      rfl
    | ok u =>
      have hload : memory.load data carrier room =
          .ok (slice data carrier.base.toNat header.totalLength.toNat) :=
        load_memory_eq_ok_iff.mpr ⟨header, ⟨hhead, header.validate_eq_ok_iff.mp hvalid,
          (carrier.checkFit_eq_ok_iff _).mp hfit, hend⟩, hroom, rfl⟩
      rw [hload]
      rfl

theorem load_memory_eq_ok_iff_checks {data b : Bytes} {carrier : Carrier} {room : Nat} :
    memory.load data carrier room = .ok b ↔
      0x44 ≤ room ∧ carrier.base.toNat + 0x44 ≤ data.length ∧
      ∃ header rest, Header.read (slice data carrier.base.toNat 0x44) = .ok (header, rest) ∧
        header.validate = .ok () ∧ carrier.checkFit header.totalLength = .ok () ∧
        header.totalLength.toNat ≤ room ∧
        carrier.base.toNat + header.totalLength.toNat ≤ data.length ∧
        b = slice data carrier.base.toNat header.totalLength.toNat := by
  rw [load_memory_eq_ok_iff]
  constructor
  · rintro ⟨header, ⟨hhead, hvalid, hfits, hend⟩, hroom, rfl⟩
    have hheader : 0x44 ≤ header.totalLength.toNat := hfits.header_le
    exact ⟨hheader.trans hroom, by omega, header, [],
      Header.read_eq_ok_iff.mpr (hhead.trans (List.append_nil _).symm),
      header.validate_eq_ok_iff.mpr hvalid, (carrier.checkFit_eq_ok_iff _).mpr hfits, hroom, hend,
      rfl⟩
  · rintro ⟨-, hle, header, rest, hread, hvalid, hfit, hroom, hend, rfl⟩
    obtain ⟨hblock, rfl⟩ :=
      (Header.read_block_eq_ok_iff (x := ⟨_, length_slice hle⟩)).mp hread
    exact ⟨header, ⟨congrArg Block.bytes hblock, header.validate_eq_ok_iff.mp hvalid,
      (carrier.checkFit_eq_ok_iff _).mp hfit, hend⟩, hroom, rfl⟩

end Storage

/-- A header that the checks refuse makes the parser refuse the image with the same fault. -/
theorem BootImage.parse_of_header_refused {header : Header} {carrier : Carrier} {f : Fault}
    (h : (header.validate >>= fun _ => carrier.checkFit header.totalLength) = .error f)
    (rest : Bytes) : parse (header.encode ++ rest) carrier = .error f := by
  have hread : Header.read (header.encode ++ rest) = .ok (header, rest) :=
    Header.read_eq_ok_iff.mpr rfl
  rw [parse, hread]
  change (header.validate >>= _) = _
  cases hvalid : header.validate with
  | error g =>
    rw [hvalid] at h
    cases h
    rfl
  | ok u =>
    rw [hvalid] at h
    change (carrier.checkFit header.totalLength >>= _) = _
    change carrier.checkFit header.totalLength = .error f at h
    rw [h]
    rfl

namespace BootVerifier

/-- The loader and the parser refuse a header alike, and an image with an accepted header is loaded
as it stands in the storage. -/
theorem loadAndVerify_memory_eq {data : Bytes} {carrier : Carrier} {room : Nat} {header : Header}
    (hhead : slice data carrier.base.toNat 0x44 = header.encode)
    (htotal : 0x44 ≤ header.totalLength.toNat) (hroom : header.totalLength.toNat ≤ room)
    (hend : carrier.base.toNat + header.totalLength.toNat ≤ data.length) (v : BootVerifier)
    (observers : Observers) :
    v.loadAndVerify Storage.memory data carrier room observers =
      v.verify (slice data carrier.base.toNat header.totalLength.toNat) carrier observers := by
  rw [loadAndVerify, Storage.load_memory_eq_of_declared hhead htotal hroom hend]
  cases hchecks : header.validate >>= fun _ => carrier.checkFit header.totalLength with
  | error f =>
    have hsplit : slice data carrier.base.toNat header.totalLength.toNat = header.encode ++
        slice data (carrier.base.toNat + 0x44) (header.totalLength.toNat - 0x44) := by
      rw [← hhead, slice_append_slice, Nat.add_sub_cancel' htotal]
    have hprepare : v.prepare (slice data carrier.base.toNat header.totalLength.toNat) carrier =
        .error f := by
      rw [hsplit, prepare, BootImage.parse_of_header_refused hchecks]
      rfl
    rw [verify, hprepare]
    rfl
  | ok u => rfl

/-- What is loaded from memory is the image at the carrier's base, whenever its header passes and it
is there with room for it; no base is then too large for an offset behind the header. An image that
is there, with room for what its header declares, is verified from memory as it is by itself: with
the same result or fault and the same trace. -/
theorem loads_iff_and_loadAndVerify_eq (data : Bytes) (carrier : Carrier) (room : Nat) :
    (∀ b, Storage.memory.load data carrier room = .ok b ↔
        0x44 ≤ room ∧ carrier.base.toNat + 0x44 ≤ data.length ∧
        ∃ header rest, Header.read (slice data carrier.base.toNat 0x44) = .ok (header, rest) ∧
          header.validate = .ok () ∧ carrier.checkFit header.totalLength = .ok () ∧
          header.totalLength.toNat ≤ room ∧
          carrier.base.toNat + header.totalLength.toNat ≤ data.length ∧
          b = slice data carrier.base.toNat header.totalLength.toNat) ∧
      (∀ total, carrier.checkFit total = .ok () →
        carrier.bodyOffset? = some (carrier.base + 0x44) ∧
          (carrier.base + 0x44).toNat = carrier.base.toNat + 0x44) ∧
      ∀ total, numberAt data (carrier.base.toNat + 0x40) 4 = total → 0x44 ≤ total → total ≤ room →
        carrier.base.toNat + total ≤ data.length → ∀ (v : BootVerifier) (observers : Observers),
          v.loadAndVerify Storage.memory data carrier room observers =
            v.verify (slice data carrier.base.toNat total) carrier observers := by
  refine ⟨fun b => Storage.load_memory_eq_ok_iff_checks, fun total hfit =>
    ((carrier.checkFit_eq_ok_iff total).mp hfit).bodyOffset?_eq, ?_⟩
  rintro total hdeclared htotal hroom hend v observers
  have hlength : 0x44 ≤ (slice data carrier.base.toNat 0x44).length := by
    rw [slice, List.length_take, List.length_drop]
    omega
  obtain ⟨header, rest, hsplit⟩ := Header.exists_append hlength
  have hhead : slice data carrier.base.toNat 0x44 = header.encode := by
    have hlengths := congrArg List.length hsplit
    rw [slice, List.length_take, List.length_drop, List.length_append, header.length_encode,
      Header.byteSize] at hlengths
    obtain rfl : rest = [] := List.eq_nil_of_length_eq_zero (by omega)
    rw [hsplit, List.append_nil]
  have hword : header.totalLength.toNat = total := by
    obtain ⟨-, -, -, -, -, htotalLength⟩ := header.slice_encode []
    rw [← htotalLength, List.append_nil, ← hhead, ← hdeclared, numberAt, numberAt,
      slice_slice _ (by decide)]
  subst hword
  exact loadAndVerify_memory_eq hhead htotal hroom hend v observers

/-- The image without a payload and tags, alone between two octets of a storage. -/
theorem enclosed_image_verified_alike :
    numberAt ([0xff] ++ (BootImage.ofTags []).encode ++ [0xff]) (1 + 0x40) 4 = 0x4c ∧
      Storage.memory.load ([0xff] ++ (BootImage.ofTags []).encode ++ [0xff]) ⟨1, 0x4c, 0x4d⟩ 0x4c =
        .ok (BootImage.ofTags []).encode ∧
      ∀ (v : BootVerifier) (observers : Observers),
        v.loadAndVerify Storage.memory ([0xff] ++ (BootImage.ofTags []).encode ++ [0xff])
            ⟨1, 0x4c, 0x4d⟩ 0x4c observers =
          v.verify (BootImage.ofTags []).encode ⟨1, 0x4c, 0x4d⟩ observers := by
  obtain ⟨hload, -, halike⟩ := loads_iff_and_loadAndVerify_eq
    ([0xff] ++ (BootImage.ofTags []).encode ++ [0xff]) ⟨1, 0x4c, 0x4d⟩ 0x4c
  have hdeclared : numberAt ([0xff] ++ (BootImage.ofTags []).encode ++ [0xff]) (1 + 0x40) 4 =
      0x4c := by
    decide
  refine ⟨hdeclared, (hload _).mpr ⟨by decide, by decide, (BootImage.ofTags []).header, [], ?_⟩,
    fun v observers => ?_⟩
  · exact ⟨Header.read_eq_ok_iff.mpr (by decide), by decide, by decide, by decide, by decide,
      by decide⟩
  · exact halike _ hdeclared (by decide) (by decide) (by decide) v observers

end BootVerifier

end SignedBoot
