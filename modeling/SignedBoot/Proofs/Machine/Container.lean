import Mathlib
import SignedBoot.Proofs.Container.Format
import SignedBoot.Proofs.Machine.Steps

/-!
# The container on a machine

A parser of boot images that counts and cuts as a machine does. Every length and offset in an image
is the choice of whoever wrote it; what keeps the steps possible are the checks made before them.
The walk over the trailer (`forTags_eq`) and the whole parser (`parseImage_eq`) give what
`TagCursor` and `BootImage.parse` give.
-/

namespace SignedBoot.Machine

variable (space : AddressSpace)

/-! ### Header and descriptor -/

/-- The offset one past the descriptor region. -/
def headerEnd (h : Header) : Run Nat := add UInt32.size Header.byteSize h.descriptorLength

def validateHeader (h : Header) : Run Unit := do
  if h.typeWord ≠ imageType then .fault .headerTypeMismatch
  else if h.magicA ≠ magicA then .fault .headerMagicAMismatch
  else if h.magicB ≠ magicB then .fault .headerMagicBMismatch
  else if h.tagBlock ≠ tagBlock then .fault .headerTagBlockMismatch
  else if h.descriptorLength < 8 ∨ h.descriptorLength > Header.maxDescriptorLength then
    .fault .headerSizeInvalid
  else do
    let stop ← headerEnd h
    if stop > h.totalLength.toNat then .fault .headerSizeInvalid else .value ()

def parseDescriptor (place : DescriptorPlace) (b : Bytes) : Run Descriptor :=
  if b.length > place.maxByteSize then .fault .descriptorSize
  else
    match Descriptor.readHead? b with
    | none => .fault .descriptorTruncated
    | some ((version, count, trailerOffset), b) =>
      if version ≠ Descriptor.version then .fault .descriptorVersion
      else if count.toNat > place.maxEntries then .fault .descriptorCount
      else do
        let length ← mul space.size count.toNat LoadEntry.byteSize
        if b.length < length then .fault .descriptorSize
        else
          match LoadEntry.readMany? count.toNat b with
          | none => .fault .descriptorSize
          | some (entries, slack) =>
            if ∀ e ∈ entries, e.Sound then .value { trailerOffset, entries, slack }
            else .fault .descriptorEntryInvalid

theorem headerEnd_eq (h : Header) : headerEnd h = .value h.bodyOffset := by
  have hlt : h.descriptorLength < 0x10000 := Nat.mod_lt _ (by decide)
  refine add_eq ?_
  rw [Header.byteSize, UInt32.size]
  omega

theorem validateHeader_eq (h : Header) : validateHeader h = .ofExcept h.validate := by
  simp only [validateHeader, Header.validate, headerEnd_eq, Run.value_bind]
  refine Run.check_eq fun _ => ?_
  refine Run.check_eq fun _ => ?_
  refine Run.check_eq fun _ => ?_
  refine Run.check_eq fun _ => ?_
  simp only [← or_assoc, Run.ofExcept_ite]
  by_cases hlength : h.descriptorLength < 8 ∨ h.descriptorLength > Header.maxDescriptorLength
  · simp only [hlength, true_or, if_true]
    rfl
  · simp only [hlength, false_or, if_false]
    rfl

theorem parseDescriptor_eq (place : DescriptorPlace) (b : Bytes) :
    parseDescriptor space place b = .ofExcept (Descriptor.parse place b) := by
  have hspace := space.two_pow_le
  rw [parseDescriptor, Descriptor.parse]
  refine Run.check_eq fun _ => ?_
  cases Descriptor.readHead? b with
  | none => rfl
  | some head =>
    obtain ⟨⟨version, count, trailerOffset⟩, rest⟩ := head
    have hcount := count.toNat_lt
    have hmul : count.toNat * LoadEntry.byteSize < space.size := by
      rw [LoadEntry.byteSize]
      omega
    simp only [mul_eq hmul, Run.value_bind]
    refine Run.check_eq fun _ => ?_
    refine Run.check_eq fun _ => ?_
    cases hentries : LoadEntry.readMany? count.toNat rest with
    | none => exact ite_self _
    | some x =>
      obtain ⟨entries, slack⟩ := x
      obtain ⟨hlength, rfl⟩ := LoadEntry.readMany?_eq_some_iff.mp hentries
      have hroom : ¬ (entries.flatMap LoadEntry.encode ++ slack).length <
          count.toNat * LoadEntry.byteSize := by
        simp [List.length_flatMap, hlength]
      simp only [if_neg hroom, Run.ofExcept_ite]
      rfl

/-! ### Tags -/

def regionOfFields (modeWord count : UInt16) (entries : Block 0x100) : Run RegionBlock :=
  match RegionMode.ofWord? modeWord with
  | none => .fault .regionModeInvalid
  | some mode =>
    if count.toNat > mode.maxCount then .fault .regionCountInvalid
    else do
      let length ← mul space.size count.toNat mode.entrySize
      if length > entries.bytes.length then .fault .regionCountInvalid
      else .value { mode, count, entries }

def readLayout (h : TagHeader) (b : Bytes) : Run (LayoutTag × Bytes) :=
  match LayoutTag.readFields? b with
  | none => .fault .tagTruncated
  | some (typeWord, window, (mode, count, entries), rest) => do
    let _ ← parseDescriptor space .embedded window.bytes
    let region ← regionOfFields space mode count entries
    .value (⟨h.reserved0, h.reserved1, typeWord, window, region⟩, rest)

def readKey (h : TagHeader) (b : Bytes) : Run (KeyTag × Bytes) :=
  match KeyTag.readFields? b with
  | none => .fault .tagTruncated
  | some (bits, exponent, modulus, tail, rest) =>
    if bits ≠ KeyTag.keyBits ∨ exponent < 3 ∨ exponent % 2 ≠ 1 then .fault .keyTagInvalid
    else do
      let x ← elementAt modulus.bytes 0
      if x < 0x80 then .fault .keyTagInvalid
      else .value (⟨h.reserved0, h.reserved1, exponent, modulus, tail⟩, rest)

def readTag (b : Bytes) : Run (Tag × Bytes) :=
  match TagHeader.read? b with
  | none => .fault .tagTruncated
  | some (h, b) =>
    match TagKind.ofMagic? h.magic with
    | none => .fault .tagUnknown
    | some kind =>
      if h.length.toNat ≠ kind.byteSize then .fault .tagLengthMismatch
      else
        match kind with
        | .layout => do
          let (t, rest) ← readLayout space h b
          .value (.layout t, rest)
        | .key => do
          let (t, rest) ← readKey h b
          .value (.key t, rest)
        | .signature =>
          .ofExcept ((SignatureTag.readBody h b).map fun (t, rest) => (.signature t, rest))

theorem regionOfFields_eq (modeWord count : UInt16) (entries : Block 0x100) :
    regionOfFields space modeWord count entries =
      .ofExcept (RegionBlock.ofFields modeWord count entries) := by
  have hspace := space.two_pow_le
  unfold regionOfFields RegionBlock.ofFields
  cases RegionMode.ofWord? modeWord with
  | none => rfl
  | some mode =>
    refine Run.check_eq fun hcount => ?_
    have hroom : count.toNat * mode.entrySize ≤ 0x100 := by
      cases mode <;> simp only [RegionMode.maxCount, RegionMode.entrySize] at hcount ⊢ <;> omega
    rw [mul_eq (by omega), Run.value_bind, if_neg (by rw [entries.length_bytes]; omega)]
    rfl

theorem readLayout_eq (h : TagHeader) (b : Bytes) :
    readLayout space h b = .ofExcept (LayoutTag.readBody h b) := by
  unfold readLayout LayoutTag.readBody
  cases LayoutTag.readFields? b with
  | none => rfl
  | some x =>
    obtain ⟨typeWord, window, ⟨mode, count, entries⟩, rest⟩ := x
    simp only [parseDescriptor_eq, regionOfFields_eq]
    cases Descriptor.parse .embedded window.bytes with
    | error f => rfl
    | ok d => cases RegionBlock.ofFields mode count entries <;> rfl

theorem readKey_eq (h : TagHeader) (b : Bytes) :
    readKey h b = .ofExcept (KeyTag.readBody h b) := by
  unfold readKey KeyTag.readBody
  cases KeyTag.readFields? b with
  | none => rfl
  | some x =>
    obtain ⟨bits, exponent, modulus, tail, rest⟩ := x
    obtain ⟨x, octets, hx, -⟩ := modulus.exists_cons
    have hfirst : elementAt (x :: octets) 0 = .value x := rfl
    simp only [hx, hfirst, Run.value_bind, KeyTag.WellFormed, List.head?_cons, Option.mem_def,
      Option.some.injEq, exists_eq_left', ← UInt32.not_lt, ← UInt8.not_lt, Run.ofExcept_ite]
    by_cases hb : bits = KeyTag.keyBits <;> by_cases he : exponent < 3 <;>
      by_cases ho : exponent % 2 = 1 <;> by_cases hm : x < 0x80 <;>
      simp [hb, ho, he, hm]

theorem readTag_eq (b : Bytes) : readTag space b = .ofExcept (Tag.read b) := by
  unfold readTag Tag.read
  cases TagHeader.read? b with
  | none => rfl
  | some x =>
    obtain ⟨h, b⟩ := x
    dsimp only
    cases TagKind.ofMagic? h.magic with
    | none => rfl
    | some kind =>
      simp only [readLayout_eq, readKey_eq]
      refine Run.check_eq fun _ => ?_
      cases kind with
      | layout => exact (Run.ofExcept_map _ _).symm
      | key => exact (Run.ofExcept_map _ _).symm
      | signature => rfl

/-! ### The walk over the trailer -/

/-- A place in an image that the walk over its tags has come to. -/
structure Cursor where
  image : Bytes
  position : Nat
  failed : Bool

namespace Cursor

def start (image : Bytes) (offset : Nat) : Cursor := ⟨image, offset, false⟩

def next (c : Cursor) : Run (Option (Except Fault PlacedTag × Cursor)) :=
  if c.failed ∨ c.position ≥ c.image.length then .value none
  else do
    let rest ← rangeFrom c.image c.position
    let read ← (readTag space rest).attempt
    match read with
    | .ok (tag, _) => do
      let position ← add space.size c.position tag.byteSize
      .value (some (.ok ⟨c.position, tag⟩, { c with position }))
    | .error f => .value (some (.error f, { c with failed := true }))

/-- The same place by the octets that are still ahead. -/
def view (c : Cursor) : TagCursor := ⟨c.position, c.image.drop c.position, c.failed⟩

/-- A step of the walk is one of `TagCursor`, with the new position still to be counted. -/
theorem next_eq_match (c : Cursor) :
    c.next space =
      match c.view.next? with
      | none => .value none
      | some (.ok p, _) => do
        let position ← add space.size c.position p.tag.byteSize
        .value (some (.ok p, { c with position }))
      | some (.error f, _) => .value (some (.error f, { c with failed := true })) := by
  unfold next TagCursor.next? view
  by_cases hend : c.failed ∨ c.position ≥ c.image.length
  · have hview : c.failed ∨ c.image.drop c.position = [] := by
      rwa [List.drop_eq_nil_iff]
    rw [if_pos hend, if_pos hview]
  · have hview : ¬ (c.failed ∨ c.image.drop c.position = []) := by
      rwa [List.drop_eq_nil_iff]
    rw [if_neg hend, if_neg hview, rangeFrom_eq (by omega), Run.value_bind, readTag_eq,
      Run.attempt_ofExcept, Run.value_bind]
    dsimp only
    cases Tag.read (c.image.drop c.position) <;> rfl

/-- Behind a tag, which the image holds to its end, the walk goes on with the octets that follow. -/
theorem view_of_next? {c : Cursor} {p : PlacedTag} {d : TagCursor}
    (h : c.view.next? = some (.ok p, d)) :
    ({ c with position := c.position + p.tag.byteSize } : Cursor).view = d ∧
      c.position + p.tag.byteSize ≤ c.image.length := by
  unfold TagCursor.next? at h
  split at h
  · cases h
  rename_i hahead
  split at h
  · rename_i tag rest hread
    cases h
    rw [not_or] at hahead
    have hgoing : c.failed = false := Bool.eq_false_iff.mpr hahead.1
    have hinside : ¬ c.image.length ≤ c.position := mt List.drop_eq_nil_iff.mpr hahead.2
    have hsplit : c.image.drop c.position = tag.encode ++ rest :=
      (Tag.read_eq_ok_iff.mp hread).2
    have hrest : c.image.drop (c.position + tag.byteSize) = rest := by
      rw [← List.drop_drop, hsplit, List.drop_left' tag.length_encode]
    have hlength := congrArg List.length hsplit
    rw [List.length_drop, List.length_append, Tag.length_encode] at hlength
    exact ⟨by simp only [view, hrest, hgoing], by dsimp only; omega⟩
  · cases h

theorem view_of_next?_error {c : Cursor} {f : Fault} {d : TagCursor}
    (h : c.view.next? = some (.error f, d)) : ({ c with failed := true } : Cursor).view = d := by
  unfold TagCursor.next? at h
  split at h
  · cases h
  split at h <;> cases h
  rfl

/-- A step of the walk is one of `TagCursor`, wherever it starts. -/
theorem next_eq {c : Cursor} (h : c.image.length < space.size) :
    ∃ step, c.next space = .value step ∧ step.map (fun s => (s.1, s.2.view)) = c.view.next? ∧
      ∀ s ∈ step, s.2.image = c.image := by
  rw [next_eq_match]
  cases hstep : c.view.next? with
  | none => exact ⟨none, rfl, rfl, by simp⟩
  | some step =>
    obtain ⟨item, d⟩ := step
    cases item with
    | error f =>
      refine ⟨some (.error f, { c with failed := true }), rfl, ?_, by simp⟩
      rw [Option.map_some, view_of_next?_error hstep]
    | ok p =>
      obtain ⟨hview, hle⟩ := view_of_next? hstep
      dsimp only
      rw [add_eq (hle.trans_lt h)]
      exact ⟨_, rfl, by rw [← hview]; rfl, by simp⟩

theorem remaining_lt_of_next {c d : Cursor} {p : PlacedTag}
    (h : c.next space = .value (some (.ok p, d))) : d.view.remaining < c.view.remaining := by
  rw [next_eq_match] at h
  cases hnext : c.view.next? with
  | none =>
    rw [hnext] at h
    cases h
  | some step =>
    obtain ⟨item, e⟩ := step
    have hlt := TagCursor.remaining_lt_of_next? hnext
    cases item with
    | error f =>
      rw [hnext] at h
      cases h
    | ok q =>
      rw [hnext] at h
      dsimp only at h
      unfold add at h
      split at h
      · cases h
        rwa [(view_of_next? hnext).1]
      · cases h

end Cursor

/-- Goes on with each tag that a walk comes to, until one of the two ends. -/
def forTags {σ : Type} (c : Cursor) (s : σ) (body : σ → PlacedTag → Run σ) : Run σ :=
  match h : c.next space with
  | .value none => .value s
  | .value (some (.ok p, d)) =>
    have : d.view.remaining < c.view.remaining := c.remaining_lt_of_next space h
    body s p >>= fun s => forTags d s body
  | .value (some (.error f, _)) => .fault f
  | .fault f => .fault f
  | .trap t => .trap t
termination_by c.view.remaining

theorem forTags_eq_bind {σ : Type} (c : Cursor) (s : σ) (body : σ → PlacedTag → Run σ) :
    forTags space c s body = c.next space >>= fun step =>
      match step with
      | none => .value s
      | some (.ok p, d) => body s p >>= fun s => forTags space d s body
      | some (.error f, _) => .fault f := by
  rw [forTags]
  split <;> rename_i h <;> simp only [h] <;> rfl

/-- The walk yields the items of `TagCursor` and never counts past the end of the image. -/
theorem forTags_eq {σ : Type} {c : Cursor} (h : c.image.length < space.size) (s : σ)
    (body : σ → PlacedTag → Run σ) :
    forTags space c s body =
      c.view.items.foldlM (fun s item => .ofExcept item >>= body s) s := by
  -- on the octets still ahead; the image, which fits into memory, stays the same
  induction hn : c.view.remaining using Nat.strong_induction_on generalizing c s with
  | _ n ih =>
    obtain ⟨step, hnext, hview, himage⟩ := Cursor.next_eq space h
    rw [forTags_eq_bind, hnext, Run.value_bind]
    match step with
    | none =>
      rw [TagCursor.items_of_next?_eq_none hview.symm]
      rfl
    | some (item, d) =>
      rw [TagCursor.items_of_next? hview.symm, List.foldlM_cons]
      cases item with
      | error f => rfl
      | ok p =>
        have hlt := TagCursor.remaining_lt_of_next? hview.symm
        change (body s p >>= _) = body s p >>= _
        congr 1
        funext s
        exact ih _ (hlt.trans_eq hn) (himage _ rfl ▸ h) s rfl

theorem foldlM_check_items (items : List (Except Fault PlacedTag)) :
    items.foldlM (fun _ item => Run.ofExcept item >>= fun _ => .value ()) () =
      .ofExcept ((items.mapM id).map fun _ => ()) := by
  induction items with
  | nil => rfl
  | cons item items ih =>
    rw [List.foldlM_cons, List.mapM_cons]
    cases item with
    | error f => rfl
    | ok p =>
      change items.foldlM _ () = _
      rw [ih]
      cases items.mapM id <;> rfl

theorem foldlM_ok_items {σ : Type} {items : List (Except Fault PlacedTag)}
    {ps : List PlacedTag} (h : items.mapM id = .ok ps) (s : σ) (body : σ → PlacedTag → Run σ) :
    items.foldlM (fun s item => Run.ofExcept item >>= body s) s = ps.foldlM body s := by
  induction items generalizing ps s with
  | nil =>
    cases h
    rfl
  | cons item items ih =>
    rw [List.mapM_cons] at h
    obtain ⟨p, hp, htail⟩ := bind_eq_ok_iff.mp h
    obtain ⟨qs, hqs, hcons⟩ := bind_eq_ok_iff.mp htail
    obtain rfl : item = .ok p := hp
    obtain rfl : p :: qs = ps := Except.ok.inj hcons
    rw [List.foldlM_cons, List.foldlM_cons]
    exact congrArg _ (funext fun s => ih hqs s)

/-- A walk that only looks at the tags ends with the first fault, if there is one. -/
theorem forTags_check_eq {c : Cursor} (h : c.image.length < space.size) :
    forTags space c () (fun _ _ => .value ()) = .ofExcept (c.view.tags.map fun _ => ()) := by
  rw [forTags_eq space h]
  exact foldlM_check_items c.view.items

/-- A walk without a fault goes on with each of its tags. -/
theorem forTags_of_tags {σ : Type} {c : Cursor} (h : c.image.length < space.size)
    {ps : List PlacedTag} (hps : c.view.tags = .ok ps) (s : σ) (body : σ → PlacedTag → Run σ) :
    forTags space c s body = ps.foldlM body s := by
  rw [forTags_eq space h]
  exact foldlM_ok_items hps s body

/-! ### The image -/

/-- An image that passed the parser: its octets, and views of its parts. -/
structure Layout where
  bytes : Bytes
  header : Header
  descriptor : Descriptor

def Layout.ofImage (i : BootImage) : Layout := ⟨i.encode, i.header, i.descriptor⟩

def Layout.trailer (l : Layout) : Cursor := .start l.bytes l.descriptor.trailerOffset.toNat

def parseImage (b : Bytes) (carrier : Carrier) : Run Layout := do
  let (header, _) ← Run.ofExcept (Header.read b)
  validateHeader header
  Run.ofExcept (carrier.checkFit header.totalLength)
  if b.length ≠ header.totalLength.toNat then .fault .totalMismatch
  else do
    let stop ← headerEnd header
    let window ← range b Header.byteSize stop
    let descriptor ← parseDescriptor space .header window
    let bodyOffset ← headerEnd header
    let trailerOffset := descriptor.trailerOffset.toNat
    if trailerOffset < bodyOffset ∨ header.totalLength.toNat < trailerOffset then
      .fault .trailerOffsetInvalid
    else if ¬ ∀ e ∈ descriptor.entries, e.Within bodyOffset trailerOffset then
      .fault .entryOutOfBounds
    else do
      let layout : Layout := ⟨b, header, descriptor⟩
      forTags space layout.trailer () fun _ _ => .value ()
      .value layout

theorem parseImage_eq_map (b : Bytes) (carrier : Carrier) :
    parseImage space b carrier =
      .ofExcept ((BootImage.parse b carrier).map fun i => ⟨b, i.header, i.descriptor⟩) := by
  have hspace := space.two_pow_le
  unfold parseImage BootImage.parse
  refine Run.bind_eq_map rfl fun x hread => ?_
  obtain ⟨header, rest⟩ := x
  refine Run.bind_eq_map (validateHeader_eq header) fun _ hvalid => ?_
  refine Run.bind_eq_map rfl fun _ hfit => ?_
  refine Run.guard_eq_map fun hlength => ?_
  rw [ne_eq, not_not] at hlength
  have htotal := header.totalLength.toNat_lt
  have hbody := ((Header.validate_eq_ok_iff header).mp hvalid).bodyOffset_le
  have hdrop : b.drop Header.byteSize = rest := by
    rw [Header.read_eq_ok_iff.mp hread, List.drop_left' header.length_encode]
  have hwindow : range b Header.byteSize header.bodyOffset =
      .value (rest.take header.descriptorLength) := by
    rw [range_eq (by rw [Header.bodyOffset]; omega) (by omega), hdrop, Header.bodyOffset,
      Nat.add_sub_cancel_left]
  simp only [headerEnd_eq, Run.value_bind, hwindow]
  refine Run.bind_eq_map (parseDescriptor_eq space .header _) fun descriptor _ => ?_
  refine Run.guard_eq_map fun hoffset => ?_
  refine Run.guard_eq_map fun _ => ?_
  have htrailer : (rest.drop header.descriptorLength).drop
      (descriptor.trailerOffset.toNat - header.bodyOffset) =
        b.drop descriptor.trailerOffset.toNat := by
    rw [← hdrop, List.drop_drop, List.drop_drop, ← Nat.add_assoc, ← Header.bodyOffset,
      Nat.add_sub_cancel' (by omega)]
  rw [htrailer, readTags_eq descriptor.trailerOffset.toNat,
    forTags_check_eq space (show b.length < space.size by omega)]
  simp only [Layout.trailer, Cursor.view, Cursor.start]
  cases TagCursor.tags
    ⟨descriptor.trailerOffset.toNat, b.drop descriptor.trailerOffset.toNat, false⟩ <;> rfl

theorem parseImage_eq (b : Bytes) (carrier : Carrier) :
    parseImage space b carrier = .ofExcept ((BootImage.parse b carrier).map .ofImage) := by
  rw [parseImage_eq_map]
  cases hparse : BootImage.parse b carrier with
  | error f => rfl
  | ok i =>
    obtain ⟨-, -, rfl⟩ := BootImage.wellFormed_of_parse hparse
    rfl

end SignedBoot.Machine
