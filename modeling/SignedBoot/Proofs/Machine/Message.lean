import Mathlib
import SignedBoot.Proofs.Container.Coverage
import SignedBoot.Proofs.Container.SignedMessage
import SignedBoot.Proofs.Machine.Container

/-!
# The signed message on a machine

What is read off an image that passed the parser: its sole tags, the index of the signed ones, and
the message gathered for the index. The index is a table with a fixed number of slots of which some
are in use. None of the readers can fail otherwise than `BootImage` says.
-/

namespace SignedBoot.Machine

variable (space : AddressSpace)

/-! ### Views of an image -/

namespace Layout

/-- The octets before the trailer. -/
def signedPrefix (l : Layout) : Run Bytes := rangeTo l.bytes l.descriptor.trailerOffset.toNat

/-- The octets of a region, if it is one and the image has it. -/
def region (l : Layout) (offset size : Nat) : Run Bytes :=
  if UInt32.size ≤ offset + size ∨ l.bytes.length < offset + size then .fault .tagTruncated
  else range l.bytes offset (offset + size)

/-- The tag of a kind, when there is exactly one. -/
def soleTag {τ : Type} (l : Layout) (pick : Tag → Option τ) (missing duplicate : Fault) :
    Run τ := do
  let found ← forTags space l.trailer none fun found p =>
    match pick p.tag with
    | none => .value found
    | some t => if found.isSome then .fault duplicate else .value (some t)
  match found with
  | some t => .value t
  | none => .fault missing

def keyTag (l : Layout) : Run KeyTag :=
  l.soleTag space Tag.key? .keyTagMissing .keyTagDuplicate

def signatureTag (l : Layout) : Run SignatureTag :=
  l.soleTag space Tag.signature? .signatureTagMissing .signatureTagDuplicate

variable {i : BootImage}

theorem length_bytes_lt (hi : i.WellFormed) : (ofImage i).bytes.length < UInt32.size :=
  hi.length_encode.trans_lt i.header.totalLength.toNat_lt

theorem signedPrefix_eq (hi : i.WellFormed) : (ofImage i).signedPrefix = .value i.body := by
  have htrailer : (ofImage i).descriptor.trailerOffset.toNat = i.body.length :=
    hi.length_body.symm
  have hbytes : (ofImage i).bytes = i.body ++ encodeTags i.tags := i.encode_eq
  rw [signedPrefix, htrailer, hbytes, rangeTo_append]

theorem region_eq (hi : i.WellFormed) (offset size : Nat) :
    (ofImage i).region offset size = .ofExcept (i.region offset size) := by
  have hlength := length_bytes_lt hi
  have hbytes : (ofImage i).bytes = i.encode := rfl
  unfold region BootImage.region
  rw [hbytes] at hlength ⊢
  by_cases hend : offset + size ≤ i.encode.length
  · rw [if_pos hend, if_neg (by omega), range_eq (by omega) hend, Nat.add_sub_cancel_left]
    rfl
  · rw [if_neg hend, if_pos (by omega)]
    rfl

/-- On an image that passed the parser the walk over the trailer goes on with each tag. -/
theorem forTags_trailer (hi : i.WellFormed) {σ : Type} (s : σ) (body : σ → PlacedTag → Run σ) :
    forTags space (ofImage i).trailer s body = i.placedTags.foldlM body s := by
  have hspace := space.two_pow_le
  have hlength := length_bytes_lt hi
  rw [UInt32.size] at hlength
  have htags : (ofImage i).trailer.view.tags = .ok i.placedTags := BootImage.tags_start_encode hi
  exact forTags_of_tags space (show (ofImage i).bytes.length < space.size by omega) htags s body

/-- What a search for the sole tag of a kind has come to when it has seen some of them. -/
def sole {τ : Type} (duplicate : Fault) : List τ → Run (Option τ)
  | [] => .value none
  | [t] => .value (some t)
  | _ => .fault duplicate

theorem foldlM_soleTag {τ : Type} (pick : Tag → Option τ) (duplicate : Fault)
    (ps : List PlacedTag) (found : Option τ) :
    ps.foldlM (fun found p =>
      match pick p.tag with
      | none => .value found
      | some t => if found.isSome then .fault duplicate else .value (some t)) found =
      sole duplicate (found.toList ++ (ps.map PlacedTag.tag).filterMap pick) := by
  induction ps generalizing found with
  | nil => cases found <;> rfl
  | cons p ps ih =>
    rw [List.foldlM_cons, List.map_cons, List.filterMap_cons]
    cases pick p.tag with
    | none => exact ih found
    | some t =>
      cases found with
      | none => exact ih (some t)
      | some u => rfl

theorem soleTag_eq (hi : i.WellFormed) {τ : Type} (pick : Tag → Option τ)
    (missing duplicate : Fault) :
    (ofImage i).soleTag space pick missing duplicate =
      match i.tags.filterMap pick with
      | [] => .fault missing
      | [t] => .value t
      | _ => .fault duplicate := by
  rw [soleTag, forTags_trailer space hi, foldlM_soleTag, BootImage.map_tag_placedTags]
  rcases i.tags.filterMap pick with _ | ⟨t, _ | ⟨u, ts⟩⟩ <;> rfl

theorem keyTag_eq (hi : i.WellFormed) : (ofImage i).keyTag space = .ofExcept i.keyTag := by
  rw [keyTag, soleTag_eq space hi, BootImage.keyTag]
  rcases i.tags.filterMap Tag.key? with _ | ⟨t, _ | ⟨u, ts⟩⟩ <;> rfl

theorem signatureTag_eq (hi : i.WellFormed) :
    (ofImage i).signatureTag space = .ofExcept i.signatureTag := by
  rw [signatureTag, soleTag_eq space hi, BootImage.signatureTag]
  rcases i.tags.filterMap Tag.signature? with _ | ⟨t, _ | ⟨u, ts⟩⟩ <;> rfl

end Layout

/-! ### The index -/

/-- A table of regions with a fixed number of slots, of which the first are in use. -/
structure IndexTable where
  trailerOffset : Nat
  count : Nat
  slots : List IndexEntry

namespace IndexTable

def ofIndex (x : SignedIndex) : IndexTable :=
  ⟨x.trailerOffset, x.length,
    x.entries.toList ++ List.replicate (indexCapacity - x.length) ⟨0, 0, 0⟩⟩

/-- Puts an entry into the next slot, if there is one. -/
def push (t : IndexTable) (e : IndexEntry) : Run (Option IndexTable) :=
  if t.count < t.slots.length then do
    let count ← add UInt32.size t.count 1
    .value (some { t with count, slots := t.slots.set t.count e })
  else .value none

/-- The slots in use. -/
def entries (t : IndexTable) : Run (List IndexEntry) := rangeTo t.slots t.count

theorem entries_ofIndex (x : SignedIndex) : (ofIndex x).entries = .value x.entries.toList :=
  rangeTo_append x.entries.toList _

theorem push_ofIndex (x : SignedIndex) (e : IndexEntry) :
    (ofIndex x).push e = .value ((x.push? e).map ofIndex) := by
  have hslots : (ofIndex x).slots.length = indexCapacity := by
    have hle := x.entries.length_le
    simp only [ofIndex, SignedIndex.length, BoundedList.length, List.length_append,
      List.length_replicate]
    omega
  have hcount : (ofIndex x).count = x.entries.toList.length := rfl
  rw [push, hslots, hcount]
  by_cases hroom : x.entries.toList.length < indexCapacity
  · obtain ⟨entries, hpush, hentries⟩ := BoundedList.push?_of_lt hroom e
    have hrest : indexCapacity - x.entries.toList.length =
        indexCapacity - (x.entries.toList.length + 1) + 1 := by omega
    have hset : (ofIndex x).slots.set x.entries.toList.length e =
        entries.toList ++ List.replicate (indexCapacity - entries.toList.length) ⟨0, 0, 0⟩ := by
      simp only [ofIndex, SignedIndex.length, BoundedList.length, hentries, List.length_append,
        List.length_singleton, hrest, List.replicate_succ, List.set_append_right _ _ le_rfl,
        Nat.sub_self, List.set_cons_zero, List.append_assoc, List.singleton_append]
    have hadd : x.entries.toList.length + 1 < UInt32.size := by
      have hcapacity : indexCapacity < UInt32.size := by decide
      omega
    rw [if_pos hroom, add_eq hadd, Run.value_bind, hset, SignedIndex.push?, hpush]
    simp only [ofIndex, Option.map_some, SignedIndex.length, BoundedList.length, hentries,
      List.length_append, List.length_singleton]
  · rw [if_neg hroom, SignedIndex.push?, BoundedList.push?_of_not_lt hroom]
    rfl

end IndexTable

namespace Layout

/-- Records every signed tag, or reports that there are too many. -/
def buildIndex (l : Layout) : Run IndexTable :=
  let table := IndexTable.ofIndex (.empty l.descriptor.trailerOffset.toNat)
  forTags space l.trailer table fun table p =>
    if p.kind.isSigned then do
      match ← table.push (BootImage.indexEntry p) with
      | some table => .value table
      | none => .fault .indexFull
    else .value table

def signedMessage (l : Layout) (table : IndexTable) : Run Gather := do
  let front ← l.signedPrefix
  let entries ← table.entries
  entries.foldlM (fun message e => do
    let segment ← l.region e.offset e.size
    .ofExcept (message.push segment)) (Gather.single front)

variable {i : BootImage}

theorem foldlM_record (ps : List PlacedTag) (x : SignedIndex) :
    ps.foldlM (fun table p =>
      if p.kind.isSigned then do
        match ← IndexTable.push table (BootImage.indexEntry p) with
        | some table => .value table
        | none => .fault .indexFull
      else .value table) (IndexTable.ofIndex x) =
      Run.ofExcept (((ps.filter (·.kind.isSigned)).foldlM SignedIndex.record x).map .ofIndex) := by
  induction ps generalizing x with
  | nil => rfl
  | cons p ps ih =>
    rw [List.foldlM_cons, List.filter_cons]
    by_cases hsigned : p.kind.isSigned
    · rw [if_pos hsigned, if_pos hsigned, IndexTable.push_ofIndex, List.foldlM_cons,
        SignedIndex.record]
      cases x.push? (BootImage.indexEntry p) with
      | none => rfl
      | some y => exact ih y
    · rw [if_neg hsigned, if_neg hsigned]
      exact ih x

theorem buildIndex_eq (hi : i.WellFormed) :
    (ofImage i).buildIndex space = .ofExcept (i.signedIndex.map .ofIndex) := by
  rw [buildIndex, forTags_trailer space hi]
  exact foldlM_record i.placedTags (.empty i.trailerOffset)

theorem signedMessage_eq (hi : i.WellFormed) (x : SignedIndex) :
    (ofImage i).signedMessage (.ofIndex x) = .ofExcept (i.signedMessage x) := by
  simp only [signedMessage, signedPrefix_eq hi, IndexTable.entries_ofIndex, Run.value_bind,
    region_eq hi, BootImage.signedMessage]
  generalize Gather.single i.body = message
  induction x.entries.toList generalizing message with
  | nil => rfl
  | cons e es ih =>
    rw [List.foldlM_cons, List.foldlM_cons]
    cases i.region e.offset e.size with
    | error f => rfl
    | ok segment =>
      change (Run.ofExcept (message.push segment) >>= _) =
        Run.ofExcept (message.push segment >>= _)
      cases message.push segment with
      | error f => rfl
      | ok message => exact ih message

end Layout

end SignedBoot.Machine
