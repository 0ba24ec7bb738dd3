import Mathlib
import SignedBoot.Proofs.Container.Coverage

/-!
# Scans of the trailer

The index, the message and the two sole tags of an image come from scans over one list of tags.
How many tags of each kind the list holds decides what every scan answers, and the tags that the
index records stand one behind the other (`BootImage.scans_agree_on_tags`).
-/

namespace SignedBoot

/-! ### Sole elements -/

/-- The only element of a list. -/
def sole {τ : Type} (missing duplicate : Fault) : List τ → Except Fault τ
  | [] => .error missing
  | [t] => .ok t
  | _ => .error duplicate

section Sole

variable {τ : Type} {missing duplicate : Fault} {l : List τ}

theorem sole_eq_ok_iff {t : τ} : sole missing duplicate l = .ok t ↔ l = [t] := by
  rcases l with _ | ⟨u, _ | ⟨v, l⟩⟩ <;> simp [sole]

theorem sole_of_nil (h : l = []) : sole missing duplicate l = .error missing := by
  rw [h, sole]

theorem sole_of_two_le (h : 2 ≤ l.length) : sole missing duplicate l = .error duplicate := by
  rcases l with _ | ⟨u, _ | ⟨v, l⟩⟩
  · simp at h
  · simp at h
  · rfl

/-- What a search for a sole element answers: the element when there is one, and otherwise whether
there is none or more than one. -/
structure SoleAnswer (missing duplicate : Fault) (l : List τ) (answer : Except Fault τ) : Prop where
  found (t : τ) : answer = .ok t ↔ l = [t]
  duplicate : answer = .error duplicate ↔ 2 ≤ l.length
  missing : answer = .error missing ↔ l.length = 0

theorem soleAnswer_sole (h : missing ≠ duplicate) (l : List τ) :
    SoleAnswer missing duplicate l (sole missing duplicate l) := by
  refine ⟨fun t => sole_eq_ok_iff, ?_, ?_⟩
  · rcases l with _ | ⟨u, _ | ⟨v, l⟩⟩ <;> simp [sole, h]
  · rcases l with _ | ⟨u, _ | ⟨v, l⟩⟩ <;> simp [sole, h.symm]

end Sole

/-! ### Tags in a row -/

theorem TagKind.isSigned_eq (kind : TagKind) :
    kind.isSigned = decide (kind = .layout ∨ kind = .key) := by
  cases kind <;> rfl

/-- A tag ends where the tags behind it start, or before that. -/
theorem pairwise_placeTags (offset : Nat) (ts : List Tag) :
    (placeTags offset ts).Pairwise fun p q => p.offset + p.size ≤ q.offset := by
  induction ts generalizing offset with
  | nil => exact .nil
  | cons t ts ih =>
    rw [placeTags, List.pairwise_cons]
    exact ⟨fun q hq => offset_le_of_mem_placeTags hq, ih (offset + t.byteSize)⟩

namespace BootImage

variable {i : BootImage}

theorem keyTag_eq_sole (i : BootImage) :
    i.keyTag = sole .keyTagMissing .keyTagDuplicate (i.tags.filterMap Tag.key?) := by
  unfold keyTag
  rcases i.tags.filterMap Tag.key? with _ | ⟨t, _ | ⟨u, ts⟩⟩ <;> rfl

theorem signatureTag_eq_sole (i : BootImage) :
    i.signatureTag = sole .signatureTagMissing .signatureTagDuplicate i.signatureTags := by
  unfold signatureTag signatureTags
  rcases i.tags.filterMap Tag.signature? with _ | ⟨t, _ | ⟨u, ts⟩⟩ <;> rfl

theorem keyTag_eq_ok_iff {k : KeyTag} : i.keyTag = .ok k ↔ i.tags.filterMap Tag.key? = [k] := by
  rw [keyTag_eq_sole, sole_eq_ok_iff]

theorem signatureTag_eq_ok_iff {s : SignatureTag} :
    i.signatureTag = .ok s ↔ i.signatureTags = [s] := by
  rw [signatureTag_eq_sole, sole_eq_ok_iff]

theorem filterMap_placedTags {τ : Type} (i : BootImage) (pick : Tag → Option τ) :
    i.placedTags.filterMap (fun p => pick p.tag) = i.tags.filterMap pick := by
  rw [← map_tag_placedTags, List.filterMap_map]
  rfl

/-! ### The index -/

theorem signedIndex_isOk_iff : (∃ x, i.signedIndex = .ok x) ↔ i.signedTags.length ≤ 4 := by
  constructor
  · rintro ⟨x, hx⟩
    exact (of_signedIndex_eq_ok hx).1
  · intro hle
    obtain ⟨x, hx, -⟩ := signedIndex_of_le hle
    exact ⟨x, hx⟩

theorem signedIndex_eq_error_iff {f : Fault} :
    i.signedIndex = .error f ↔ f = .indexFull ∧ 4 < i.signedTags.length := by
  by_cases hle : i.signedTags.length ≤ 4
  · obtain ⟨x, hx, -⟩ := signedIndex_of_le hle
    simp [hx, not_lt.mpr hle]
  · have hlt : 4 < i.signedTags.length := not_le.mp hle
    simp [signedIndex_of_lt hlt, hlt, eq_comm]

/-- The placed tags that go into the index. -/
def layoutsAndKeys (ps : List PlacedTag) : List PlacedTag :=
  ps.filter fun p => p.kind = .layout ∨ p.kind = .key

theorem placedSigned_eq (i : BootImage) : i.placedSigned = layoutsAndKeys i.placedTags := by
  simp only [placedSigned, layoutsAndKeys, TagKind.isSigned_eq]

/-- The index of some placed tags: those that are signed, where they stand, one behind the other
between the start of the trailer and the end of the image. -/
structure Indexes (b : Bytes) (start : Nat) (ps : List PlacedTag) (x : SignedIndex) : Prop where
  trailerOffset_eq : x.trailerOffset = start
  entries : x.entries.toList = (layoutsAndKeys ps).map fun p => ⟨p.kind.id, p.offset, p.size⟩
  increasing : x.entries.toList.Pairwise fun e f => e.offset < f.offset
  disjoint : x.entries.toList.Pairwise fun e f => e.offset + e.size ≤ f.offset
  bounds : ∀ e ∈ x.entries.toList, 0 < e.size ∧ start ≤ e.offset ∧ e.offset + e.size ≤ b.length

theorem indexEntry_bounds (hi : i.WellFormed) {p : PlacedTag} (hp : p ∈ i.placedTags) :
    0 < p.size ∧ i.trailerOffset ≤ p.offset ∧ p.offset + p.size ≤ i.encode.length := by
  have hsize : 0 < p.size := by
    have hk := p.kind.byteSize_ge
    exact Nat.lt_of_lt_of_le (by decide) hk
  have hlimit := limit_le_of_mem_placeTags hp
  rw [length_body_add_length_tags hi, ← hi.length_encode] at hlimit
  exact ⟨hsize, offset_le_of_mem_placeTags hp, hlimit⟩

theorem indexes_of_signedIndex (hi : i.WellFormed) {x : SignedIndex} (hx : i.signedIndex = .ok x) :
    Indexes i.encode i.trailerOffset i.placedTags x := by
  obtain ⟨-, htrailer, hentries⟩ := of_signedIndex_eq_ok hx
  have hbounds : ∀ e ∈ x.entries.toList, 0 < e.size ∧ i.trailerOffset ≤ e.offset ∧
      e.offset + e.size ≤ i.encode.length := by
    intro e he
    rw [hentries, List.mem_map] at he
    obtain ⟨p, hp, rfl⟩ := he
    exact indexEntry_bounds hi (List.mem_filter.mp hp).1
  have hdisjoint : x.entries.toList.Pairwise fun e f => e.offset + e.size ≤ f.offset := by
    rw [hentries, List.pairwise_map]
    exact (pairwise_placeTags i.trailerOffset i.tags).filter _
  refine ⟨htrailer, ?_, ?_, hdisjoint, hbounds⟩
  · rw [hentries, placedSigned_eq]
    rfl
  · refine hdisjoint.imp_of_mem fun {e f} he _ hle => ?_
    have hsize := (hbounds e he).1
    omega

/-! ### All scans -/

/-- What the scans of an image answer, told by the tags that stand in its trailer. At most four
signed tags have an index; it lists them in place, and a message can be gathered for it, with a
segment for the body and one for each entry. A sole tag is found if there is exactly one. -/
structure ScansAgree (b : Bytes) (i : BootImage) (ps : List PlacedTag) : Prop where
  indexed : (∃ x, i.signedIndex = .ok x) ↔ (layoutsAndKeys ps).length ≤ 4
  indexFull (f : Fault) :
    i.signedIndex = .error f ↔ f = .indexFull ∧ 4 < (layoutsAndKeys ps).length
  indexes (x : SignedIndex) (hx : i.signedIndex = .ok x) : Indexes b i.trailerOffset ps x
  message (x : SignedIndex) (hx : i.signedIndex = .ok x) :
    ∃ m, i.signedMessage x = .ok m ∧ m.segments.toList.length = x.entries.toList.length + 1
  key : SoleAnswer .keyTagMissing .keyTagDuplicate (ps.filterMap fun p => p.tag.key?) i.keyTag
  signature : SoleAnswer .signatureTagMissing .signatureTagDuplicate
    (ps.filterMap fun p => p.tag.signature?) i.signatureTag

/-- The scans of an accepted image agree on the tags that a walk over its trailer yields. -/
theorem scans_agree_on_tags {b : Bytes} {carrier : Carrier} (h : parse b carrier = .ok i) :
    ∃ ps, (TagCursor.start b i.trailerOffset).tags = .ok ps ∧ ScansAgree b i ps := by
  obtain ⟨hi, -, rfl⟩ := parse_eq_ok_iff.mp h
  have hlength : (layoutsAndKeys i.placedTags).length = i.signedTags.length := by
    rw [← placedSigned_eq, length_placedSigned]
  refine ⟨i.placedTags, tags_start_encode hi, ?_⟩
  constructor
  case indexed =>
    rw [hlength]
    exact signedIndex_isOk_iff
  case indexFull =>
    intro f
    rw [hlength]
    exact signedIndex_eq_error_iff
  case indexes =>
    intro x hx
    exact indexes_of_signedIndex hi hx
  case message =>
    intro x hx
    obtain ⟨-, -, hentries⟩ := of_signedIndex_eq_ok hx
    obtain ⟨m, hm, hsegments, -⟩ := exists_signedMessage hi hx
    refine ⟨m, hm, ?_⟩
    simp [hsegments, hentries, length_placedSigned]
  case key =>
    rw [filterMap_placedTags i Tag.key?, keyTag_eq_sole]
    exact soleAnswer_sole (by decide) _
  case signature =>
    rw [filterMap_placedTags i Tag.signature?, signatureTag_eq_sole]
    exact soleAnswer_sole (by decide) _

theorem scans_agree_on_mixedTrailer :
    parse (ofTags mixedTrailer).encode .unbounded = .ok (ofTags mixedTrailer) ∧
      ∃ ps, (TagCursor.start (ofTags mixedTrailer).encode
        (ofTags mixedTrailer).trailerOffset).tags = .ok ps ∧
        ScansAgree (ofTags mixedTrailer).encode (ofTags mixedTrailer) ps :=
  ⟨parse_mixedTrailer, scans_agree_on_tags parse_mixedTrailer⟩

end BootImage

end SignedBoot
