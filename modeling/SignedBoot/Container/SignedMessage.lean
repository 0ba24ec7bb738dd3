import SignedBoot.BoundedList
import SignedBoot.Container.Image

/-!
# The signature index and the signed message

The signature index records the signed tags of the trailer, at most four of them. The signed
message is the body of the image followed by the indexed regions, handed on as a gather list of
segments that are processed as one byte string.
-/

namespace SignedBoot

structure IndexEntry where
  tagId : Nat
  offset : Nat
  size : Nat
deriving DecidableEq

def indexCapacity : Nat := 4

/-- The signed regions of an image, in trailer order. -/
structure SignedIndex where
  trailerOffset : Nat
  entries : BoundedList IndexEntry indexCapacity

namespace SignedIndex

def empty (trailerOffset : Nat) : SignedIndex := ⟨trailerOffset, ∅⟩

/-- Appends an entry if there is room. -/
def push? (x : SignedIndex) (e : IndexEntry) : Option SignedIndex :=
  (x.entries.push? e).map fun entries => { x with entries }

/-- Appends an entry if there is room, and otherwise leaves the index as it is. -/
def offer (x : SignedIndex) (e : IndexEntry) : SignedIndex := (x.push? e).getD x

def length (x : SignedIndex) : Nat := x.entries.length

end SignedIndex

/-- The number of segments of a gather list: the body and one for each index entry. -/
def gatherCapacity : Nat := 1 + indexCapacity

/-- Segments that make up one message. -/
structure Gather where
  segments : BoundedList Bytes gatherCapacity

namespace Gather

def empty : Gather := ⟨∅⟩

def single (b : Bytes) : Gather := ⟨⟨[b], by simp [gatherCapacity]⟩⟩

/-- Appends a segment, or refuses it when the list is full. -/
def push (g : Gather) (b : Bytes) : Except Fault Gather :=
  match g.segments.push? b with
  | some segments => .ok ⟨segments⟩
  | none => .error .gatherFull

def bytes (g : Gather) : Bytes := g.segments.toList.flatten

/-- The length of the message: its segments' lengths added up. -/
def length (g : Gather) : Nat := g.segments.toList.foldr (fun s n => s.length + n) 0

theorem length_eq (g : Gather) : g.length = g.bytes.length := by
  unfold length bytes
  induction g.segments.toList with
  | nil => rfl
  | cons s ss ih => rw [List.foldr_cons, ih, List.flatten_cons, List.length_append]

end Gather

namespace BootImage

def indexEntry (p : PlacedTag) : IndexEntry := ⟨p.kind.id, p.offset, p.size⟩

/-- Records every signed tag, or reports that there are too many. -/
def signedIndex (i : BootImage) : Except Fault SignedIndex :=
  (i.placedTags.filter (·.kind.isSigned)).foldlM
    (fun x p =>
      match x.push? (indexEntry p) with
      | some x => .ok x
      | none => .error .indexFull)
    (SignedIndex.empty i.trailerOffset)

def signedMessage (i : BootImage) (x : SignedIndex) : Except Fault Gather :=
  x.entries.toList.foldlM
    (fun g e => do
      let segment ← i.region e.offset e.size
      g.push segment)
    (Gather.single i.body)

end BootImage

end SignedBoot
