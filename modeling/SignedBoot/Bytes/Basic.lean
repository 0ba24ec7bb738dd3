/-!
# Byte strings and blocks of a fixed length

A byte string is a list of octets. A `Block n` is a byte string of exactly `n` octets, the shape
of every fixed field in the container. `Block.read?_eq_some_iff` says that reading a block is
splitting the input after its first `n` octets.
-/

namespace SignedBoot

abbrev Bytes := List UInt8

/-- A byte string of exactly `n` octets. -/
@[ext]
structure Block (n : Nat) where
  bytes : Bytes
  length_bytes : bytes.length = n
deriving DecidableEq

namespace Block

attribute [simp] length_bytes

def filled (n : Nat) (octet : UInt8) : Block n :=
  ⟨List.replicate n octet, List.length_replicate⟩

def zero (n : Nat) : Block n := filled n 0

/-- The first `n` octets, with zero octets appended where the byte string is shorter. -/
def ofPadded (n : Nat) (b : Bytes) : Block n :=
  ⟨(b ++ List.replicate n 0).take n, by simp⟩

def read? (n : Nat) (b : Bytes) : Option (Block n × Bytes) :=
  if h : n ≤ b.length then some (⟨b.take n, List.length_take_of_le h⟩, b.drop n) else none

theorem read?_append {n : Nat} (x : Block n) (rest : Bytes) :
    read? n (x.bytes ++ rest) = some (x, rest) := by
  obtain ⟨b, rfl⟩ := x
  simp [read?]

theorem read?_eq_some_iff {n : Nat} {b rest : Bytes} {x : Block n} :
    read? n b = some (x, rest) ↔ b = x.bytes ++ rest := by
  constructor
  · intro h
    unfold read? at h
    split at h
    · obtain ⟨rfl, rfl⟩ := by simpa using h
      simp
    · simp at h
  · rintro rfl
    exact read?_append x rest

end Block

/-- What follows `front` in a byte string that starts with it. -/
def dropFront? (front b : Bytes) : Option Bytes :=
  if front.isPrefixOf b then some (b.drop front.length) else none

def dropBack? (back b : Bytes) : Option Bytes :=
  if back.isSuffixOf b then some (b.take (b.length - back.length)) else none

def ascii (s : String) : Bytes := s.toList.map fun c => UInt8.ofNat c.toNat

/-- The octets of `b` at the positions from `offset` on, at most `length` of them. -/
def slice (b : Bytes) (offset length : Nat) : Bytes := (b.drop offset).take length

end SignedBoot
