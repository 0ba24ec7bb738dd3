import SignedBoot.Container.Header

/-!
# The carrier around an image

A carrier is the storage layout that holds a candidate image: where the image starts, how many
octets are there for it, and where the carrier ends.
-/

namespace SignedBoot

/-- The room that a carrier gives to an image. -/
structure Carrier where
  base : UInt32
  loadedLength : UInt32
  limit : UInt32
deriving DecidableEq

namespace Carrier

/-- The carrier that sets no bound of its own. -/
def unbounded : Carrier := ⟨0, 0xffffffff, 0xffffffff⟩

instance : Inhabited Carrier := ⟨unbounded⟩

/-- The carrier that holds exactly `length` octets at offset zero. -/
def exact (length : UInt32) : Carrier := ⟨0, length, length⟩

/-- Checks that an image of the declared length has a whole header and fits the carrier. -/
def checkFit (c : Carrier) (total : UInt32) : Except Fault Unit :=
  if total.toNat < Header.byteSize then .error .totalMismatch
  else if total > c.loadedLength then .error .carrierOverflow
  else if c.base.toNat + total.toNat > c.limit.toNat then .error .carrierOverflow
  else .ok ()

/-- The offset of the first octet after the fixed header, when it is a word. -/
def bodyOffset? (c : Carrier) : Option UInt32 :=
  if c.base.toNat + Header.byteSize < UInt32.size then some (c.base + 0x44) else none

end Carrier

end SignedBoot
