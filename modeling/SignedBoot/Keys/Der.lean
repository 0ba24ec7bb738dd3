import SignedBoot.Bytes.Numeral

/-!
# Tagged values in distinguished form

A value is written as a tag octet, the shortest length of its contents, and the contents. Each
reader takes one value off the front of a byte string.
-/

namespace SignedBoot.Der

def integerTag : UInt8 := 0x02

def bitStringTag : UInt8 := 0x03

def octetStringTag : UInt8 := 0x04

def sequenceTag : UInt8 := 0x30

def universalTags : List UInt8 :=
  [0x01, 0x02, 0x03, 0x04, 0x05, 0x06, 0x09, 0x0a, 0x0c, 0x12, 0x13, 0x14, 0x15, 0x16, 0x17, 0x18,
   0x1a, 0x1e, 0x30, 0x31]

/-- A tag is a single octet: a known one of the universal class, or any of the other classes. -/
def isTag (x : UInt8) : Bool :=
  if x < 0x40 then universalTags.contains x else x &&& 0x1f != 0x1f

/-- Reads a length, which must be written in its shortest form and has at most 28 bits. -/
def length? : Bytes → Option (Nat × Bytes)
  | [] => none
  | x :: rest =>
    if x < 0x80 then some (x.toNat, rest)
    else
      let count := x.toNat - 0x80
      let n := beValue (rest.take count)
      if count ≤ rest.length ∧ count = octetLength n ∧ 0x80 ≤ n ∧ n < 0x10000000 then
        some (n, rest.drop count)
      else none

def value? : Bytes → Option ((UInt8 × Bytes) × Bytes)
  | [] => none
  | tag :: rest => do
    let (n, rest) ← length? rest
    if isTag tag ∧ n ≤ rest.length then return ((tag, rest.take n), rest.drop n) else none

def contents? (tag : UInt8) (b : Bytes) : Option (Bytes × Bytes) := do
  let ((t, x), rest) ← value? b
  if t = tag then return (x, rest) else none

/-- Reads the contents of a value of one tag that fills a byte string. -/
def whole? (tag : UInt8) (b : Bytes) : Option Bytes := do
  let (x, rest) ← contents? tag b
  if rest = [] then return x else none

/-- The value of an unsigned integer, written without needless zeros. -/
def unsignedValue? : Bytes → Option Nat
  | [] => none
  | [x] => if x < 0x80 then some x.toNat else none
  | x :: y :: rest =>
    if x ≥ 0x80 ∨ x = 0 ∧ y < 0x80 then none else some (beValue (x :: y :: rest))

def unsigned? (b : Bytes) : Option (Nat × Bytes) := do
  let (x, rest) ← contents? integerTag b
  return (← unsignedValue? x, rest)

def unsignedMany? : (count : Nat) → Bytes → Option (List Nat)
  | 0, b => if b = [] then some [] else none
  | count + 1, b => do
    let (n, b) ← unsigned? b
    return n :: (← unsignedMany? count b)

def bitStringOctets? : Bytes → Option Bytes
  | 0 :: octets => some octets
  | _ => none

end SignedBoot.Der
