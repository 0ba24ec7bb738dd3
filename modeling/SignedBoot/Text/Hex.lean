import SignedBoot.Bytes.Basic

/-!
# Hexadecimal text

Numbers are written in lower case, bare or with leading zeros up to a width. Byte strings are
written with two digits an octet and read in either case. The reader counts octets of the text,
because a text that is no hexadecimal numeral may hold any character.
-/

namespace SignedBoot.Hex

/-- The number in base sixteen, without leading zeros. -/
def numeral (n : Nat) : String := String.ofList (Nat.toDigits 16 n)

/-- The number in base sixteen, with zeros in front up to `width` digits. -/
def padded (width n : Nat) : String :=
  let digits := Nat.toDigits 16 n
  String.ofList (List.replicate (width - digits.length) '0' ++ digits)

def digit (v : UInt8) : UInt8 := if v < 10 then v + 48 else v + 87

def digitValue? (c : UInt8) : Option UInt8 :=
  if 48 ≤ c ∧ c ≤ 57 then some (c - 48)
  else if 65 ≤ c ∧ c ≤ 70 then some (c - 55)
  else if 97 ≤ c ∧ c ≤ 102 then some (c - 87)
  else none

/-- Two digits an octet, high digit first, as octets of ASCII text. -/
def encode : Bytes → Bytes
  | [] => []
  | x :: rest => digit (x / 16) :: digit (x % 16) :: encode rest

def text (b : Bytes) : String :=
  String.ofList ((encode b).map fun c => Char.ofNat c.toNat)

/-- Why a text is no hexadecimal byte string. -/
inductive DecodeError
  | oddLength
  | invalidDigit (octet : UInt8) (position : Nat)
deriving DecidableEq, Repr

/-- Reads digits in pairs, the first of them standing at `position`. -/
def decodeFrom (position : Nat) : Bytes → Except DecodeError Bytes
  | [] => .ok []
  | [_] => .error .oddLength
  | c :: d :: rest =>
    match digitValue? c with
    | none => .error (.invalidDigit c position)
    | some high =>
      match digitValue? d with
      | none => .error (.invalidDigit d (position + 1))
      | some low => (decodeFrom (position + 2) rest).map ((16 * high + low) :: ·)

/-- Reads a byte string. An odd length is reported before any digit is looked at. -/
def decode (b : Bytes) : Except DecodeError Bytes :=
  if b.length % 2 = 1 then .error .oddLength else decodeFrom 0 b

end SignedBoot.Hex
