import SignedBoot.Bytes.Numeral

/-!
# Base64 text

Four digits make three octets. The last quantum may be padded, and then the bits that the padding
leaves over must be zero, so each byte string has one written form.
-/

namespace SignedBoot.Base64

def pad : UInt8 := 0x3d

def digitValue? (c : UInt8) : Option Nat :=
  if 0x41 ≤ c ∧ c ≤ 0x5a then some (c.toNat - 0x41)
  else if 0x61 ≤ c ∧ c ≤ 0x7a then some (c.toNat - 0x61 + 26)
  else if 0x30 ≤ c ∧ c ≤ 0x39 then some (c.toNat - 0x30 + 52)
  else if c = 0x2b then some 62
  else if c = 0x2f then some 63
  else none

def value? (digits : List UInt8) : Option Nat :=
  digits.foldlM (fun v c => (digitValue? c).map (64 * v + ·)) 0

/-- The octets of a value whose lowest bits are left over and must be zero. -/
def octets? (count leftover v : Nat) : Option Bytes :=
  if v % leftover = 0 then some (be count (v / leftover)) else none

def last? (a b c d : UInt8) : Option Bytes :=
  if d ≠ pad then do octets? 3 1 (← value? [a, b, c, d])
  else if c ≠ pad then do octets? 2 4 (← value? [a, b, c])
  else do octets? 1 16 (← value? [a, b])

def decode? : Bytes → Option Bytes
  | [] => some []
  | [a, b, c, d] => last? a b c d
  | a :: b :: c :: d :: rest => do
    let octets ← octets? 3 1 (← value? [a, b, c, d])
    return octets ++ (← decode? rest)
  | _ => none

end SignedBoot.Base64
