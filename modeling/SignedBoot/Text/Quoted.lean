import SignedBoot.Text.Hex

/-!
# Quoted characters

A character in a message stands between single quotes. Those that do not print, and those that
would end or start an escape, are escaped.
-/

namespace SignedBoot.Quoted

/-- Whether the character of an octet shows when it is printed. The soft hyphen does not. -/
def isPrintable (x : UInt8) : Bool := (0x20 ≤ x && x < 0x7f) || (0xa0 < x && x ≠ 0xad)

/-- The character of an octet without its quotes. -/
def body (x : UInt8) : String :=
  if x = 0x00 then "\\0"
  else if x = 0x09 then "\\t"
  else if x = 0x0a then "\\n"
  else if x = 0x0d then "\\r"
  else if x = 0x27 then "\\'"
  else if x = 0x5c then "\\\\"
  else if isPrintable x then String.singleton (Char.ofNat x.toNat)
  else "\\u\x7b" ++ Hex.numeral x.toNat ++ "\x7d"

def character (x : UInt8) : String := "'" ++ body x ++ "'"

end SignedBoot.Quoted
