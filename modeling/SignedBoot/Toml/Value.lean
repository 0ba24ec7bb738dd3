/-!
# Configuration values

The values that a TOML document is made of. A table remembers how it came to be, because that
decides whether later lines may still add to it.
-/

namespace SignedBoot.Toml

inductive TableOrigin
  | header
  | headerPath
  | dottedKey
  | braces
deriving DecidableEq, Repr

/-- The value of a key. Floats and dates are known by their kind only. -/
inductive Value
  | text (s : String)
  | integer (i : Int)
  | boolean (b : Bool)
  | float
  | date
  | array (items : List Value)
  | table (origin : TableOrigin) (entries : List (String × Value))
  /-- The tables under one double-bracketed header, in order. -/
  | tables (items : List Value)

abbrev Entries := List (String × Value)

namespace Entries

def get? (entries : Entries) (key : String) : Option Value := entries.lookup key

/-- The entries with one more; the key must be new. -/
def add? (entries : Entries) (key : String) (v : Value) : Option Entries :=
  if (get? entries key).isSome then none else some (entries ++ [(key, v)])

def put (entries : Entries) (key : String) (v : Value) : Entries :=
  if (get? entries key).isSome then
    entries.map fun (k, old) => if k = key then (k, v) else (k, old)
  else entries ++ [(key, v)]

end Entries

/-- The fields of a record, which a document gives by name, or by position in an array. -/
inductive Fields
  | named (entries : Entries)
  | positional (items : List Value)

def Value.fields? : Value → Option Fields
  | .table _ entries => some (.named entries)
  | .array items => some (.positional items)
  | .tables items => some (.positional items)
  | .date => some (.named [])
  | _ => none

namespace Fields

def get? : Fields → (position : Nat) → (name : String) → Option Value
  | .named entries, _, name => entries.get? name
  | .positional items, position, _ => items[position]?

def readField? {α : Type} (f : Fields) (position : Nat) (name : String)
    (read : Value → Option α) : Option (Option α) :=
  match f.get? position name with
  | none => some none
  | some v => (read v).map some

def withDefault? {α : Type} (f : Fields) (position : Nat) (name : String) (default : α)
    (read : Value → Option α) : Option α :=
  (f.readField? position name read).map (·.getD default)

/-- A field that must be there. -/
def required? {α : Type} (f : Fields) (position : Nat) (name : String)
    (read : Value → Option α) : Option α :=
  (f.get? position name).bind read

def optional? {α : Type} (f : Fields) (position : Nat) (name : String)
    (read : Value → Option α) : Option (Option α) :=
  match f with
  | .named _ => f.readField? position name read
  | .positional _ => (f.required? position name read).map some

end Fields

def Value.text? : Value → Option String
  | .text s => some s
  | _ => none

def Value.boolean? : Value → Option Bool
  | .boolean b => some b
  | _ => none

def Value.below? (bound : Nat) : Value → Option Nat
  | .integer i => if 0 ≤ i ∧ i < bound then some i.toNat else none
  | _ => none

end SignedBoot.Toml
