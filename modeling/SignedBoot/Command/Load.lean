import SignedBoot.Command.Fault
import SignedBoot.Command.Files
import SignedBoot.Keys.Document

/-!
# Arguments and documents of commands

What several commands do first: look up an argument, and load settings or a key from a file.
-/

namespace SignedBoot

abbrev Arguments := List (String × String)

def Arguments.require (args : Arguments) (name : String) : Except CommandFault String :=
  match args.lookup name with
  | some value => .ok value
  | none => .error (.argumentMissing name)

namespace FileAccess

variable {m : Type → Type} [Monad m]

/-- What is read from a file, or the fault when there is no reading it. -/
def require (files : FileAccess m) (path : String) (unreadable : CommandFault) :
    ExceptT CommandFault m Bytes := do
  match ← files.read path with
  | some contents => return contents
  | none => throw unreadable

/-- The text of a file, or the fault when there is no reading it. -/
def requireText (files : FileAccess m) (path : String) (unreadable : CommandFault) :
    ExceptT CommandFault m String := do
  match textOf? (← files.require path unreadable) with
  | some text => return text
  | none => throw unreadable

def loadSettings (files : FileAccess m) (path : String) : ExceptT CommandFault m Settings := do
  let text ← files.requireText path (.configUnreadable path)
  match Settings.parse text (Path.parent path) with
  | .ok settings => return settings
  | .error fault => throw (.configInvalid path fault)

def loadPublicKey (files : FileAccess m) (path : String) : ExceptT CommandFault m ImageKey := do
  let text ← files.requireText path (.publicKeyUnreadable path)
  match PublicKey.ofPem? text.toUTF8.toList with
  | none => throw (.publicKeyMalformed path)
  | some key =>
    match ImageKey.ofParts key.modulus key.exponent with
    | .ok key => return key
    | .error fault => throw (.key fault)

def loadSigningKey (files : FileAccess m) (path : String) : ExceptT CommandFault m SigningKey := do
  let text ← files.requireText path (.privateKeyUnreadable path)
  match PrivateKey.ofPem? text.toUTF8.toList with
  | none => throw (.privateKeyMalformed path)
  | some key =>
    match SigningKey.ofPrivate key with
    | .ok key => return key
    | .error fault => throw (.key fault)

end FileAccess

end SignedBoot
