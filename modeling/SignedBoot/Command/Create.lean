import SignedBoot.Command.Load

/-!
# Creating an image

Signs a payload with the private key of the configuration and writes the image.
-/

namespace SignedBoot.Command

variable {m : Type → Type} [Monad m]

/-- Creates an image and prints nothing. The salt goes into the signature if its mode takes one. -/
def create (files : FileAccess m) (salt : Block 32) (args : Arguments) :
    ExceptT CommandFault m String := do
  let config ← args.require "config"
  let payload ← args.require "payload"
  let out ← args.require "out"
  let settings ← files.loadSettings config
  match settings.privateKey with
  | none => throw .signingMissing
  | some file =>
    let key ← files.loadSigningKey (settings.path file)
    let payload ← files.require payload (.payloadUnreadable payload)
    let signer := Signer.ofSigningKey key (Padding.ofMode salt settings.policy.mode)
    match (Recipe.ofPayload payload).generate signer with
    | .error fault => throw (.recipe fault)
    | .ok generated =>
      if ← files.write out generated.image.encode then return ""
      else throw (.imageUnwritable out)

end SignedBoot.Command
